import Ia32.Proofs.C.Scopes

/-!
# Slots of local variables

The table of variables is used through requests. The record of what was asked and replied says
which names were inserted since the table was cleared, and which type each was given last. After
any requests the table is the one that the record describes: the names have the words below the
frame pointer in the order of their insertion, and keep them until the table is cleared.
-/

namespace Ia32.C.Locals

/-! ### Requests -/

/-- The ways to use a table of variables. -/
inductive Request where
  | declare (name : String) (type : CType)
  | getOrDeclare (name : String)
  | retype (name : String) (type : CType)
  | get (name : String)
  | clear
  deriving DecidableEq

/-- What a request gives back. -/
inductive Reply where
  | found (l : Local)
  | absent
  | refused (cause : LocalError) (previous : Option Local)
  | cleared
  deriving DecidableEq

/-- The reply to a look-up. -/
def Reply.ofOption : Option Local → Reply
  | some l => .found l
  | none => .absent

/-- The reply to a declaration. -/
def Reply.ofDeclare : Except (LocalError × Option Local) Local → Reply
  | .ok l => .found l
  | .error (cause, previous) => .refused cause previous

/-- The reply to the use of a name. -/
def Reply.ofUse : Except LocalError Local → Reply
  | .ok l => .found l
  | .error cause => .refused cause none

/-- One request: its reply, and the table behind it. -/
def perform (locals : Locals) : Request → Reply × Locals
  | .declare name type =>
      (.ofDeclare (locals.declare name type).2, (locals.declare name type).1)
  | .getOrDeclare name =>
      (.ofUse (locals.getOrDeclare name).2, (locals.getOrDeclare name).1)
  | .retype name type =>
      (.ofOption (locals.retype name type).2, (locals.retype name type).1)
  | .get name => (.ofOption (locals.get? name), locals)
  | .clear => (.cleared, locals.clear)

/-! ### What was asked and replied -/

/-- The names in a table, as requests and replies tell them. -/
structure Record where
  /-- The names inserted since the table was cleared, in order. -/
  inserted : List String := []
  /-- The type that a name was given last, by its insertion or by retyping. -/
  given : String → Option CType := fun _ => none

namespace Record

/-- Enters a new name. -/
def insert (record : Record) (name : String) (type : CType) : Record where
  inserted := record.inserted ++ [name]
  given := Function.update record.given name (some type)

/-- Enters a request with its reply. -/
def note (record : Record) : Request → Reply → Record
  | .declare name type, .found _ => record.insert name type
  | .getOrDeclare name, .found _ =>
      if name ∈ record.inserted then record else record.insert name .int
  | .retype name type, .found _ =>
      { record with given := Function.update record.given name (some type) }
  | .clear, _ => {}
  | _, _ => record

end Record

/-- Requests one after another, with the record of them and of their replies. -/
def performAll (record : Record) (locals : Locals) : List Request → Record × Locals
  | [] => (record, locals)
  | request :: rest =>
      let (reply, after) := locals.perform request
      performAll (record.note request reply) after rest

/-- The record of requests to a new table. -/
def recordOf (capacity : Nat) (requests : List Request) : Record :=
  (performAll {} { capacity } requests).1

/-- A new table after requests. -/
def tableAfter (capacity : Nat) (requests : List Request) : Locals :=
  (performAll {} { capacity } requests).2

/-- The table is the one that a record describes. -/
structure Recorded (capacity : Nat) (record : Record) (locals : Locals) : Prop where
  names : locals.names = record.inserted
  distinct : record.inserted.Nodup
  room : record.inserted.length ≤ capacity
  slot : ∀ (i : Nat) (name : String), record.inserted[i]? = some name →
    ∃ l, locals.get? name = some l ∧ l.slot.base = .ebp ∧
      l.slot.disp.toInt = -(4 * (i + 1) : Int) ∧ record.given name = some l.type
  absent : ∀ name ∉ record.inserted, locals.get? name = none
  frame : locals.frameSize = 4 * record.inserted.length

/-- What a request to a table may be replied, and the table that it leaves. -/
inductive Outcome (capacity : Nat) (locals : Locals) : Request → Reply → Locals → Prop
  | declared {name : String} {type : CType} {l : Local} {after : Locals}
      (hnew : locals.get? name = none) (hfound : after.get? name = some l) :
      Outcome capacity locals (.declare name type) (.found l) after
  | redeclared {name : String} {type : CType} {l : Local} (h : locals.get? name = some l) :
      Outcome capacity locals (.declare name type) (.refused (.redeclared name) (some l)) locals
  | full {request : Request} {name : String}
      (h : request = .getOrDeclare name ∨ ∃ type, request = .declare name type)
      (hnew : locals.get? name = none) (hfull : locals.size = capacity) :
      Outcome capacity locals request (.refused (.full capacity) none) locals
  | used {name : String} {l : Local} {after : Locals} (hfound : after.get? name = some l) :
      Outcome capacity locals (.getOrDeclare name) (.found l) after
  | retyped {name : String} {type : CType} {after : Locals} :
      Outcome capacity locals (.retype name type) (.ofOption (after.get? name)) after
  | looked {name : String} :
      Outcome capacity locals (.get name) (.ofOption (locals.get? name)) locals
  | cleared {after : Locals} (h : after.names = []) :
      Outcome capacity locals .clear .cleared after

/-! ### What a request does -/

variable {capacity : Nat} {record : Record} {locals : Locals}

/-! ### The invariant -/

/-- What requests keep: the words are dense, and names and types are those of the record. -/
structure Kept (capacity : Nat) (record : Record) (locals : Locals) : Prop where
  names : locals.names = record.inserted
  distinct : record.inserted.Nodup
  dense : locals.Dense
  capacity : locals.capacity = capacity
  types : locals.typeOf = record.given

theorem kept_new (capacity : Nat) : Kept capacity {} { capacity } :=
  ⟨rfl, List.nodup_nil, ⟨rfl, Nat.zero_le _⟩, rfl, rfl⟩

theorem Kept.clear (h : Kept capacity record locals) : Kept capacity {} locals.clear :=
  ⟨rfl, List.nodup_nil, ⟨rfl, Nat.zero_le _⟩, h.capacity, rfl⟩

/-- The names of the record are those of the table. -/
theorem Kept.mem_inserted_iff (h : Kept capacity record locals) {name : String} :
    name ∈ record.inserted ↔ ∃ l, locals.get? name = some l := by
  rw [← h.names, ← Option.isSome_iff_exists, ← Option.ne_none_iff_isSome, Ne, get?_eq_none_iff,
    not_not]

/-- A name that is declared is the last one inserted. -/
theorem Kept.declare (h : Kept capacity record locals) {name : String} {type : CType}
    {l : Local} (hdeclare : (locals.declare name type).2 = .ok l) :
    Kept capacity (record.insert name type) (locals.declare name type).1 := by
  obtain ⟨hgrows, -⟩ := declare_eq_ok hdeclare
  obtain ⟨hnew, htypes⟩ := typeOf_declare hdeclare
  have hfresh : name ∉ locals.names := get?_eq_none_iff.mp (typeOf_eq_none_iff.mp hnew)
  constructor
  · rw [hgrows.names, insertName, if_neg (by simpa using hfresh), h.names]
    rfl
  · rw [h.names] at hfresh
    exact List.nodup_append.mpr ⟨h.distinct, List.nodup_singleton name, fun a ha b hb heq =>
      hfresh (List.mem_singleton.mp hb ▸ heq ▸ ha)⟩
  · exact hgrows.dense h.dense
  · exact hgrows.capacity.trans h.capacity
  · rw [htypes, h.types]
    rfl

theorem Kept.retype (h : Kept capacity record locals) {name : String} {type : CType} {l : Local}
    (hfound : (locals.retype name type).2 = some l) :
    Kept capacity { record with given := Function.update record.given name (some type) }
      (locals.retype name type).1 := by
  have hgrows := grows_retype hfound
  constructor
  · rw [← h.names]
    exact map_retypeIn (fun name _ => name) name type locals.entries
  · exact h.distinct
  · exact hgrows.dense h.dense
  · exact hgrows.capacity.trans h.capacity
  · rw [typeOf_retype hfound, h.types]

/-- Every request keeps the invariant. -/
theorem Kept.perform (h : Kept capacity record locals) (request : Request) :
    Kept capacity (record.note request (locals.perform request).1)
      (locals.perform request).2 := by
  cases request with
  | declare name type =>
      rcases declare_cases locals name type with ⟨l, -, hsame⟩ | ⟨-, -, hsame⟩ | ⟨l, -, hdeclare⟩
      · simpa only [Locals.perform, hsame, Reply.ofDeclare, Record.note] using h
      · simpa only [Locals.perform, hsame, Reply.ofDeclare, Record.note] using h
      · simpa only [Locals.perform, hdeclare, Reply.ofDeclare, Record.note] using
          h.declare hdeclare
  | getOrDeclare name =>
      rcases getOrDeclare_cases locals name with ⟨l, hname, hsame⟩ | ⟨-, -, hsame⟩ |
        ⟨l, hname, hdeclare, huse⟩
      · simpa only [Locals.perform, hsame, Reply.ofUse, Record.note,
          if_pos (h.mem_inserted_iff.mpr ⟨l, hname⟩)] using h
      · simpa only [Locals.perform, hsame, Reply.ofUse, Record.note] using h
      · have hfresh : name ∉ record.inserted := by
          rw [← h.names]
          exact get?_eq_none_iff.mp hname
        simpa only [Locals.perform, huse, Reply.ofUse, Record.note, if_neg hfresh] using
          h.declare hdeclare
  | retype name type =>
      rcases retype_cases locals name type with ⟨l, -, hfound⟩ | ⟨-, hsame⟩
      · simpa only [Locals.perform, hfound, Reply.ofOption, Record.note] using h.retype hfound
      · simpa only [Locals.perform, hsame, Reply.ofOption, Record.note] using h
  | get name =>
      cases hname : locals.get? name with
      | none => simpa only [Locals.perform, hname, Reply.ofOption, Record.note] using h
      | some l => simpa only [Locals.perform, hname, Reply.ofOption, Record.note] using h
  | clear => exact h.clear

/-- A table with the invariant is the one that its record describes. -/
theorem Kept.recorded (h : Kept capacity record locals) (hcapacity : capacity < 2 ^ 29) :
    Recorded capacity record locals := by
  have hroom : record.inserted.length ≤ capacity := by
    rw [← h.names, length_names, ← h.capacity]
    exact h.dense.size_le
  constructor
  · exact h.names
  · exact h.distinct
  · exact hroom
  · intro i name hi
    obtain ⟨hlt, hname⟩ := List.getElem?_eq_some_iff.mp hi
    obtain ⟨l, hl⟩ := h.mem_inserted_iff.mp (hname ▸ List.getElem_mem hlt)
    -- no name is inserted twice, so the place of the name is its word
    have hplace : locals.names.idxOf name = i := by
      rw [h.names, ← hname]
      exact h.distinct.idxOf_getElem i hlt
    have hslot : l.slot = slotAt i := by rw [h.dense.slot_eq hl, hplace]
    have htype : locals.typeOf name = some l.type := by rw [typeOf, hl]; rfl
    refine ⟨l, hl, by rw [hslot]; rfl, ?_, by rw [← h.types, htype]⟩
    rw [hslot, toInt_disp_slotAt (by omega)]
  · intro name hname
    rw [← h.names] at hname
    exact get?_eq_none_iff.mpr hname
  · rw [frameSize, ← length_names, h.names, Abi.wordSize, Nat.mul_comm]

/-- Every request is replied as it should be. -/
theorem Kept.outcome (h : Kept capacity record locals) (request : Request) :
    Outcome capacity locals request (locals.perform request).1 (locals.perform request).2 := by
  have hsize : locals.size ≤ locals.capacity := h.dense.size_le
  cases request with
  | declare name type =>
      rcases declare_cases locals name type with ⟨l, hname, hsame⟩ | ⟨hname, hfull, hsame⟩ |
        ⟨l, hname, hdeclare⟩
      · simpa only [Locals.perform, hsame, Reply.ofDeclare] using .redeclared hname
      · simpa only [Locals.perform, hsame, Reply.ofDeclare, h.capacity] using
          .full (.inr ⟨type, rfl⟩) hname (h.capacity ▸ Nat.le_antisymm hsize hfull)
      · simpa only [Locals.perform, hdeclare, Reply.ofDeclare] using
          .declared hname (declare_eq_ok hdeclare).2
  | getOrDeclare name =>
      rcases getOrDeclare_cases locals name with ⟨l, hname, hsame⟩ | ⟨hname, hfull, hsame⟩ |
        ⟨l, -, hdeclare, huse⟩
      · simpa only [Locals.perform, hsame, Reply.ofUse] using .used hname
      · simpa only [Locals.perform, hsame, Reply.ofUse, h.capacity] using
          .full (.inl rfl) hname (h.capacity ▸ Nat.le_antisymm hsize hfull)
      · simpa only [Locals.perform, huse, Reply.ofUse] using .used (declare_eq_ok hdeclare).2
  | retype name type => exact .retyped
  | get name => exact .looked
  | clear => exact .cleared rfl

/-! ### Any number of requests -/

/-- The record is kept over any requests. -/
theorem Kept.performAll (h : Kept capacity record locals) (requests : List Request) :
    Kept capacity (performAll record locals requests).1 (performAll record locals requests).2 := by
  induction requests generalizing record locals with
  | nil => exact h
  | cons request rest ih => exact ih (h.perform request)

theorem performAll_append (record : Record) (locals : Locals) (first second : List Request) :
    performAll record locals (first ++ second) =
      performAll (performAll record locals first).1 (performAll record locals first).2 second := by
  induction first generalizing record locals with
  | nil => rfl
  | cons request rest ih => exact ih _ _

/-- Only clearing takes names away. -/
theorem Record.inserted_note {request : Request} (h : request ≠ .clear) (record : Record)
    (reply : Reply) : record.inserted <+: (record.note request reply).inserted := by
  unfold note
  split
  · exact List.prefix_append _ _
  · split
    · exact List.prefix_rfl
    · exact List.prefix_append _ _
  · exact List.prefix_rfl
  · exact absurd rfl h
  · exact List.prefix_rfl

/-- Without a clear the names that are there stay in front. -/
theorem inserted_performAll {requests : List Request} (h : .clear ∉ requests) (record : Record)
    (locals : Locals) : record.inserted <+: (performAll record locals requests).1.inserted := by
  induction requests generalizing record locals with
  | nil => exact List.prefix_rfl
  | cons request rest ih =>
      rw [List.mem_cons, not_or] at h
      have hfirst := record.inserted_note (Ne.symm h.1) (locals.perform request).1
      exact hfirst.trans (ih h.2 _ _)

/-- Words of variables are dense, distinct and stable. After any requests to a new table, the names
are those of the record, each with the word that its place in the order of insertion gives it and
with the type that it was given last. Places stay as they are until the table is cleared. A
further request is replied as it should be; if it is refused, the table is the same as before. -/
theorem slots_dense_stable {capacity : Nat} (hcapacity : capacity < 2 ^ 29)
    (requests : List Request) :
    Recorded capacity (recordOf capacity requests) (tableAfter capacity requests) ∧
    (∀ more, .clear ∉ more →
      (recordOf capacity requests).inserted <+: (recordOf capacity (requests ++ more)).inserted) ∧
    ∀ request, Outcome capacity (tableAfter capacity requests) request
      ((tableAfter capacity requests).perform request).1
      ((tableAfter capacity requests).perform request).2 := by
  have hkept := (kept_new capacity).performAll requests
  refine ⟨hkept.recorded hcapacity, fun more hmore => ?_, fun request => hkept.outcome request⟩
  rw [recordOf, recordOf, performAll_append]
  exact inserted_performAll hmore _ _

/-- A full table of two: the second name is inserted by its use and retyped, a third one finds no
room, and the first one cannot be declared again. -/
theorem slots_dense_stable_full :
    2 < 2 ^ 29 ∧ ∃ l, (tableAfter 2 [.clear, .declare "a" .int, .getOrDeclare "b",
      .retype "b" .charPointer, .getOrDeclare "c", .declare "a" .char]).get? "b" = some l ∧
        l.slot.base = .ebp ∧ l.slot.disp.toInt = -8 ∧ some CType.charPointer = some l.type := by
  have hrecorded := (@slots_dense_stable 2 (by decide) [.clear, .declare "a" .int,
    .getOrDeclare "b", .retype "b" .charPointer, .getOrDeclare "c", .declare "a" .char]).1
  exact ⟨by decide, hrecorded.slot 1 "b" (by decide)⟩

end Ia32.C.Locals
