import Ia32.Proofs.C.Tree

/-!
# The tables of the compiler

What the compiler knows about names while it reads a function: the variables with
their words, and the string constants. Code depends on what names stand for, which is
settled only at the end of a function; a state is `Within` every frame that agrees
with its tables so far.
-/

namespace Ia32.C

/-! ### Tables of variables -/

namespace Locals

/-- The names of the variables. -/
def names (locals : Locals) : List String :=
  locals.entries.map Prod.fst

/-- Every variable has the word that its place in the table gives it. -/
structure Dense (locals : Locals) : Prop where
  slots : locals.entries.map (fun entry => entry.2.slot) =
    (List.range locals.size).map slotAt
  size_le : locals.size ≤ locals.capacity

/-- One table has the variables of another, and one with a given name. -/
structure Grows (name : String) (locals locals' : Locals) : Prop where
  found : ∃ l, locals'.get? name = some l
  keeps : ∀ {other l}, locals.get? other = some l →
    ∃ l', locals'.get? other = some l' ∧ l'.slot = l.slot
  adds : ∀ {other l}, locals'.get? other = some l → other = name ∨ (locals.get? other).isSome
  names : locals'.names = insertName locals.names name
  capacity : locals'.capacity = locals.capacity
  dense : locals.Dense → locals'.Dense

theorem get?_eq_none_iff {locals : Locals} {name : String} :
    locals.get? name = none ↔ name ∉ locals.names := by
  simp only [get?, names, List.lookup_eq_none_iff, List.mem_map, not_exists, not_and]
  constructor
  · rintro h entry hentry rfl
    simpa using h entry hentry
  · intro h entry hentry
    have := h entry hentry
    simpa using fun heq : name = entry.1 => this heq.symm

theorem mem_names_of_get? {locals : Locals} {name : String} {l : Local}
    (h : locals.get? name = some l) : name ∈ locals.names := by
  refine Decidable.byContradiction fun hname => ?_
  rw [get?_eq_none_iff.mpr hname] at h
  cases h

theorem insertName_names_of_get? {locals : Locals} {name : String} {l : Local}
    (h : locals.get? name = some l) : insertName locals.names name = locals.names := by
  simp [insertName, mem_names_of_get? h]

theorem grows_self {locals : Locals} {name : String} {l : Local}
    (h : locals.get? name = some l) : Grows name locals locals where
  found := ⟨l, h⟩
  keeps hother := ⟨_, hother, rfl⟩
  adds hother := .inr (by simp [hother])
  names := (insertName_names_of_get? h).symm
  capacity := rfl
  dense := id

/-- Everything that a declaration can come to. One that is refused leaves the table alone. -/
theorem declare_cases (locals : Locals) (name : String) (type : CType) :
    (∃ l, locals.get? name = some l ∧
      locals.declare name type = (locals, .error (.redeclared name, some l))) ∨
    (locals.get? name = none ∧ locals.capacity ≤ locals.size ∧
      locals.declare name type = (locals, .error (.full locals.capacity, none))) ∨
    ∃ l, locals.get? name = none ∧ (locals.declare name type).2 = .ok l := by
  cases hname : locals.get? name with
  | some l => exact .inl ⟨l, rfl, by rw [declare, hname]⟩
  | none =>
      refine .inr ?_
      by_cases hroom : locals.capacity ≤ locals.size
      · exact .inl ⟨rfl, hroom, by rw [declare, hname]; exact if_pos hroom⟩
      · refine .inr ⟨⟨type, slotAt locals.size⟩, rfl, ?_⟩
        rw [declare, hname]
        exact congrArg Prod.snd (if_neg hroom)

/-- Everything that the use of a name can come to. One that is refused leaves the table alone. -/
theorem getOrDeclare_cases (locals : Locals) (name : String) :
    (∃ l, locals.get? name = some l ∧ locals.getOrDeclare name = (locals, .ok l)) ∨
    (locals.get? name = none ∧ locals.capacity ≤ locals.size ∧
      locals.getOrDeclare name = (locals, .error (.full locals.capacity))) ∨
    ∃ l, locals.get? name = none ∧ (locals.declare name .int).2 = .ok l ∧
      locals.getOrDeclare name = ((locals.declare name .int).1, .ok l) := by
  unfold getOrDeclare
  rcases declare_cases locals name .int with ⟨l, hname, -⟩ | ⟨hname, hfull, hdeclare⟩ |
    ⟨l, hname, hdeclare⟩
  · exact .inl ⟨l, hname, by rw [hname]⟩
  · exact .inr (.inl ⟨hname, hfull, by rw [hname, hdeclare]; rfl⟩)
  · exact .inr (.inr ⟨l, hname, hdeclare, by rw [hname]; simp only [hdeclare]; rfl⟩)

/-- A declared variable is in the table, which has grown by its name. -/
theorem declare_eq_ok {locals : Locals} {name : String} {type : CType} {l : Local}
    (h : (locals.declare name type).2 = .ok l) :
    Grows name locals (locals.declare name type).1 ∧
      (locals.declare name type).1.get? name = some l := by
  unfold declare at h ⊢
  split
  case h_1 previous hsome =>
    rw [hsome] at h
    cases h
  case h_2 hnone =>
    rw [hnone] at h
    split
    next hroom =>
      rw [if_pos hroom] at h
      cases h
    next hroom =>
      rw [if_neg hroom] at h
      cases h
      have hname : name ∉ locals.names := get?_eq_none_iff.mp hnone
      let new : Local := ⟨type, slotAt locals.size⟩
      have hlookup (other : String) :
          get? { locals with entries := locals.entries ++ [(name, new)] } other =
            (locals.get? other).or (if other = name then some new else none) := by
        simp only [get?, List.lookup_append, List.lookup_cons, List.lookup_nil]
        by_cases heq : other = name
        · simp [heq]
        · simp [heq, beq_eq_false_iff_ne.mpr heq]
      have hfound := (hlookup name).trans (by rw [hnone, if_pos rfl, Option.none_or])
      refine ⟨⟨⟨_, hfound⟩, ?_, ?_, ?_, rfl, ?_⟩, hfound⟩
      · intro other l hother
        exact ⟨l, by rw [hlookup, hother]; rfl, rfl⟩
      · intro other l hother
        rw [hlookup] at hother
        by_cases heq : other = name
        · exact .inl heq
        · rw [if_neg heq, Option.or_none] at hother
          exact .inr (by simp [hother])
      · simp [names, insertName] at hname ⊢
        simp [hname]
      · rintro ⟨hslots, hsize⟩
        refine ⟨?_, ?_⟩
        · simp only [List.map_append, hslots, size, List.length_append, List.length_cons,
            List.length_nil, List.range_succ, List.map_cons, List.map_nil]
        · simpa [size] using Nat.succ_le_of_lt (Nat.lt_of_not_le hroom)

/-- A variable that is found or declared is in the table, which has grown by its name. -/
theorem getOrDeclare_eq_ok {locals : Locals} {name : String} {l : Local}
    (h : (locals.getOrDeclare name).2 = .ok l) :
    Grows name locals (locals.getOrDeclare name).1 ∧
      (locals.getOrDeclare name).1.get? name = some l := by
  rcases getOrDeclare_cases locals name with ⟨l', hname, huse⟩ | ⟨-, -, huse⟩ |
    ⟨l', -, hdeclare, huse⟩
  · rw [huse] at h ⊢
    cases h
    exact ⟨grows_self hname, hname⟩
  · rw [huse] at h
    cases h
  · rw [huse] at h ⊢
    cases h
    exact declare_eq_ok hdeclare

/-- A change of type leaves names and slots alone. -/
theorem map_retypeIn {β : Type} (f : String → Mem → β) (name : String) (type : CType)
    (entries : List (String × Local)) :
    (retypeIn name type entries).map (fun entry => f entry.1 entry.2.slot) =
      entries.map (fun entry => f entry.1 entry.2.slot) := by
  induction entries with
  | nil => rfl
  | cons entry rest ih =>
      unfold retypeIn
      split
      · rfl
      · simp only [List.map_cons, ih]

/-- A change of type changes one type. -/
theorem lookup_retypeIn (name other : String) (type : CType) (entries : List (String × Local)) :
    (retypeIn name type entries).lookup other =
      (entries.lookup other).map fun l => if other = name then { l with type := type } else l := by
  induction entries with
  | nil => rfl
  | cons entry rest ih =>
      obtain ⟨first, l⟩ := entry
      unfold retypeIn
      split
      next heq =>
        subst heq
        by_cases hother : other = name
        · simp [hother]
        · simp [List.lookup_cons, beq_eq_false_iff_ne.mpr hother, hother]
      next hne =>
        by_cases hother : other = first
        · subst hother
          simp [Ne.symm hne]
        · simp [List.lookup_cons, beq_eq_false_iff_ne.mpr hother, ih]

/-- A change of type does not take a new name. -/
theorem grows_retype {locals : Locals} {name : String} {type : CType} {l : Local}
    (h : (locals.retype name type).2 = some l) :
    Grows name locals (locals.retype name type).1 := by
  have hlookup (other : String) : (locals.retype name type).1.get? other =
      (locals.get? other).map fun l => if other = name then { l with type := type } else l :=
    lookup_retypeIn name other type locals.entries
  have hnames : (locals.retype name type).1.names = locals.names :=
    map_retypeIn (fun name _ => name) name type locals.entries
  have hslots := map_retypeIn (fun _ slot => slot) name type locals.entries
  refine ⟨⟨l, h⟩, ?_, ?_, ?_, rfl, ?_⟩
  · intro other l hother
    refine ⟨_, by rw [hlookup, hother]; rfl, ?_⟩
    split <;> rfl
  · intro other l hother
    rw [hlookup] at hother
    obtain ⟨l', hl', -⟩ := Option.map_eq_some_iff.mp hother
    exact .inr (by simp [hl'])
  · rw [← hnames]
    exact (insertName_names_of_get? h).symm
  · have hsize : (locals.retype name type).1.size = locals.size := by
      simpa [size, retype] using congrArg List.length hslots
    rintro ⟨hdense, hcapacity⟩
    exact ⟨by rw [hsize, ← hdense]; exact hslots, by rw [hsize]; exact hcapacity⟩

theorem retypeIn_of_lookup_eq_none {name : String} (type : CType) {entries : List (String × Local)}
    (h : entries.lookup name = none) : retypeIn name type entries = entries := by
  induction entries with
  | nil => rfl
  | cons entry rest ih =>
      obtain ⟨other, l⟩ := entry
      rw [List.lookup_cons] at h
      by_cases heq : name = other
      · simp [heq] at h
      · rw [retypeIn, if_neg heq]
        rw [beq_eq_false_iff_ne.mpr heq] at h
        rw [ih h]

/-- A variable is retyped in its place, and a name without one leaves the table alone. -/
theorem retype_cases (locals : Locals) (name : String) (type : CType) :
    (∃ l, locals.get? name = some l ∧ (locals.retype name type).2 = some { l with type }) ∨
    (locals.get? name = none ∧ locals.retype name type = (locals, none)) := by
  cases hname : locals.get? name with
  | some l =>
      have hlookup := lookup_retypeIn name name type locals.entries
      rw [← get?, hname] at hlookup
      exact .inl ⟨l, rfl, hlookup.trans (by simp)⟩
  | none =>
      have hsame : retypeIn name type locals.entries = locals.entries :=
        retypeIn_of_lookup_eq_none type hname
      refine .inr ⟨rfl, ?_⟩
      simp only [retype, hsame]
      exact congrArg (Prod.mk locals) hname

theorem length_names (locals : Locals) : locals.names.length = locals.size :=
  List.length_map _

theorem Grows.size_le {name : String} {locals locals' : Locals} (h : Grows name locals locals') :
    locals.size ≤ locals'.size := by
  rw [← length_names, ← length_names, h.names, insertName]
  split
  · exact Nat.le_refl _
  · rw [List.length_append]
    exact Nat.le_add_right _ _

/-- A table is the same as before, or it has grown by a name. -/
def Follows (name : String) (locals locals' : Locals) : Prop :=
  locals' = locals ∨ Grows name locals locals'

/-- A declaration leaves the table, or adds its name to it. -/
theorem follows_declare (locals : Locals) (name : String) (type : CType) :
    Follows name locals (locals.declare name type).1 := by
  rcases declare_cases locals name type with ⟨l, -, hsame⟩ | ⟨-, -, hsame⟩ | ⟨l, -, hdeclare⟩
  · exact .inl (by rw [hsame])
  · exact .inl (by rw [hsame])
  · exact .inr (declare_eq_ok hdeclare).1

theorem follows_getOrDeclare (locals : Locals) (name : String) :
    Follows name locals (locals.getOrDeclare name).1 := by
  rcases getOrDeclare_cases locals name with ⟨l, -, hsame⟩ | ⟨-, -, hsame⟩ | ⟨l, -, hdeclare, huse⟩
  · exact .inl (by rw [hsame])
  · exact .inl (by rw [hsame])
  · exact .inr (by rw [huse]; exact (declare_eq_ok hdeclare).1)

theorem follows_retype (locals : Locals) (name : String) (type : CType) :
    Follows name locals (locals.retype name type).1 := by
  rcases retype_cases locals name type with ⟨l, -, hfound⟩ | ⟨-, hsame⟩
  · exact .inr (grows_retype hfound)
  · exact .inl (by rw [hsame])

/-- The slots stay dense. -/
theorem Follows.dense {name : String} {locals locals' : Locals} (h : Follows name locals locals')
    (hdense : locals.Dense) : locals'.Dense := by
  rcases h with rfl | hgrows
  · exact hdense
  · exact hgrows.dense hdense

theorem Follows.size_le {name : String} {locals locals' : Locals}
    (h : Follows name locals locals') : locals.size ≤ locals'.size := by
  rcases h with rfl | hgrows
  · exact Nat.le_refl _
  · exact hgrows.size_le

/-- Displacements are exact as long as they fit a word. -/
theorem toInt_disp_slotAt {index : Nat} (h : index < 2 ^ 29) :
    (slotAt index).disp.toInt = -(4 * (index + 1) : Int) :=
  Int32.toInt_ofInt_of_le (by simp only [Abi.wordSize]; omega) (by simp only [Abi.wordSize]; omega)

/-- In a dense table the word of a variable is given by the place of its name. -/
theorem Dense.slot_eq {locals : Locals} (h : locals.Dense) {name : String} {l : Local}
    (hl : locals.get? name = some l) : l.slot = slotAt (locals.names.idxOf name) := by
  obtain ⟨hslots, -⟩ := h
  have hplace {entries : List (String × Local)} (hlookup : entries.lookup name = some l) :
      (entries.map fun entry => entry.2.slot)[(entries.map Prod.fst).idxOf name]? =
        some l.slot := by
    induction entries with
    | nil => cases hlookup
    | cons entry rest ih =>
        by_cases heq : name = entry.1
        · rw [List.lookup_cons, beq_iff_eq.mpr heq] at hlookup
          cases hlookup
          simp [heq]
        · rw [List.lookup_cons, beq_eq_false_iff_ne.mpr heq] at hlookup
          simpa [List.idxOf_cons, beq_eq_false_iff_ne.mpr (Ne.symm heq)] using ih hlookup
  have hfound := hplace hl
  rw [hslots] at hfound
  simp only [List.getElem?_map, Option.map_eq_some_iff] at hfound
  obtain ⟨index, hindex, hslot⟩ := hfound
  rw [List.getElem?_eq_some_iff] at hindex
  obtain ⟨hlt, rfl⟩ := hindex
  rw [← hslot, List.getElem_range]
  rfl

end Locals

/-! ### States of the compiler -/

namespace Compiler

/-- The names of the string constants. -/
def constants (c : Compiler) : List String :=
  c.strings.map Prod.fst

theorem isString_iff {c : Compiler} {name : String} : c.isString name ↔ name ∈ c.constants := by
  simp [isString, constants]

/-- A frame agrees with what the tables say about names. -/
structure Within (c : Compiler) (frame : Frame) : Prop where
  constants : ∀ {name}, c.isString name → name ∈ frame.constants
  locals : ∀ {name l}, c.locals.get? name = some l →
    name ∉ frame.constants ∧ l.slot = frame.slot name

/-- A constant stands for its label. -/
theorem Within.operand_constant {c : Compiler} {frame : Frame} (h : c.Within frame) {name : String}
    (hstring : c.isString name) : frame.operand name = .label name := by
  rw [Frame.operand, if_pos (h.constants hstring)]

/-- A variable stands for its word. -/
theorem Within.operand_local {c : Compiler} {frame : Frame} (h : c.Within frame) {name : String}
    {l : Local} (hl : c.locals.get? name = some l) : frame.operand name = .mem l.slot := by
  obtain ⟨hname, hslot⟩ := h.locals hl
  rw [Frame.operand, if_neg hname, hslot]

/-- The tables of the compiler are in order: no name is a variable and a constant,
and every constant can be a label. -/
structure Sound (c : Compiler) : Prop where
  dense : c.locals.Dense
  capacity : c.locals.capacity = c.options.limits.symbols
  apart : ∀ {name l}, c.locals.get? name = some l → c.isString name = false
  nodup : c.constants.Nodup
  labels : ∀ name ∈ c.constants, isReserved name = false ∧ name ∉ c.functions

/-- The tables of a state make up a frame. -/
theorem Sound.within {c : Compiler} (h : c.Sound) :
    c.Within ⟨c.constants, c.locals.names⟩ where
  constants hstring := isString_iff.mp hstring
  locals hl := by
    refine ⟨fun hconstant => ?_, h.dense.slot_eq hl⟩
    have hapart := h.apart hl
    rw [isString_iff.mpr hconstant] at hapart
    cases hapart

/-- Tables stay in order when a name that is no constant is entered as a variable. -/
theorem Sound.declared {c : Compiler} (h : c.Sound) {name : String} {locals : Locals}
    (hname : c.isString name = false) (hgrows : c.locals.Grows name locals) :
    Sound { c with locals := locals } where
  dense := hgrows.dense h.dense
  capacity := hgrows.capacity.trans h.capacity
  apart hl := by
    rcases hgrows.adds hl with rfl | hsome
    · exact hname
    · obtain ⟨l, hl⟩ := Option.isSome_iff_exists.mp hsome
      exact h.apart hl
  nodup := h.nodup
  labels := h.labels

/-- A state stays sound while its table grows by names that are no constants. -/
theorem Sound.followed {c : Compiler} (h : c.Sound) {name : String} {locals : Locals}
    (hname : c.isString name = false) (hfollows : c.locals.Follows name locals) :
    Sound { c with locals := locals } := by
  rcases hfollows with rfl | hgrows
  · exact h
  · exact h.declared hname hgrows

/-- A state stays sound when a variable changes its type. -/
theorem Sound.retyped {c : Compiler} (h : c.Sound) (name : String) (type : CType) :
    Sound { c with locals := (c.locals.retype name type).1 } := by
  rcases Locals.retype_cases c.locals name type with ⟨l, hl, hfound⟩ | ⟨-, hsame⟩
  · exact h.declared (h.apart hl) (Locals.grows_retype hfound)
  · rwa [hsame]

/-- Tables stay in order when the variables of a function are removed. -/
theorem Sound.cleared {c : Compiler} (h : c.Sound) :
    Sound { c with locals := c.locals.clear } where
  dense := ⟨rfl, Nat.zero_le _⟩
  capacity := h.capacity
  apart hl := by cases hl
  nodup := h.nodup
  labels := h.labels

/-- Tables stay in order when a constant is defined under a free name. -/
theorem Sound.defined {c : Compiler} (h : c.Sound) {name : String} (content : String)
    (hreserved : isReserved name = false) (hfunction : name ∉ c.functions)
    (hlocal : c.locals.get? name = none) (hstring : c.isString name = false) :
    Sound { c with strings := c.strings ++ [(name, content)] } where
  dense := h.dense
  capacity := h.capacity
  apart {other l} hl := by
    have hother : other ≠ name := by
      rintro rfl
      rw [hlocal] at hl
      cases hl
    have hapart := h.apart hl
    simp only [isString, List.any_append, List.any_cons, List.any_nil, Bool.or_false,
      Bool.or_eq_false_iff, beq_eq_false_iff_ne] at hapart ⊢
    exact ⟨hapart, Ne.symm hother⟩
  nodup := by
    have hfresh : name ∉ c.constants := by
      rw [← isString_iff, hstring]
      exact Bool.false_ne_true
    have hnodup := h.nodup
    rw [constants] at hfresh hnodup
    simp only [constants, List.map_append, List.map_cons, List.map_nil]
    exact List.nodup_append.mpr ⟨hnodup, by simp, by rintro a ha b hb rfl; simp_all⟩
  labels other hother := by
    simp only [constants, List.map_append, List.mem_append, List.map_cons, List.map_nil,
      List.mem_singleton] at hother
    rcases hother with hother | rfl
    · exact h.labels other hother
    · exact ⟨hreserved, hfunction⟩

end Compiler

end Ia32.C
