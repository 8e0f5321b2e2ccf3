import Ia32.Asm.Assembler
import Ia32.Proofs.Outcome

/-!
# What the first pass computes

The first pass walks over the lines with the current section. Its sizes and
section lengths depend on the lines alone: `extents` and `lengthIn` say what they
are, and a pass that succeeds adds exactly these to its state. A pass can only
fail by exceeding a capacity.
-/

namespace Ia32.Asm

/-- Whether a fatal condition is an exhausted capacity. -/
def Error.isCapacity : Error → Bool
  | .labelTableFull _ | .codeOverflow _ | .dataOverflow _ => true
  | _ => false

/-- The capacity for a section. -/
def Limits.room (limits : Limits) : Section → Nat
  | .text => limits.code
  | .data => limits.data

namespace Assembler

/-- Bytes that a line emits in a section, if it emits anything. -/
def extent? (sect : Section) (line : Line) : Option Nat :=
  match measure sect line with
  | .ok size => size
  | .error _ => none

/-- The extents of lines, the first of which starts in a section. -/
def extents : Section → List Line → List (Option Nat)
  | _, [] => []
  | sect, line :: rest => extent? sect line :: extents (nextSection sect line) rest

/-- Bytes that lines emit into a target section. -/
def lengthIn (target : Section) : Section → List Line → Nat
  | _, [] => 0
  | sect, line :: rest =>
      (if sect = target then (extent? sect line).getD 0 else 0) +
        lengthIn target (nextSection sect line) rest

/-- The section behind lines. -/
def sectionAfter (sect : Section) (lines : List Line) : Section :=
  lines.foldl nextSection sect

/-- Lines behind others add their lengths, in the section they find there. -/
theorem lengthIn_append (target sect : Section) (first second : List Line) :
    lengthIn target sect (first ++ second) =
      lengthIn target sect first + lengthIn target (sectionAfter sect first) second := by
  induction first generalizing sect with
  | nil => simp [lengthIn, sectionAfter]
  | cons line rest ih =>
      simp only [List.cons_append, lengthIn, ih, Nat.add_assoc]
      rfl

/-- The labels that lines define, when the sections start with given lengths. -/
def definitions : (Section → Nat) → Section → List Line → List (String × Label)
  | _, _, [] => []
  | lengths, sect, line :: rest =>
      (line.label.map fun name => (name, ⟨sect, lengths sect, line.number⟩)).toList ++
        definitions (fun target => lengths target + lengthIn target sect [line])
          (nextSection sect line) rest

/-- Enters definitions into a table, of which the first for each name counts. -/
def enter (entries : List (String × Label)) : List (String × Label) → List (String × Label)
  | [] => entries
  | (name, label) :: rest =>
      match entries.lookup name with
      | some _ => enter entries rest
      | none => enter (entries ++ [(name, label)]) rest

/-- The fatal condition that a section has become too long. -/
def overflow (length : Nat) : Section → Error
  | .text => .codeOverflow length
  | .data => .dataOverflow length

/-- The state behind bytes that extend a section. -/
def lengthen (a : Assembler) (size : Nat) (sect : Section) : Assembler :=
  { a with
    codeLength := a.codeLength + if sect = .text then size else 0
    dataLength := a.dataLength + if sect = .data then size else 0 }

/-- Whether everything laid out so far is within the capacities. -/
structure WithinLimits (a : Assembler) : Prop where
  code : a.codeLength ≤ a.config.limits.code
  data : a.dataLength ≤ a.config.limits.data
  labels : a.labels.entries.length ≤ a.config.limits.labels
  capacity : a.labels.capacity = a.config.limits.labels

/-- The first pass went over lines: what it added to the state. -/
structure LaidOut (sect : Section) (lines : List Line) (a a' : Assembler) : Prop where
  config : a'.config = a.config
  sizes : a'.sizes.toList = a.sizes.toList ++ extents sect lines
  lengthOf : ∀ target, a'.lengthOf target = a.lengthOf target + lengthIn target sect lines
  labels : a'.labels.entries = enter a.labels.entries (definitions a.lengthOf sect lines)
  withinLimits : a.WithinLimits → a'.WithinLimits

/-! ### One line -/

/-- What defining the label of a line does: there is none, its name is free and there is room
for it, or its name is defined already, which is remarked. -/
inductive DefinesLabel (sect : Section) (line : Line) (a : Assembler) : Assembler → Prop
  | unlabelled (hlabel : line.label = none) : DefinesLabel sect line a a
  | free {name : String} (hlabel : line.label = some name) (hfree : a.labels.get? name = none)
      (hroom : a.labels.entries.length < a.labels.capacity) :
      DefinesLabel sect line a { a with labels := { a.labels with
        entries := a.labels.entries ++ [(name, ⟨sect, a.lengthOf sect, line.number⟩)] } }
  | again {name : String} (hlabel : line.label = some name) {previous : Label}
      (hfound : a.labels.get? name = some previous) :
      DefinesLabel sect line a (a.report (redefined name line.number previous))

/-- A label is entered if it is new, and remarked on if it is not; a line without one changes
nothing. -/
theorem defineLabel_eq_ok {sect : Section} {line : Line} {a a' : Assembler}
    (h : defineLabel sect line a = .ok () a') : DefinesLabel sect line a a' := by
  unfold defineLabel at h
  cases hlabel : line.label with
  | none =>
      rw [hlabel] at h
      cases h
      exact .unlabelled hlabel
  | some name =>
      rw [hlabel] at h
      simp only [Labels.define] at h
      obtain ⟨a₁, a₂, hget, h⟩ := action_bind_eq_ok.mp h
      cases hget
      cases hfound : a.labels.get? name with
      | some previous =>
          rw [hfound] at h
          cases h
          exact .again hlabel hfound
      | none =>
          rw [hfound] at h
          by_cases hfull : a.labels.capacity ≤ a.labels.entries.length
          · simp only [if_pos hfull] at h
            cases h
          · simp only [if_neg hfull] at h
            cases h
            exact .free hlabel hfound (Nat.lt_of_not_le hfull)

/-- Defining a label enters it into the table, which stays within its capacity. -/
theorem DefinesLabel.exists_labels {sect : Section} {line : Line} {a a' : Assembler}
    (h : DefinesLabel sect line a a') :
    ∃ labels remarks, a' = { a with labels := labels, diagnostics := remarks } ∧
      labels.entries = enter a.labels.entries
        (line.label.map fun name => (name, ⟨sect, a.lengthOf sect, line.number⟩)).toList ∧
      labels.capacity = a.labels.capacity ∧
      (a.labels.entries.length ≤ a.labels.capacity → labels.entries.length ≤ labels.capacity) := by
  cases h with
  | unlabelled hlabel =>
      rw [hlabel]
      exact ⟨_, _, rfl, rfl, rfl, id⟩
  | @free name hlabel hfree hroom =>
      have hlookup : a.labels.entries.lookup name = none := hfree
      refine ⟨_, _, rfl, ?_, rfl, fun _ => ?_⟩
      · simp only [hlabel, Option.map_some, Option.toList_some, enter, hlookup]
      · rw [List.length_append]
        exact hroom
  | @again name hlabel previous hfound =>
      have hlookup : a.labels.entries.lookup name = some previous := hfound
      refine ⟨_, _, rfl, ?_, rfl, id⟩
      simp only [hlabel, Option.map_some, Option.toList_some, enter, hlookup]

/-- Only a full table of labels stops the layout at a label. -/
theorem defineLabel_eq_error {sect : Section} {line : Line} {a a' : Assembler} {e : Error}
    (h : defineLabel sect line a = .error e a') : e.isCapacity := by
  unfold defineLabel at h
  cases hlabel : line.label with
  | none =>
      rw [hlabel] at h
      cases h
  | some name =>
      rw [hlabel] at h
      rcases action_bind_eq_error.mp h with hget | ⟨a₁, a₂, hget, h⟩
      · cases hget
      cases hget
      simp only [Labels.define] at h
      cases hfound : a.labels.get? name with
      | some previous =>
          rw [hfound] at h
          cases h
      | none =>
          rw [hfound] at h
          by_cases hfull : a.labels.capacity ≤ a.labels.entries.length
          · simp only [if_pos hfull] at h
            cases h
            rfl
          · simp only [if_neg hfull] at h
            cases h

theorem extend_eq (sect : Section) (size : Nat) (a : Assembler) :
    extend sect size a =
      if a.config.limits.room sect < a.lengthOf sect + size then
        .error (overflow (a.lengthOf sect + size) sect) a
      else .ok () (a.lengthen size sect) := by
  unfold extend
  rw [get_bind]
  cases sect with
  | text => exact (apply_ite (fun action : LayoutM Unit => action a) _ _ _).trans rfl
  | data => exact (apply_ite (fun action : LayoutM Unit => action a) _ _ _).trans rfl

/-- A section is extended exactly when there is room for the bytes. -/
theorem extend_eq_ok {sect : Section} {size : Nat} {a a' : Assembler} :
    extend sect size a = .ok () a' ↔
      a.lengthOf sect + size ≤ a.config.limits.room sect ∧ a' = a.lengthen size sect := by
  rw [extend_eq, ← Nat.not_lt]
  by_cases hfull : a.config.limits.room sect < a.lengthOf sect + size
  · simp [hfull]
  · simp [hfull, eq_comm]

theorem lengthOf_lengthen (a : Assembler) (size : Nat) (sect target : Section) :
    (a.lengthen size sect).lengthOf target =
      a.lengthOf target + if sect = target then size else 0 := by
  cases target <;> rfl

theorem lengthOf_lengthen_le {a : Assembler} {size : Nat} {sect target : Section}
    (hroom : a.lengthOf sect + size ≤ a.config.limits.room sect)
    (htarget : a.lengthOf target ≤ a.config.limits.room target) :
    (a.lengthen size sect).lengthOf target ≤ a.config.limits.room target := by
  rw [lengthOf_lengthen]
  split
  next hsect => exact hsect ▸ hroom
  next => exact htarget

/-- A section that does not grow has come to its limit. -/
theorem extend_eq_error {sect : Section} {size : Nat} {a a' : Assembler} {e : Error}
    (h : extend sect size a = .error e a') : e.isCapacity := by
  rw [extend_eq] at h
  split at h
  · cases h
    cases sect <;> rfl
  · cases h

theorem lengthIn_singleton (target sect : Section) (line : Line) :
    lengthIn target sect [line] = if sect = target then (extent? sect line).getD 0 else 0 := rfl

/-- What laying out a line does behind its label: it has no place, which is remarked, it takes no
bytes, or it extends its section, where there is room for it. -/
inductive ExtendsSection (sect : Section) (line : Line) (a : Assembler) : Assembler → Prop
  | misfit {complaint : String} (hmeasure : measure sect line = .error complaint) :
      ExtendsSection sect line a { a.report ⟨.semantic, line.number, complaint⟩ with
        sizes := a.sizes.push none }
  | silent (hmeasure : measure sect line = .ok none) :
      ExtendsSection sect line a { a with sizes := a.sizes.push none }
  | longer {size : Nat} (hmeasure : measure sect line = .ok (some size))
      (hroom : a.lengthOf sect + size ≤ a.config.limits.room sect) :
      ExtendsSection sect line a { a.lengthen size sect with
        sizes := a.sizes.push (some size) }

/-- Laying out a line defines its label and then extends its section. -/
theorem layoutLine_eq_ok {sect : Section} {line : Line} {a a' : Assembler}
    (h : layoutLine sect line a = .ok () a') :
    ∃ b, DefinesLabel sect line a b ∧ ExtendsSection sect line b a' := by
  unfold layoutLine at h
  obtain ⟨_, b, hdefine, h⟩ := action_bind_eq_ok.mp h
  refine ⟨b, defineLabel_eq_ok hdefine, ?_⟩
  cases hmeasure : measure sect line with
  | error complaint =>
      rw [hmeasure] at h
      cases h
      exact .misfit hmeasure
  | ok size? =>
      rw [hmeasure] at h
      cases size? with
      | none =>
          cases h
          exact .silent hmeasure
      | some size =>
          obtain ⟨_, c, hextend, h⟩ := action_bind_eq_ok.mp h
          obtain ⟨hroom, rfl⟩ := extend_eq_ok.mp hextend
          cases h
          exact .longer hmeasure hroom

/-- A line is laid out with its label in front of its contents. -/
theorem layoutLine_laidOut {sect : Section} {line : Line} {a a' : Assembler}
    (h : layoutLine sect line a = .ok () a') : LaidOut sect [line] a a' := by
  obtain ⟨b, hdefines, hextends⟩ := layoutLine_eq_ok h
  obtain ⟨labels, remarks, rfl, hentries, hcapacity, hroom⟩ := hdefines.exists_labels
  have hlabels : labels.entries = enter a.labels.entries (definitions a.lengthOf sect [line]) := by
    simpa only [definitions, List.append_nil] using hentries
  have hwithin : a.WithinLimits →
      labels.entries.length ≤ a.config.limits.labels ∧
        labels.capacity = a.config.limits.labels := by
    intro hlimits
    have hcap : labels.capacity = a.config.limits.labels := hcapacity.trans hlimits.capacity
    have := hroom (hlimits.capacity ▸ hlimits.labels)
    exact ⟨hcap ▸ this, hcap⟩
  -- a line without an extent adds nothing to the sections
  have hempty : ∀ remarks', extent? sect line = none →
      LaidOut sect [line] a { a with
        labels := labels, diagnostics := remarks', sizes := a.sizes.push none } := by
    intro remarks' hextent
    refine ⟨rfl, ?_, ?_, hlabels, ?_⟩
    · simp only [Array.toList_push, extents, hextent]
    · intro target
      rw [lengthIn_singleton, hextent]
      cases target <;> simp [lengthOf]
    · intro hlimits
      exact ⟨hlimits.code, hlimits.data, (hwithin hlimits).1, (hwithin hlimits).2⟩
  cases hextends with
  | misfit hmeasure => exact hempty _ (by simp only [extent?, hmeasure])
  | silent hmeasure => exact hempty _ (by simp only [extent?, hmeasure])
  | @longer size hmeasure hlimit =>
      have hextent : extent? sect line = some size := by simp only [extent?, hmeasure]
      refine ⟨rfl, ?_, fun target => ?_, hlabels, fun hlimits => ?_⟩
      · simp only [Array.toList_push, extents, hextent]
      · rw [lengthIn_singleton, hextent]
        exact lengthOf_lengthen a size sect target
      · have hcode := @lengthOf_lengthen_le a size sect .text hlimit hlimits.code
        have hdata := @lengthOf_lengthen_le a size sect .data hlimit hlimits.data
        exact ⟨hcode, hdata, (hwithin hlimits).1, (hwithin hlimits).2⟩

/-- Only want of room keeps a line from being laid out. -/
theorem layoutLine_eq_error {sect : Section} {line : Line} {a a' : Assembler} {e : Error}
    (h : layoutLine sect line a = .error e a') : e.isCapacity := by
  unfold layoutLine at h
  rcases action_bind_eq_error.mp h with hdefine | ⟨_, b, -, h⟩
  · exact defineLabel_eq_error hdefine
  cases hmeasure : measure sect line with
  | error complaint =>
      rw [hmeasure] at h
      cases h
  | ok size? =>
      rw [hmeasure] at h
      cases size? with
      | none => cases h
      | some size =>
          rcases action_bind_eq_error.mp h with hextend | ⟨_, c, -, h⟩
          · exact extend_eq_error hextend
          · cases h

/-! ### All lines -/

theorem enter_append (entries first second : List (String × Label)) :
    enter entries (first ++ second) = enter (enter entries first) second := by
  induction first generalizing entries with
  | nil => rfl
  | cons d rest ih =>
      obtain ⟨name, label⟩ := d
      simp only [List.cons_append, enter]
      split
      · exact ih _
      · exact ih _

/-- A pass over lines adds their extents, their lengths and their labels. -/
theorem layoutLines_eq_ok {sect : Section} {lines : List Line} {a a' : Assembler}
    (h : layoutLines sect lines a = .ok () a') : LaidOut sect lines a a' := by
  induction lines generalizing sect a with
  | nil =>
      cases h
      exact ⟨rfl, by simp [extents], fun _ => by simp [lengthIn], rfl, id⟩
  | cons line rest ih =>
      unfold layoutLines at h
      obtain ⟨_, b, hline, h⟩ := action_bind_eq_ok.mp h
      have hfirst := layoutLine_laidOut hline
      have hrest := ih h
      refine ⟨hrest.config.trans hfirst.config, ?_, ?_, ?_,
        hrest.withinLimits ∘ hfirst.withinLimits⟩
      · rw [hrest.sizes, hfirst.sizes, List.append_assoc]
        rfl
      · intro target
        rw [hrest.lengthOf, hfirst.lengthOf, Nat.add_assoc]
        rfl
      · have hlengths : b.lengthOf = fun target =>
          a.lengthOf target + lengthIn target sect [line] :=
          funext hfirst.lengthOf
        rw [hrest.labels, hfirst.labels, hlengths, ← enter_append]
        simp only [definitions, List.append_nil]

theorem layoutLines_eq_error {sect : Section} {lines : List Line} {a a' : Assembler} {e : Error}
    (h : layoutLines sect lines a = .error e a') : e.isCapacity := by
  induction lines generalizing sect a with
  | nil => cases h
  | cons line rest ih =>
      unfold layoutLines at h
      rcases action_bind_eq_error.mp h with hline | ⟨_, b, -, h⟩
      · exact layoutLine_eq_error hline
      · exact ih h

/-- The first pass starts the sizes and lengths anew and keeps the labels. -/
theorem layout_eq_ok {lines : List Line} {a a' : Assembler} (h : layout lines a = .ok () a') :
    LaidOut .text lines { a with sizes := #[], codeLength := 0, dataLength := 0 } a' :=
  layoutLines_eq_ok h

/-- It leaves a size for each line. -/
theorem sizes_of_layout {lines : List Line} {a a' : Assembler} (h : layout lines a = .ok () a') :
    a'.sizes.toList = extents .text lines := by
  simpa using (layout_eq_ok h).sizes

/-- Sections are as long as what their lines take. -/
theorem lengthOf_of_layout {lines : List Line} {a a' : Assembler} (h : layout lines a = .ok () a')
    (target : Section) : a'.lengthOf target = lengthIn target .text lines := by
  rw [(layout_eq_ok h).lengthOf]
  cases target <;> exact Nat.zero_add _

theorem layout_eq_error {lines : List Line} {a a' : Assembler} {e : Error}
    (h : layout lines a = .error e a') : e.isCapacity :=
  layoutLines_eq_error h

end Assembler

end Ia32.Asm
