import Ia32.Proofs.C.Remarks

/-!
# Declarations in force

What a name means at a place of the source is said by a declaration in front of it: one of
the same function, or one of a string constant in a function before. The tables of the
compiler model these declarations. Only declarations give types to variables: everything
else that is read keeps the types of the variables, and the variables that it enters are
all of type `int`.
-/

namespace Ia32.C

/-! ### Scopes -/

/-- The declaration of a variable or of a string constant. -/
structure Declaration where
  name : String
  type : CType
  isConstant : Bool
  deriving DecidableEq, Repr

/-- What a statement declares. -/
def Simple.declaration? : Simple → Option Declaration
  | .declare type name | .declareWith type name _ => some ⟨name, type, false⟩
  | .constant type name _ => some ⟨name, type, true⟩
  | _ => none

/-- What statements declare, in order. -/
def declarations (statements : List Simple) : List Declaration :=
  statements.filterMap Simple.declaration?

theorem declarations_append (a b : List Simple) :
    declarations (a ++ b) = declarations a ++ declarations b :=
  List.filterMap_append

/-- In a scope without two declarations of a name, one declaration governs each name. -/
theorem filter_name_eq {scope : List Declaration} (hdistinct : (scope.map Declaration.name).Nodup)
    {d : Declaration} (hd : d ∈ scope) : scope.filter (·.name = d.name) = [d] := by
  induction scope with
  | nil => cases hd
  | cons first rest ih =>
      obtain ⟨hfirst, hrest⟩ := List.nodup_cons.mp hdistinct
      rcases List.mem_cons.mp hd with rfl | hd
      · have hnone : rest.filter (·.name = d.name) = [] := by
          refine List.filter_eq_nil_iff.mpr fun other hother heq => hfirst ?_
          exact of_decide_eq_true heq ▸ List.mem_map_of_mem hother
        rw [List.filter_cons_of_pos (by simp), hnone]
      · have hne : first.name ≠ d.name := fun heq => hfirst (heq ▸ List.mem_map_of_mem hd)
        rw [List.filter_cons_of_neg (by simpa using hne), ih hrest hd]

/-! ### Types of variables -/

namespace Locals

/-- The type of the variable with a name. -/
def typeOf (locals : Locals) (name : String) : Option CType :=
  (locals.get? name).map Local.type

theorem typeOf_eq_none_iff {locals : Locals} {name : String} :
    locals.typeOf name = none ↔ locals.get? name = none :=
  Option.map_eq_none_iff

/-- Only a name without a variable is declared. -/
theorem typeOf_declare {locals : Locals} {name : String} {type : CType} {l : Local}
    (h : (locals.declare name type).2 = .ok l) : locals.typeOf name = none ∧
      (locals.declare name type).1.typeOf =
        Function.update locals.typeOf name (some type) := by
  unfold declare at h ⊢
  split
  case h_1 previous hsome =>
    rw [hsome] at h
    cases h
  case h_2 hnone =>
    rw [hnone] at h
    split
    next hroom =>
      rw [if_pos hroom] at h
      cases h
    next =>
      refine ⟨typeOf_eq_none_iff.mpr hnone, funext fun other => ?_⟩
      unfold get? at hnone
      by_cases hother : other = name
      · subst hother
        simp [typeOf, get?, List.lookup_append, hnone]
      · simp [typeOf, get?, List.lookup_append, List.lookup_cons,
          beq_eq_false_iff_ne.mpr hother, hother]

/-- A variable that is missing is declared as an `int`. -/
theorem typeOf_getOrDeclare (locals : Locals) (name other : String) :
    (locals.getOrDeclare name).1.typeOf other = locals.typeOf other ∨
      locals.typeOf other = none ∧ (locals.getOrDeclare name).1.typeOf other = some .int := by
  rcases getOrDeclare_cases locals name with ⟨l, -, hsame⟩ | ⟨-, -, hsame⟩ |
    ⟨l, hname, hdeclare, hsame⟩
  · exact .inl (by rw [hsame])
  · exact .inl (by rw [hsame])
  · obtain ⟨hnone, htypes⟩ := typeOf_declare hdeclare
    rw [hsame]
    by_cases hother : other = name
    · subst hother
      exact .inr ⟨hnone, by rw [htypes, Function.update_self]⟩
    · exact .inl (by rw [htypes, Function.update_of_ne hother])

/-- A change of type changes the type of one name. -/
theorem typeOf_retype {locals : Locals} {name : String} {type : CType} {l : Local}
    (h : (locals.retype name type).2 = some l) :
    (locals.retype name type).1.typeOf = Function.update locals.typeOf name (some type) := by
  have hlookup (other : String) : (locals.retype name type).1.get? other =
      (locals.get? other).map fun l => if other = name then { l with type := type } else l :=
    lookup_retypeIn name other type locals.entries
  funext other
  by_cases hother : other = name
  · subst hother
    obtain ⟨l', hl', -⟩ := Option.map_eq_some_iff.mp ((hlookup other).symm.trans h)
    simp [typeOf, hlookup, hl']
  · simp [typeOf, hlookup, hother]

end Locals

namespace Compiler

/-- Between two states all variables keep their types, and new ones are of type `int`. -/
def KeepsTypes (c c' : Compiler) : Prop :=
  ∀ name, c'.locals.typeOf name = c.locals.typeOf name ∨
    c.locals.typeOf name = none ∧ c'.locals.typeOf name = some .int

variable {c c' c'' : Compiler}

theorem KeepsTypes.of_locals_eq (h : c'.locals = c.locals) : c.KeepsTypes c' :=
  fun name => .inl (by rw [h])

theorem KeepsTypes.refl (c : Compiler) : c.KeepsTypes c :=
  .of_locals_eq rfl

/-- Types that are kept twice are kept. -/
theorem KeepsTypes.trans (h : c.KeepsTypes c') (h' : c'.KeepsTypes c'') : c.KeepsTypes c'' := by
  intro name
  rcases h' name with hsame' | ⟨hnone', hint'⟩
  · rw [hsame']
    exact h name
  · rcases h name with hsame | ⟨-, hint⟩
    · exact .inr ⟨hsame.symm.trans hnone', hint'⟩
    · rw [hint] at hnone'
      cases hnone'

/-- A variable that is there has the same type afterwards. -/
theorem KeepsTypes.kept (h : c.KeepsTypes c') {name : String} {type : CType}
    (htype : c.locals.typeOf name = some type) : c'.locals.typeOf name = some type := by
  rcases h name with hsame | ⟨hnone, -⟩
  · exact hsame.trans htype
  · rw [htype] at hnone
    cases hnone

/-- A name without a type had none before. -/
theorem KeepsTypes.fresh (h : c.KeepsTypes c') {name : String}
    (hnone : c'.locals.typeOf name = none) : c.locals.typeOf name = none := by
  cases htype : c.locals.typeOf name with
  | none => rfl
  | some type =>
      rw [h.kept htype] at hnone
      cases hnone

/-- A pointer was there before, with the same type. -/
theorem KeepsTypes.pointer (h : c.KeepsTypes c') {name : String} {type : CType}
    (htype : c'.locals.typeOf name = some type) (hpointer : type.isPointer = true) :
    c.locals.typeOf name = some type := by
  rcases h name with hsame | ⟨-, hint⟩
  · exact hsame.symm.trans htype
  · obtain rfl := Option.some.inj (hint.symm.trans htype)
    cases hpointer

end Compiler

/-! ### Actions that declare nothing -/

variable {α : Type}

/-- Actions that give no variable a type, other than `int` to those that they find missing. -/
abbrev Untyped (act : CompileM α) : Prop :=
  Acts .untyped act

theorem Compiler.KeepsTypes.of_step {c c' : Compiler} (h : c.Step .untyped c') :
    c.KeepsTypes c' := by
  cases h with
  | @used name => exact fun other => Locals.typeOf_getOrDeclare c.locals name other
  | declared htypes | retyped htypes => cases htypes
  | cleared hclears => cases hclears
  | _ => exact .of_locals_eq rfl

theorem Compiler.KeepsTypes.of_evolves {c c' : Compiler} (h : c.Evolves .untyped c') :
    c.KeepsTypes c' := by
  induction h with
  | refl => exact .refl c
  | tail _ hstep ih => exact ih.trans (.of_step hstep)

/-- An untyped action keeps all types. -/
theorem Run.keepsTypes {act : CompileM α} [hact : Untyped act] {c c' : Compiler} {a : α}
    (h : Run act c a c') : c.KeepsTypes c' :=
  .of_evolves ((hact.here c).ok h.eq)

/-! ### What the compiler knows about a scope -/

/-- The strings of what is read are added to the constants. -/
theorem Reads.constants_eq {p : Piece} {c c' : Compiler} (h : Reads p c c') :
    c'.constants = c.constants ++ p.constants.map Prod.fst := by
  simp only [Compiler.constants, h.strings, List.map_append]

namespace Compiler

/-- The tables of the compiler know what is declared in a scope. Variables that are in no
declaration are no pointers. -/
structure Models (c : Compiler) (scope : List Declaration) : Prop where
  sound : c.Sound
  distinct : (scope.map Declaration.name).Nodup
  constants : ∀ {name}, name ∈ c.constants ↔ ∃ type, ⟨name, type, true⟩ ∈ scope
  isChar : ∀ {name type}, ⟨name, type, true⟩ ∈ scope → type.isChar = true
  typed : ∀ {name type}, ⟨name, type, false⟩ ∈ scope → c.locals.typeOf name = some type
  pointers : ∀ {name type}, c.locals.typeOf name = some type → type.isPointer = true →
    ⟨name, type, false⟩ ∈ scope

namespace Models

variable {c c1 c' : Compiler} {p : Piece} {scope : List Declaration} {name content : String}
  {type : CType}

/-- A name without a type that is no constant has not been declared. -/
theorem not_mem_names (h : c.Models scope) (htype : c.locals.typeOf name = none)
    (hconstant : name ∉ c.constants) : name ∉ scope.map Declaration.name := by
  intro hmem
  obtain ⟨⟨_, type, isConstant⟩, hd, rfl⟩ := List.mem_map.mp hmem
  cases isConstant with
  | false =>
      rw [h.typed hd] at htype
      cases htype
  | true => exact hconstant (h.constants.mpr ⟨type, hd⟩)

/-- A declaration of a new name keeps the names distinct. -/
theorem distinct_append (h : c.Models scope) {d : Declaration}
    (hname : d.name ∉ scope.map Declaration.name) :
    ((scope ++ [d]).map Declaration.name).Nodup := by
  rw [List.map_append]
  exact List.nodup_append.mpr ⟨h.distinct, List.nodup_singleton _, fun a ha b hb heq =>
    hname (List.mem_singleton.mp hb ▸ heq ▸ ha)⟩

/-- The name of a variable is no constant. -/
theorem not_mem_constants (hsound : c.Sound) (htype : c.locals.typeOf name = some type) :
    name ∉ c.constants := by
  obtain ⟨l, hl, -⟩ := Option.map_eq_some_iff.mp htype
  rw [← isString_iff, hsound.apart hl]
  exact Bool.false_ne_true

/-- A stretch of source that declares nothing. -/
theorem untyped (h : c.Models scope) (hreads : Reads p c c') (hconstants : p.constants = [])
    (hkeeps : c.KeepsTypes c') : c'.Models scope where
  sound := hreads.sound h.sound
  distinct := h.distinct
  constants := by
    rw [hreads.constants_eq, hconstants, List.map_nil, List.append_nil]
    exact h.constants
  isChar := h.isChar
  typed hd := hkeeps.kept (h.typed hd)
  pointers htype hpointer := h.pointers (hkeeps.pointer htype hpointer) hpointer

/-- A stretch of source that declares a variable at its end. What is read before may have
entered the name as an `int`. -/
theorem declared (h : c.Models scope) (hreads : Reads p c c') (hconstants : p.constants = [])
    (hfresh : c.locals.typeOf name = none) (hkeeps : c.KeepsTypes c1)
    (htypes : c'.locals.typeOf = Function.update c1.locals.typeOf name (some type)) :
    c'.Models (scope ++ [⟨name, type, false⟩]) where
  sound := hreads.sound h.sound
  distinct := by
    have htype : c'.locals.typeOf name = some type := by rw [htypes, Function.update_self]
    have hconstant := not_mem_constants (hreads.sound h.sound) htype
    rw [hreads.constants_eq, hconstants, List.map_nil, List.append_nil] at hconstant
    exact h.distinct_append (h.not_mem_names hfresh hconstant)
  constants {other} := by
    rw [hreads.constants_eq, hconstants, List.map_nil, List.append_nil, h.constants]
    simp
  isChar hd := h.isChar (by simpa using hd)
  typed {other type'} hd := by
    rw [htypes]
    rcases List.mem_append.mp hd with hold | hnew
    · have hother : other ≠ name := by
        rintro rfl
        rw [h.typed hold] at hfresh
        cases hfresh
      rw [Function.update_of_ne hother]
      exact hkeeps.kept (h.typed hold)
    · cases List.mem_singleton.mp hnew
      exact Function.update_self ..
  pointers {other type'} htype hpointer := by
    rw [htypes] at htype
    by_cases hother : other = name
    · subst hother
      rw [Function.update_self] at htype
      cases htype
      simp
    · rw [Function.update_of_ne hother] at htype
      exact List.mem_append_left _ (h.pointers (hkeeps.pointer htype hpointer) hpointer)

/-- A stretch of source that declares a string constant. -/
theorem defined (h : c.Models scope) (hreads : Reads p c c')
    (hconstants : p.constants = [(name, content)]) (hkeeps : c.KeepsTypes c')
    (hchar : type.isChar = true) : c'.Models (scope ++ [⟨name, type, true⟩]) where
  sound := hreads.sound h.sound
  distinct := by
    have hsound := hreads.sound h.sound
    have hnames : c'.constants = c.constants ++ [name] := by
      rw [hreads.constants_eq, hconstants]
      rfl
    refine h.distinct_append (h.not_mem_names ?_ fun hmem => ?_)
    · cases htype : c.locals.typeOf name with
      | none => rfl
      | some type' =>
          have hmem : name ∈ c'.constants := by simp [hnames]
          exact absurd hmem (not_mem_constants hsound (hkeeps.kept htype))
    · have hnodup := hsound.nodup
      rw [hnames, List.nodup_append] at hnodup
      exact hnodup.2.2 name hmem name (List.mem_singleton.mpr rfl) rfl
  constants {other} := by
    rw [hreads.constants_eq, hconstants, List.map_singleton, List.mem_append, h.constants]
    simp [exists_or]
  isChar hd := by
    rcases List.mem_append.mp hd with hold | hnew
    · exact h.isChar hold
    · cases List.mem_singleton.mp hnew
      exact hchar
  typed hd := hkeeps.kept (h.typed (by simpa using hd))
  pointers htype hpointer :=
    List.mem_append_left _ (h.pointers (hkeeps.pointer htype hpointer) hpointer)

/-- A function starts with the string constants of those before it. -/
theorem started (h : c.Models scope) (hsound : c'.Sound) (hconstants : c'.constants = c.constants)
    (defined : List String) :
    Models { c' with defined := defined, locals := c'.locals.clear }
      (scope.filter (·.isConstant)) where
  sound := ⟨⟨rfl, Nat.zero_le _⟩, hsound.capacity, fun hl => (by cases hl), hsound.nodup,
    hsound.labels⟩
  distinct := h.distinct.sublist (List.filter_sublist.map _)
  constants {name} := by
    change name ∈ c'.constants ↔ _
    rw [hconstants, h.constants]
    simp
  isChar hd := h.isChar (List.mem_filter.mp hd).1
  typed hd := by simp at hd
  pointers htype := by cases htype

end Models

/-- A program starts without declarations. -/
theorem models_ofScan (scan : Scan) (options : Options) (functions : List String) :
    (ofScan scan options functions).Models [] where
  sound := sound_ofScan scan options functions
  distinct := List.nodup_nil
  constants := by simp [ofScan, constants]
  isChar hd := by cases hd
  typed hd := by cases hd
  pointers htype := by cases htype

end Compiler

end Ia32.C
