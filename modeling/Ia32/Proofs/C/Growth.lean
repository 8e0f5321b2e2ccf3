import Ia32.Proofs.C.Compilation

/-!
# The tables of the compiler only grow

Whatever the compiler does inside a function, with or without errors, it enters variables into
the next free words and defines string constants under names that are free. A function starts
with no variables. The tables of the compiler are therefore in order wherever it stands in
whatever source.
-/

namespace Ia32.C

/-! ### How the tables evolve -/

namespace Compiler

/-- The state in which the body of a function is compiled. -/
def cleared (c : Compiler) : Compiler :=
  { c with locals := c.locals.clear }

variable {means : Means} {c c' : Compiler}

/-- A step leaves the options alone. -/
theorem Step.options (h : c.Step means c') : c'.options = c.options := by
  cases h <;> rfl

theorem Evolves.options (h : c.Evolves means c') : c'.options = c.options := by
  induction h with
  | refl => rfl
  | tail _ hstep ih => exact hstep.options.trans ih

/-- A step keeps the variables, enters one of them, or removes them all. -/
theorem Step.locals (h : c.Step means c') :
    c'.locals = c.locals ∨ (∃ name, Locals.Follows name c.locals c'.locals) ∨
      (means.clears = true ∧ c'.locals = c.locals.clear) := by
  cases h with
  | used => exact .inr (.inl ⟨_, Locals.follows_getOrDeclare _ _⟩)
  | declared _ _ type => exact .inr (.inl ⟨_, Locals.follows_declare _ _ type⟩)
  | retyped _ name type => exact .inr (.inl ⟨name, Locals.follows_retype _ name type⟩)
  | cleared hclears => exact .inr (.inr ⟨hclears, rfl⟩)
  | _ => exact .inl rfl

theorem Evolves.dense (h : c.Evolves means c') (hdense : c.locals.Dense) : c'.locals.Dense := by
  induction h with
  | refl => exact hdense
  | tail _ hstep ih =>
      rcases hstep.locals with hsame | ⟨_, hfollows⟩ | ⟨-, hclear⟩
      · rwa [hsame]
      · exact hfollows.dense ih
      · rw [hclear]
        exact ⟨rfl, Nat.zero_le _⟩

/-- Inside a function, no variable is ever taken out of the table. -/
theorem Evolves.size_le (h : c.Evolves means c') (hinside : means.clears = false) :
    c.locals.size ≤ c'.locals.size := by
  induction h with
  | refl => exact Nat.le_refl _
  | tail _ hstep ih =>
      rcases hstep.locals with hsame | ⟨_, hfollows⟩ | ⟨hclears, -⟩
      · rwa [hsame]
      · exact Nat.le_trans ih hfollows.size_le
      · exact absurd (hclears.symm.trans hinside) (by decide)

/-- The tables stay in order as long as no string constant is mistaken for a variable. -/
theorem Step.sound (h : c.Step means c') (horderly : means.mistakes = false) (hsound : c.Sound) :
    c'.Sound := by
  cases h with
  | used hname =>
      have hstring := hname.resolve_right fun h => absurd (h.symm.trans horderly) (by decide)
      exact hsound.followed hstring (Locals.follows_getOrDeclare _ _)
  | declared _ hname type => exact hsound.followed hname (Locals.follows_declare _ _ type)
  | retyped _ name type => exact hsound.retyped name type
  | defined _ content hreserved hfunction hlocal hstring =>
      exact hsound.defined content hreserved hfunction hlocal hstring
  | cleared => exact hsound.cleared
  | _ => exact ⟨hsound.dense, hsound.capacity, hsound.apart, hsound.nodup, hsound.labels⟩

theorem Evolves.sound (h : c.Evolves means c') (horderly : means.mistakes = false)
    (hsound : c.Sound) : c'.Sound := by
  induction h with
  | refl => exact hsound
  | tail _ hstep ih => exact hstep.sound horderly ih

end Compiler

/-! ### Functions -/

namespace CompileM

variable {c c' : Compiler}

/-- A function is a head and a body, whose variables make up the frame. -/
theorem function_eq_ok {code : Code} (h : function c = .ok code c') :
    ∃ name c1 body, functionHead c = .ok name c1 ∧ block c1.cleared = .ok body c' ∧
      code = functionCode name c'.locals.frameSize body := by
  obtain ⟨name, c1, hhead, h⟩ := action_bind_eq_ok.mp h
  obtain ⟨_, _, hclear, h⟩ := action_bind_eq_ok.mp h
  cases hclear
  obtain ⟨body, _, hbody, h⟩ := action_bind_eq_ok.mp h
  cases h
  exact ⟨name, c1, body, hhead, hbody, rfl⟩

end CompileM

/-- The states in which the compiler of a source text begins with a function, or with what is
left of one. -/
inductive Compiler.AtFunction (source : String) (options : Options) : Compiler → Prop
  | first : AtFunction source options (ofSource source options)
  | next {c c' : Compiler} {code : Code} (h : AtFunction source options c)
      (hturn : CompileM.functionTurn c = .ok code c') : AtFunction source options c'

theorem Compiler.AtFunction.sound {source : String} {options : Options} {c : Compiler}
    (h : c.AtFunction source options) : c.Sound ∧ c.options = options := by
  induction h with
  | first => exact ⟨sound_ofScan _ _ _, rfl⟩
  | @next c c' _ _ hturn ih =>
      have hevolves : c.Evolves .orderly c' := (Acts.here c).ok hturn
      exact ⟨hevolves.sound rfl ih.1, hevolves.options.trans ih.2⟩

end Ia32.C
