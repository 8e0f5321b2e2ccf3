import Mathlib
import Ia32.C.Program

/-!
# Means of the compiler

An action of the compiler passes tokens, makes remarks and changes the tables. `Means` says which
of this an action may do. A `Step` is one such change by some means, and a state `Evolves` by steps.
What is true of a state as long as only some means are used is shown for a step, and from there for
any number of them.
-/

namespace Ia32.C

/-! ### What may be done -/

/-- Tokens that neither end a statement nor open a block. -/
def TokenKind.isPlain : TokenKind → Bool
  | .lbrace | .rbrace | .semicolon => false
  | _ => true

/-- Plain kinds of tokens that actions ask for. -/
class TokenKind.Asked (kind : TokenKind) : Prop where
  plain : kind.isPlain = true

namespace TokenKind

instance {name : String} : Asked (.ident name) := ⟨rfl⟩

instance {value : Nat} : Asked (.number value) := ⟨rfl⟩

instance : Asked .plus := ⟨rfl⟩

instance : Asked .comma := ⟨rfl⟩

instance : Asked .star := ⟨rfl⟩

instance : Asked .assign := ⟨rfl⟩

instance : Asked .lparen := ⟨rfl⟩

instance : Asked .rparen := ⟨rfl⟩

instance : Asked .notEqual := ⟨rfl⟩

instance : Asked .less := ⟨rfl⟩

instance : Asked .kwSyscall := ⟨rfl⟩

instance : Asked .kwInt := ⟨rfl⟩

instance : Asked .kwVoid := ⟨rfl⟩

instance : Asked .kwMain := ⟨rfl⟩

end TokenKind

/-- The means by which actions change the state of the compiler. -/
structure Means where
  /-- The tokens that are passed. -/
  passes : TokenKind → Bool := fun _ => true
  /-- Whether an action may stop, with a complaint about the syntax. -/
  stops : Bool := true
  /-- Whether variables are given types. -/
  types : Bool := true
  /-- Whether string constants are defined. -/
  defines : Bool := true
  /-- Whether complaints about the syntax are reported, and the rest of what is broken skipped. -/
  recovers : Bool := true
  /-- Whether the variables of a function are removed. -/
  clears : Bool := true
  /-- Whether string constants may be mistaken for variables. -/
  mistakes : Bool := true

namespace Means

/-- All means. -/
def all : Means := {}

/-- All means, without mistaking string constants for variables. -/
def orderly : Means :=
  { mistakes := false }

/-- What is done inside a function. -/
def inside : Means :=
  { clears := false, mistakes := false }

/-- The same means, but for the definition of string constants. -/
def fixing (means : Means) : Means :=
  { means with defines := false }

/-- What is done without reading or stopping. -/
def silent : Means :=
  { passes := fun _ => false, stops := false, recovers := false }

/-- What is done while plain tokens are read. -/
def plain : Means :=
  { passes := TokenKind.isPlain, recovers := false, clears := false }

/-- What is done without declaring variables. -/
def untyped : Means :=
  { types := false, recovers := false, clears := false }

/-- Tokens of a kind may be asked for. -/
class Asks (means : Means) (kind : TokenKind) : Prop where
  stops : means.stops = true
  passes : means.passes kind = true

/-- Plain tokens may be read. -/
class Reads (means : Means) : Prop where
  stops : means.stops = true
  plain : ∀ {kind : TokenKind}, kind.isPlain = true → means.passes kind = true

/-- All tokens may be passed. -/
class Moves (means : Means) : Prop extends Reads means where
  moves : ∀ kind, means.passes kind = true

/-- Variables may be given types. -/
class Types (means : Means) : Prop where
  types : means.types = true

/-- String constants may be defined. -/
class Defines (means : Means) : Prop where
  defines : means.defines = true

/-- Everything that is done inside functions may be done. -/
class Compiles (means : Means) : Prop extends Moves means, Types means, Defines means where
  recovers : means.recovers = true

/-- The variables of a function may be removed. -/
class Clears (means : Means) : Prop where
  clears : means.clears = true

/-- String constants may be mistaken for variables. -/
class Mistakes (means : Means) : Prop where
  mistakes : means.mistakes = true

variable {means : Means} {kind : TokenKind}

instance [h : Reads means] : Reads means.fixing :=
  ⟨h.stops, h.plain⟩

instance [Reads means] [h : kind.Asked] : Asks means kind :=
  ⟨Reads.stops, Reads.plain h.plain⟩

instance [Moves means] : Asks means kind :=
  ⟨Reads.stops, Moves.moves kind⟩

instance : Compiles all :=
  { stops := rfl, plain := fun _ => rfl, moves := fun _ => rfl, types := rfl, defines := rfl,
    recovers := rfl }

instance : Compiles orderly :=
  { stops := rfl, plain := fun _ => rfl, moves := fun _ => rfl, types := rfl, defines := rfl,
    recovers := rfl }

instance : Compiles inside :=
  { stops := rfl, plain := fun _ => rfl, moves := fun _ => rfl, types := rfl, defines := rfl,
    recovers := rfl }

instance : Clears all := ⟨rfl⟩

instance : Clears orderly := ⟨rfl⟩

instance : Mistakes all := ⟨rfl⟩

instance : Clears silent := ⟨rfl⟩

instance : Types silent := ⟨rfl⟩

instance : Defines silent := ⟨rfl⟩

instance : Mistakes silent := ⟨rfl⟩

instance : Reads plain := ⟨rfl, id⟩

instance : Types plain := ⟨rfl⟩

instance : Mistakes plain := ⟨rfl⟩

instance : Moves untyped :=
  { stops := rfl, plain := fun _ => rfl, moves := fun _ => rfl }

instance : Defines untyped := ⟨rfl⟩

instance : Mistakes untyped := ⟨rfl⟩

-- shortcuts, which keep the search for instances small
instance : Reads all := inferInstance

instance : Moves all := inferInstance

instance : Asks all kind := inferInstance

end Means

/-! ### How a state evolves -/

namespace Compiler

/-- What is done to the state of the compiler at a time, by some means. -/
inductive Step (means : Means) (c : Compiler) : Compiler → Prop
  | passed (hpasses : means.passes c.cursor.kind = true) :
      Step means c { c with cursor := c.cursor.next }
  | complained (line : Nat) (complaint : Complaint) :
      Step means c { c with cursor := c.cursor.report ⟨.semantic, line, complaint.message⟩ }
  | reported (hrecovers : means.recovers = true) {d : Diagnostic} (hd : d.severity = .syntactic) :
      Step means c { c with cursor := c.cursor.report d }
  | skipped (hrecovers : means.recovers = true) :
      Step means c { c with cursor := c.cursor.synchronize }
  | counted (functions : List String) (ifCount whileCount : Nat) :
      Step means c { c with defined := functions, ifCount := ifCount, whileCount := whileCount }
  | used {name : String} (hname : c.isString name = false ∨ means.mistakes = true) :
      Step means c { c with locals := (c.locals.getOrDeclare name).1 }
  | declared (htypes : means.types = true) {name : String} (hname : c.isString name = false)
      (type : CType) :
      Step means c { c with locals := (c.locals.declare name type).1 }
  | retyped (htypes : means.types = true) (name : String) (type : CType) :
      Step means c { c with locals := (c.locals.retype name type).1 }
  | defined (hdefines : means.defines = true) {name : String} (content : String)
      (hreserved : isReserved name = false) (hfunction : name ∉ c.functions)
      (hlocal : c.locals.get? name = none) (hstring : c.isString name = false) :
      Step means c { c with strings := c.strings ++ [(name, content)] }
  | cleared (hclears : means.clears = true) :
      Step means c { c with locals := c.locals.clear }

/-- How the compiler gets from one state to another by some means. -/
abbrev Evolves (means : Means) (c c' : Compiler) : Prop :=
  Relation.ReflTransGen (Step means) c c'

variable {means : Means} {c c' : Compiler}

theorem Step.strings (h : c.Step means c') (hfixed : means.defines = false) :
    c'.strings = c.strings := by
  cases h with
  | defined hdefines => exact absurd (hdefines.symm.trans hfixed) (by decide)
  | _ => rfl

theorem Evolves.strings (h : c.Evolves means c') (hfixed : means.defines = false) :
    c'.strings = c.strings := by
  induction h with
  | refl => rfl
  | tail _ hstep ih => exact (hstep.strings hfixed).trans ih

theorem Step.of_fixing (h : c.Step means.fixing c') : c.Step means c' := by
  cases h with
  | passed hpasses => exact .passed hpasses
  | complained line complaint => exact .complained line complaint
  | reported hrecovers hd => exact @reported means c hrecovers _ hd
  | skipped hrecovers => exact .skipped hrecovers
  | counted functions ifCount whileCount => exact .counted functions ifCount whileCount
  | used hname => exact .used hname
  | declared htypes hname type => exact @declared means c htypes _ hname type
  | retyped htypes name type => exact @retyped means c htypes name type
  | defined hdefines => cases hdefines
  | cleared hclears => exact .cleared hclears

/-- What can be done without defining constants can be done. -/
theorem Evolves.of_fixing (h : c.Evolves means.fixing c') : c.Evolves means c' :=
  Relation.ReflTransGen.mono (fun _ _ => Step.of_fixing) _ _ h

end Compiler

end Ia32.C
