import Ia32.Proofs.Asm.TwoPass

/-!
# What counts of a line

A line counts with its number, its label, the section behind it, and its statement if it emits
anything. Lines that agree in these leave the same bytes, labels and entry, or the same fatal
condition; only remarks and the listing show the rest.
-/

namespace Ia32.Asm

/-- A program without its remarks and its listing. -/
def Assembly.bare (asm : Assembly) : Assembly :=
  { asm with diagnostics := [], listing := [] }

namespace Assembler

/-- Lines that agree in what counts, the first of which starts in a section. A last line without
label and section that emits nothing may be missing. -/
inductive Alike : Section → List Line → List Line → Prop
  | nil {sect : Section} : Alike sect [] []
  | gone {sect : Section} {line : Line} (hlabel : line.label = none)
      (hextent : extent? sect line = none) (hnext : nextSection sect line = sect) :
      Alike sect [line] []
  | cons {sect : Section} {line line' : Line} {rest rest' : List Line}
      (hnumber : line'.number = line.number) (hlabel : line'.label = line.label)
      (hextent : extent? sect line' = extent? sect line)
      (hnext : nextSection sect line' = nextSection sect line)
      (hstatement : extent? sect line ≠ none → line'.statement = line.statement)
      (hrest : Alike (nextSection sect line) rest rest') :
      Alike sect (line :: rest) (line' :: rest')

/-! ### First pass -/

/-- The state without remarks and sizes. -/
def strip (a : Assembler) : Assembler :=
  { a with diagnostics := [], sizes := #[] }

/-- What a pass leaves, without remarks and sizes. -/
def outcome : EStateM.Result Error Assembler Unit → Except Error Assembler
  | .ok () a => .ok a.strip
  | .error e _ => .error e

/-- Layouts that agree up to remarks and sizes differ in these only. -/
theorem exists_of_strip {a b : Assembler} (h : a.strip = b.strip) :
    ∃ remarks sizes, b = { a with diagnostics := remarks, sizes := sizes } := by
  obtain ⟨config, labels, remarks, sizes, code, data⟩ := b
  cases a
  simp only [strip, mk.injEq, true_and] at h
  obtain ⟨rfl, rfl, rfl, rfl⟩ := h
  exact ⟨remarks, sizes, rfl⟩

/-- Sequences have the same outcome if both of their parts have. -/
theorem outcome_bind {x y : LayoutM Unit} {f g : Unit → LayoutM Unit} {a b : Assembler}
    (h : outcome (x a) = outcome (y b))
    (hrest : ∀ u v, u.strip = v.strip → outcome (f () u) = outcome (g () v)) :
    outcome ((x >>= f) a) = outcome ((y >>= g) b) := by
  change outcome (EStateM.bind x f a) = outcome (EStateM.bind y g b)
  unfold EStateM.bind
  cases hx : x a <;> cases hy : y b <;> rw [hx, hy] at h
  case ok.ok _ u _ v => exact hrest u v (Except.ok.inj h)
  case error.error => exact h
  all_goals cases h

/-- A step that only adds remarks and sizes leaves what was there. -/
theorem outcome_bind_silent {x : LayoutM Unit} {f : Unit → LayoutM Unit}
    (hf : ∀ u, outcome (f () u) = .ok u.strip) (a : Assembler) :
    outcome ((x >>= f) a) = outcome (x a) := by
  change outcome (EStateM.bind x f a) = outcome (x a)
  unfold EStateM.bind
  cases x a with
  | ok result u => exact hf u
  | error e u => rfl

theorem outcome_defineLabel {sect : Section} {line line' : Line} {a b : Assembler}
    (hnumber : line'.number = line.number) (hlabel : line'.label = line.label)
    (h : a.strip = b.strip) :
    outcome (defineLabel sect line a) = outcome (defineLabel sect line' b) := by
  obtain ⟨remarks, sizes, rfl⟩ := exists_of_strip h
  unfold defineLabel
  rw [hlabel]
  cases line.label with
  | none => rfl
  | some name =>
      have hlength : lengthOf { a with diagnostics := remarks, sizes := sizes } sect =
          a.lengthOf sect := rfl
      dsimp only
      rw [get_bind, get_bind, hlength, hnumber]
      dsimp only
      cases a.labels.define name ⟨sect, a.lengthOf sect, line.number⟩ with
      | error e => rfl
      | ok result =>
          obtain ⟨labels, previous?⟩ := result
          cases previous? <;> rfl

theorem outcome_extend {sect : Section} {size : Nat} {a b : Assembler} (h : a.strip = b.strip) :
    outcome (extend sect size a) = outcome (extend sect size b) := by
  obtain ⟨remarks, sizes, rfl⟩ := exists_of_strip h
  have hlength : lengthOf { a with diagnostics := remarks, sizes := sizes } sect =
      a.lengthOf sect := rfl
  rw [extend_eq, extend_eq, hlength]
  by_cases hfull : a.config.limits.room sect < a.lengthOf sect + size
  · simp only [if_pos hfull]
    rfl
  · simp only [if_neg hfull]
    rfl

theorem outcome_layoutLine_eq (sect : Section) (line : Line) (a : Assembler) :
    outcome (layoutLine sect line a) = outcome ((defineLabel sect line >>= fun _ =>
      match extent? sect line with
      | none => pure ()
      | some size => extend sect size) a) := by
  unfold layoutLine extent?
  refine outcome_bind rfl fun u v huv => ?_
  cases measure sect line with
  | error complaint => exact congrArg Except.ok huv
  | ok size? =>
      cases size? with
      | none => exact congrArg Except.ok huv
      | some size => exact (outcome_bind_silent (fun w => rfl) u).trans (outcome_extend huv)

/-- Lines that agree in what counts are laid out alike. -/
theorem outcome_layoutLine {sect : Section} {line line' : Line} {a b : Assembler}
    (hnumber : line'.number = line.number) (hlabel : line'.label = line.label)
    (hextent : extent? sect line' = extent? sect line) (h : a.strip = b.strip) :
    outcome (layoutLine sect line a) = outcome (layoutLine sect line' b) := by
  rw [outcome_layoutLine_eq, outcome_layoutLine_eq, hextent]
  refine outcome_bind (outcome_defineLabel hnumber hlabel h) fun u v huv => ?_
  cases extent? sect line with
  | none => exact congrArg Except.ok huv
  | some size => exact outcome_extend huv

/-- Lines that are alike are laid out with the same outcome. -/
theorem outcome_layoutLines {sect : Section} {lines lines' : List Line}
    (halike : Alike sect lines lines') {a b : Assembler} (h : a.strip = b.strip) :
    outcome (layoutLines sect lines a) = outcome (layoutLines sect lines' b) := by
  induction halike generalizing a b with
  | nil => exact congrArg Except.ok h
  | @gone sect line hlabel hextent hnext =>
      -- the missing line could as well be an empty one
      have hline : outcome (layoutLine sect line a) =
          outcome (layoutLine sect ⟨line.number, "", none, none⟩ b) :=
        outcome_layoutLine rfl hlabel.symm hextent.symm h
      have hgone := outcome_bind (f := fun _ => pure ()) (g := fun _ => pure ()) hline
        fun u v huv => congrArg Except.ok huv
      exact hgone
  | cons hnumber hlabel hextent hnext hstatement hrest ih =>
      unfold layoutLines
      rw [hnext]
      exact outcome_bind (outcome_layoutLine hnumber hlabel hextent h) fun u v huv => ih huv

/-! ### Second pass -/

/-- An emission without its listing and its remarks. -/
def Emission.strip (e : Emission) : Emission :=
  { e with listing := #[], diagnostics := [] }

theorem Emission.exists_of_strip {e e' : Emission} (h : e.strip = e'.strip) :
    ∃ listing remarks, e' = { e with listing := listing, diagnostics := remarks } := by
  obtain ⟨sect, code, data, listing, library, remarks⟩ := e'
  cases e
  simp only [strip, mk.injEq, true_and, and_true] at h
  obtain ⟨rfl, rfl, rfl, rfl⟩ := h
  exact ⟨listing, remarks, rfl⟩

theorem map_bind_congr {α β γ : Type} {x : Except Error α} {f g : α → Except Error β}
    {view : β → γ} (h : ∀ a, (f a).map view = (g a).map view) :
    (x >>= f).map view = (x >>= g).map view := by
  cases x with
  | error e => rfl
  | ok a => exact h a

theorem map_bind_alike {α β γ δ : Type} {x y : Except Error α} {f g : α → Except Error β}
    {view : α → γ} {view' : β → δ} (h : x.map view = y.map view)
    (hrest : ∀ a b, x = .ok a → view a = view b → (f a).map view' = (g b).map view') :
    (x >>= f).map view' = (y >>= g).map view' := by
  cases x with
  | error e =>
      cases y with
      | error e' => cases h; rfl
      | ok b => cases h
  | ok a =>
      cases y with
      | error e' => cases h
      | ok b => exact hrest a b rfl (Except.ok.inj h)

theorem strip_emitBytes (scope : Scope) {e e' : Emission} (h : e.strip = e'.strip)
    (line line' : Line) (bytes : Bytes) :
    (emitBytes scope e line bytes).map Emission.strip =
      (emitBytes scope e' line' bytes).map Emission.strip := by
  obtain ⟨listing, remarks, rfl⟩ := Emission.exists_of_strip h
  unfold emitBytes
  cases e.sect <;> exact map_bind_congr fun addr => rfl

theorem strip_emitInstr (scope : Scope) {e e' : Emission} (h : e.strip = e'.strip)
    (line line' : Line) (i : Instr String) (size : Nat) :
    (emitInstr scope e line i size).map Emission.strip =
      (emitInstr scope e' line' i size).map Emission.strip := by
  obtain ⟨listing, remarks, rfl⟩ := Emission.exists_of_strip h
  unfold emitInstr
  refine map_bind_congr fun addr => map_bind_congr fun resolved => ?_
  dsimp only
  cases (i.resolve (addressIn resolved)).encode addr with
  | error cause => rfl
  | ok bytes =>
      dsimp only
      split <;> rfl

/-- A line without a size emits nothing. -/
theorem emitLine_none (scope : Scope) (e : Emission) (line : Line) :
    emitLine scope e line none = .ok { e with
      sect := nextSection e.sect line
      listing := e.listing.push ⟨line.number, none, [], line.source⟩ } := by
  unfold emitLine
  split
  next h => cases h
  next h => cases h
  next => rfl

/-- Lines that agree in what counts are emitted alike. -/
theorem strip_emitLine (scope : Scope) {e e' : Emission} (h : e.strip = e'.strip)
    {line line' : Line} (hextent : extent? e.sect line' = extent? e.sect line)
    (hnext : nextSection e.sect line' = nextSection e.sect line)
    (hstatement : extent? e.sect line ≠ none → line'.statement = line.statement) :
    (emitLine scope e line (extent? e.sect line)).map Emission.strip =
      (emitLine scope e' line' (extent? e.sect line')).map Emission.strip := by
  rw [hextent]
  cases hsize : extent? e.sect line with
  | none =>
      obtain ⟨listing, remarks, rfl⟩ := Emission.exists_of_strip h
      rw [emitLine_none, emitLine_none, hnext]
      rfl
  | some size =>
      have hsame := hstatement (by simp [hsize])
      cases hline : line.statement with
      | none => simp [extent?, measure, hline] at hsize
      | some statement =>
          rw [hline] at hsame
          cases statement with
          | select s => simp [extent?, measure, hline] at hsize
          | bytes b =>
              simp only [emitLine, hline, hsame]
              exact strip_emitBytes scope h line line' b
          | instr i =>
              simp only [emitLine, hline, hsame]
              exact strip_emitInstr scope h line line' i size

/-- Lines that are alike are emitted as the same bytes. -/
theorem strip_emitLines (scope : Scope) {sect : Section} {lines lines' : List Line}
    (halike : Alike sect lines lines') {e e' : Emission} (hsect : e.sect = sect)
    (h : e.strip = e'.strip) :
    (emitLines scope e (lines.zip (extents sect lines))).map Emission.strip =
      (emitLines scope e' (lines'.zip (extents sect lines'))).map Emission.strip := by
  induction halike generalizing e e' with
  | nil => exact congrArg Except.ok h
  | @gone sect line hlabel hextent hnext =>
      obtain ⟨listing, remarks, rfl⟩ := Emission.exists_of_strip h
      subst hsect
      simp only [extents, List.zip_cons_cons, List.zip_nil_right, hextent, emitLines,
        emitLine_none, ok_bind, hnext]
      rfl
  | @cons sect line line' rest rest' hnumber hlabel hextent hnext hstatement hrest ih =>
      subst hsect
      simp only [extents, List.zip_cons_cons, emitLines, hnext]
      exact map_bind_alike (strip_emitLine scope h hextent hnext hstatement)
        fun next next' hfirst hnext' => ih (emitLine_eq_ok hfirst).sect hnext'

theorem findEntry_fst (labels : Labels) (name : String) (n n' : Nat) :
    (findEntry labels name n).1 = (findEntry labels name n').1 := by
  unfold findEntry
  split <;> rfl

/-- After layouts that agree, lines that agree in what counts are emitted alike. -/
theorem bare_emit {a b : Assembler} (h : a.strip = b.strip) {lines lines' : List Line}
    (halike : Alike .text lines lines') (hsizes : a.sizes.toList = extents .text lines)
    (hsizes' : b.sizes.toList = extents .text lines') (externs : SymbolTable) :
    (a.emit lines externs).map Assembly.bare = (b.emit lines' externs).map Assembly.bare := by
  obtain ⟨remarks, sizes, rfl⟩ := exists_of_strip h
  unfold emit
  rw [hsizes, hsizes']
  refine map_bind_congr fun textBase => map_bind_congr fun dataBase => ?_
  refine map_bind_alike (strip_emitLines _ halike rfl rfl) fun e e' _ hstrip => ?_
  obtain ⟨listing, others, rfl⟩ := Emission.exists_of_strip hstrip
  dsimp only
  split
  · rfl
  · rw [findEntry_fst a.labels a.config.entry lines.length lines'.length]
    rfl

end Assembler

open Assembler

/-- Sources whose lines agree in what counts have the same program apart from remarks and the
listing, or the same fatal condition. -/
theorem bare_assemble {source source' : String} {lines lines' : List Line}
    {complaints complaints' : List Diagnostic}
    (hread : Line.readAll source = .ok (lines, complaints))
    (hread' : Line.readAll source' = .ok (lines', complaints'))
    (halike : Alike .text lines lines') (config : Config) (externs : SymbolTable) :
    (assemble source config externs).map Assembly.bare =
      (assemble source' config externs).map Assembly.bare := by
  have hlayout : outcome (layout lines { ofConfig config with diagnostics := complaints }) =
      outcome (layout lines' { ofConfig config with diagnostics := complaints' }) :=
    outcome_layoutLines halike rfl
  simp only [assemble, hread, hread', ofChecked, ok_bind]
  cases hfirst : layout lines { ofConfig config with diagnostics := complaints } with
  | error x a =>
      rw [hfirst] at hlayout
      cases hsecond : layout lines' { ofConfig config with diagnostics := complaints' } with
      | error x' b => rw [hsecond] at hlayout; cases hlayout; rfl
      | ok u b => rw [hsecond] at hlayout; cases hlayout
  | ok u a =>
      rw [hfirst] at hlayout
      cases hsecond : layout lines' { ofConfig config with diagnostics := complaints' } with
      | error x' b => rw [hsecond] at hlayout; cases hlayout
      | ok u' b =>
          rw [hsecond] at hlayout
          exact bare_emit (Except.ok.inj hlayout) halike (sizes_of_layout hfirst)
            (sizes_of_layout hsecond) externs

end Ia32.Asm
