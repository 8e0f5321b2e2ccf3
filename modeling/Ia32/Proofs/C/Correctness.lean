import Ia32.Proofs.C.Calls

/-!
# Compiled programs do what the interpreter says

By induction on the depth to which the interpreter looks, every stretch of statements leads
where the interpreter does, through branches, loops and calls. So a program that the
interpreter ends, ends on the machine with the same status and the same output.
-/

namespace Ia32.C

open Asm Assembler

section

variable {p : Program} {lines : List Line} {asm : Assembly} {target : String → UInt32}
variable {textBase dataBase : UInt32} {mem : Memory} {m m' : Machine} {r : Routine}
variable {room fuel : Nat} {vars : Vars} {output : Bytes} {rest rest' : List Item} {name : String}
variable {functions : List String} {world : World} {result : Except Int Vars × Bytes}

/-! ### Tests and jumps -/

theorem Test.suits {comparison : TokenKind} {frame : Frame} {test : Test}
    (h : (test.piece comparison).Suits functions frame) :
    test.left.piece.Suits functions frame ∧ test.right.piece.Suits functions frame :=
  ⟨h.of_append.1.of_append.1.of_append.1.of_append.2, h.of_append.1.of_append.2⟩

/-- Both operands of a condition have values before what depends on them. -/
theorem Test.after_eval {α : Type} {constants : List String} {test : Test}
    {f : UInt32 × UInt32 → Effect α} {result : Except Int α × Bytes}
    (h : (test.eval world constants vars >>= f).after output = some result) :
    ∃ a b, test.left.eval world constants vars = some a ∧
      test.right.eval world constants vars = some b ∧ (f (a, b)).after output = some result := by
  obtain ⟨⟨a, b⟩, hvalues, hrun⟩ := Effect.after_ofOption_bind.mp h
  simp only [Option.bind_eq_bind, Option.bind_eq_some_iff, Option.pure_def, Option.some.injEq,
    Prod.mk.injEq] at hvalues
  obtain ⟨_, ha, _, hb, rfl, rfl⟩ := hvalues
  exact ⟨_, _, ha, hb, hrun⟩

/-- A test with its jump leads to the label or to the code behind. -/
theorem State.test (h : Loaded p lines asm target textBase dataBase mem) (hr : r ∈ p.routines)
    {test : Test} {comparison : TokenKind}
    (hsuits : (test.piece comparison).Suits functions r.frame)
    {op : Mnemonic} (hop : op = .jmp ∨ op = .je ∨ op = .jge)
    (hs : State p textBase mem r room vars output
      ((test.code r.frame).items ++ .instr ⟨op, [.label name]⟩ :: rest) m)
    (htarget : .label name :: rest' <:+ p.code.items) {a b : UInt32}
    (ha : test.left.eval ⟨p, dataBase⟩ r.constants vars = some a)
    (hb : test.right.eval ⟨p, dataBase⟩ r.constants vars = some b) :
    ∃ m', m.Reaches m' ∧ State p textBase mem r room vars output
      (if (Flags.sub a b).2.holds op then rest' else rest) m' ∧ Keeps r m m' := by
  obtain ⟨hleft, hright⟩ := Test.suits hsuits
  obtain ⟨m₁, hgoes₁, hflags⟩ := Test.goes h hr hs.alive hs.sees hleft hright ha hb hs.place
  obtain ⟨m₂, hgoes₂⟩ := h.branch (hs.alive.goes hgoes₁) hop hgoes₁.place htarget
  rw [hflags] at hgoes₂
  have hgoes := hgoes₁.trans (hgoes₂.mono (by simp))
  obtain ⟨hstate, hkeeps⟩ := hs.goes hgoes
  exact ⟨m₂, hgoes.reaches, hstate, hkeeps⟩

/-- A jump to a label of the code goes there, and keeps the state. -/
theorem State.jump (h : Loaded p lines asm target textBase dataBase mem)
    (hs : State p textBase mem r room vars output (.instr ⟨.jmp, [.label name]⟩ :: rest) m)
    (htarget : .label name :: rest' <:+ p.code.items) :
    ∃ m', m.Reaches m' ∧ State p textBase mem r room vars output rest' m' ∧ Keeps r m m' := by
  obtain ⟨m', hgoes⟩ := h.branch hs.alive (.inl rfl) hs.place htarget
  obtain ⟨hstate, hkeeps⟩ := hs.goes (hgoes.mono (by simp))
  exact ⟨m', hgoes.reaches, hstate, hkeeps⟩

/-- Labels take no step. -/
theorem State.skip (hs : State p textBase mem r room vars output (.label name :: rest) m) :
    State p textBase mem r room vars output rest m :=
  { hs with place := hs.place.skip }

theorem State.unskip (hs : State p textBase mem r room vars output rest m)
    (hsuffix : .label name :: rest <:+ p.code.items) :
    State p textBase mem r room vars output (.label name :: rest) m :=
  { hs with place := ⟨hsuffix, hs.place.eip.trans (addressOf_label p textBase name rest).symm⟩ }

/-! ### Statements -/

/-- Whether all statements lead where the interpreter does, as deep as it looks. -/
def Simulates (p : Program) (textBase dataBase : UInt32) (mem : Memory) (fuel : Nat) : Prop :=
  ∀ {r : Routine} {b : Body} {n k room : Nat} {vars : Vars} {output : Bytes} {rest : List Item}
    {m : Machine} {result : Except Int Vars × Bytes}, r ∈ p.routines →
    b.piece.Suits p.functions r.frame →
    State p textBase mem r room vars output ((b.code p.functions r.frame n k).items ++ rest) m →
    (b.run ⟨p, dataBase⟩ fuel r room vars).after output = some result →
    Leads p textBase mem r room rest m result

variable {n k : Nat} {tail : Body}

/-- A call and the statements behind it are simulated if everything is with less fuel. -/
theorem Simulates.call (h : Loaded p lines asm target textBase dataBase mem)
    (hall : ∀ r ∈ p.routines, r.function.body.piece.Suits p.functions r.frame)
    (ih : Simulates p textBase dataBase mem fuel) (hr : r ∈ p.routines) {arguments : List Expr}
    (hsuits : (Body.simple (.call name arguments) tail).piece.Suits p.functions r.frame)
    (hs : State p textBase mem r room vars output
      (((Body.simple (.call name arguments) tail).code p.functions r.frame n k).items ++ rest) m)
    (hrun : (Body.run ⟨p, dataBase⟩ (fuel + 1) r room vars
      (.simple (.call name arguments) tail)).after
      output = some result) :
    Leads p textBase mem r room rest m result := by
  obtain ⟨hcall, htail⟩ := hsuits.of_append
  have hdefined : p.functions.contains name = true := by
    simpa using hcall.of_append.2.calls _ List.mem_cons_self
  simp only [Body.run] at hrun
  obtain ⟨callee, hcallee, hrun⟩ := Effect.after_ofOption_bind.mp hrun
  obtain ⟨inner, hinner, hrun⟩ := Effect.after_ofOption_bind.mp hrun
  obtain ⟨hroom, henter⟩ := Option.ite_none_right_eq_some.mp hinner
  have hname : callee.function.name = name := by simpa using List.find?_some hcallee
  have hcallee : callee ∈ p.routines := List.mem_of_find?_eq_some hcallee
  have hat := hs.place
  simp only [Body.code, Simple.code, hdefined, if_true, Code.items_append, Code.items_instr,
    List.cons_append, List.nil_append] at hat
  rw [← hname] at hat
  have hs : State p textBase mem r room vars output (.instr ⟨.call, _⟩ :: _) m :=
    { hs with place := hat }
  -- the body of the callee is as deep as the rest, so the hypothesis holds for it too
  refine Follows.bind hrun (fun _ hbody => hs.call h hcallee hroom henter fun _ _ hinner =>
    ih hcallee (hall callee hcallee) hinner hbody) ?_
  intro _ mid m' hgoal hrest
  split at hgoal
  next hmain =>
    rw [if_pos hmain] at hrest
    cases hrest
    exact hgoal
  next hmain =>
    rw [if_neg hmain] at hrest
    exact (ih hr htail hgoal.1 hrest).mono fun _ _ _ hlast => ⟨hlast.1, hgoal.2.trans hlast.2⟩

theorem Simulates.ifThen (h : Loaded p lines asm target textBase dataBase mem)
    (ih : Simulates p textBase dataBase mem fuel) (hr : r ∈ p.routines) {test : Test} {inner : Body}
    (hsuits : (Body.ifThen test inner tail).piece.Suits p.functions r.frame)
    (hs : State p textBase mem r room vars output
      (((Body.ifThen test inner tail).code p.functions r.frame n k).items ++ rest) m)
    (hrun : (Body.run ⟨p, dataBase⟩ (fuel + 1) r room vars (.ifThen test inner tail)).after
      output = some result) :
    Leads p textBase mem r room rest m result := by
  obtain ⟨hsuits, htail⟩ := hsuits.of_append
  obtain ⟨htest, hinner⟩ := hsuits.of_append
  simp only [Body.run] at hrun
  obtain ⟨a, b, ha, hb, hrun⟩ := Test.after_eval hrun
  simp only [Body.code, Code.items_append, Code.items_instr, Code.items_label, List.append_assoc,
    List.cons_append, List.nil_append] at hs
  have helse := suffix_of_append (suffix_of_cons (suffix_of_append hs.place.suffix))
  obtain ⟨m₁, hreaches, hs₁, hkeeps⟩ := hs.test h hr htest.of_append.2 (by simp) helse ha hb
  rw [holds_je] at hs₁
  refine .of_reaches hreaches hkeeps ?_
  split at hrun
  next hne =>
    rw [if_neg (by simpa using hne)] at hs₁
    apply Leads.bind hrun
    · exact fun _ hbranch => (ih hr hinner.of_braced hs₁ hbranch).mono
        fun _ _ _ hlast => ⟨hlast.1.skip.skip, hlast.2⟩
    · exact fun _ _ _ => ih hr htail
  next heq =>
    rw [if_pos (by simpa using heq)] at hs₁
    exact ih hr htail hs₁.skip hrun

theorem Simulates.ifElse (h : Loaded p lines asm target textBase dataBase mem)
    (ih : Simulates p textBase dataBase mem fuel) (hr : r ∈ p.routines) {test : Test}
    {first second : Body}
    (hsuits : (Body.ifElse test first second tail).piece.Suits p.functions r.frame)
    (hs : State p textBase mem r room vars output
      (((Body.ifElse test first second tail).code p.functions r.frame n k).items ++ rest) m)
    (hrun : (Body.run ⟨p, dataBase⟩ (fuel + 1) r room vars (.ifElse test first second tail)).after
      output = some result) :
    Leads p textBase mem r room rest m result := by
  obtain ⟨hsuits, htail⟩ := hsuits.of_append
  obtain ⟨hsuits, hsecond⟩ := hsuits.of_append
  obtain ⟨htest, hfirst⟩ := hsuits.of_append.1.of_append
  simp only [Body.run] at hrun
  obtain ⟨a, b, ha, hb, hrun⟩ := Test.after_eval hrun
  simp only [Body.code, Code.items_append, Code.items_instr, Code.items_label, List.append_assoc,
    List.cons_append, List.nil_append] at hs
  have hjump := suffix_of_append (suffix_of_cons (suffix_of_append hs.place.suffix))
  have helse := suffix_of_cons hjump
  have hendif := suffix_of_append (suffix_of_cons helse)
  obtain ⟨m₁, hreaches, hs₁, hkeeps⟩ := hs.test h hr htest.of_append.2 (by simp) helse ha hb
  rw [holds_je] at hs₁
  refine .of_reaches hreaches hkeeps ?_
  apply Leads.bind hrun
  · intro _ hbranch
    split at hbranch
    next hne =>
      rw [if_neg (by simpa using hne)] at hs₁
      refine (ih hr hfirst.of_braced hs₁ hbranch).next fun _ _ m₂ hs₂ => ?_
      obtain ⟨m₃, hreaches₃, hs₃, hkeeps₃⟩ := hs₂.1.jump h hendif
      exact ⟨m₃, hreaches₃, hs₃, hs₂.2.trans hkeeps₃⟩
    next heq =>
      rw [if_pos (by simpa using heq)] at hs₁
      exact (ih hr hsecond.of_braced hs₁ hbranch).mono fun _ _ _ hlast => ⟨hlast.1.skip, hlast.2⟩
  · exact fun _ _ _ => ih hr htail

/-- So are a loop and the statements behind it; behind its block the loop itself is run with less
fuel. -/
theorem Simulates.loop (h : Loaded p lines asm target textBase dataBase mem)
    (ih : Simulates p textBase dataBase mem fuel) (hr : r ∈ p.routines) {test : Test} {inner : Body}
    (hsuits : (Body.loop test inner tail).piece.Suits p.functions r.frame)
    (hs : State p textBase mem r room vars output
      (((Body.loop test inner tail).code p.functions r.frame n k).items ++ rest) m)
    (hrun : (Body.run ⟨p, dataBase⟩ (fuel + 1) r room vars (.loop test inner tail)).after
      output = some result) :
    Leads p textBase mem r room rest m result := by
  have hwhole := hsuits
  obtain ⟨hsuits, htail⟩ := hsuits.of_append
  obtain ⟨htest, hinner⟩ := hsuits.of_append
  simp only [Body.run] at hrun
  obtain ⟨a, b, ha, hb, hrun⟩ := Test.after_eval hrun
  simp only [Body.code, Code.items_append, Code.items_instr, Code.items_label, List.append_assoc,
    List.cons_append, List.nil_append] at hs
  have hjump :=
    suffix_of_append (suffix_of_cons (suffix_of_append (suffix_of_cons hs.place.suffix)))
  have hend := suffix_of_cons hjump
  obtain ⟨m₁, hreaches, hs₁, hkeeps⟩ := hs.skip.test h hr htest.of_append.2 (by simp) hend ha hb
  rw [holds_jge] at hs₁
  refine .of_reaches hreaches hkeeps ?_
  split at hrun
  next hlt =>
    rw [if_neg (by simpa using hlt)] at hs₁
    apply Leads.bind hrun
    · intro _ hbody
      refine (ih hr hinner.of_braced hs₁ hbody).next fun _ _ m₂ hs₂ => ?_
      obtain ⟨m₃, hreaches₃, hs₃, hkeeps₃⟩ := hs₂.1.jump h hs.place.suffix
      exact ⟨m₃, hreaches₃, hs₃, hs₂.2.trans hkeeps₃⟩
    · -- the loop starts again in front of its label
      intro vars' mid m₂ hs₂ hrest
      have hagain := hs₂.unskip hs.place.suffix
      refine @ih r (.loop test inner tail) n k _ _ _ rest _ _ hr hwhole ?_ hrest
      simp only [Body.code, Code.items_append, Code.items_instr, Code.items_label,
        List.append_assoc, List.cons_append, List.nil_append]
      exact hagain
  next hge =>
    rw [if_pos (by simpa using hge)] at hs₁
    exact ih hr htail hs₁ hrun

/-- All statements lead where the interpreter does. -/
theorem simulates (h : Loaded p lines asm target textBase dataBase mem)
    (hall : ∀ r ∈ p.routines, r.function.body.piece.Suits p.functions r.frame) (fuel : Nat) :
    Simulates p textBase dataBase mem fuel := by
  -- on the depth and not on the statements: a call goes to other statements, a loop to itself
  induction fuel with
  | zero =>
      intro r b n k room vars output rest m result _ _ _ hrun
      simp [Body.run] at hrun
  | succ fuel ih =>
      intro r b n k room vars output rest m result hr hsuits hs hrun
      cases b with
      | done =>
          cases hrun
          exact ⟨m, .refl, hs, .refl _ _⟩
      | simple s tail =>
          by_cases hcall : ∃ name arguments, s = .call name arguments
          · obtain ⟨name, arguments, rfl⟩ := hcall
            exact Simulates.call h hall ih hr hsuits hs hrun
          · rw [Body.run_simple fun name arguments heq => hcall ⟨name, arguments, heq⟩] at hrun
            obtain ⟨hsimple, htail⟩ := hsuits.of_append
            simp only [Body.code, Code.items_append, List.append_assoc] at hs
            exact Leads.bind hrun (fun _ => Simple.leads h hr hsimple hs)
              fun _ _ _ => ih hr htail
      | block inner tail =>
          simp only [Body.run] at hrun
          obtain ⟨hinner, htail⟩ := hsuits.of_append
          simp only [Body.code, Code.items_append, List.append_assoc] at hs
          exact Leads.bind hrun (fun _ => ih hr hinner.of_braced hs) fun _ _ _ => ih hr htail
      | ifThen test inner tail => exact Simulates.ifThen h ih hr hsuits hs hrun
      | ifElse test first second tail => exact Simulates.ifElse h ih hr hsuits hs hrun
      | loop test inner tail => exact Simulates.loop h ih hr hsuits hs hrun

/-! ### Programs -/

/-- From its entry on, a program ends as the interpreter does. All words of the stack start
at zero. -/
theorem Ready.finishes (h : Loaded p lines asm target textBase dataBase mem)
    (hall : ∀ r ∈ p.routines, r.function.body.piece.Suits p.functions r.frame)
    (hm : Ready mem Machine.stackSize [] m) (hmemory : m.memory = mem)
    (heip : m.eip = target Abi.entryLabel) {status : Int}
    (hends : (World.mk p dataBase).Ends status output) : Finishes m status output := by
  obtain ⟨fuel, hrun⟩ := hends
  obtain ⟨r, hfound, hrun⟩ := Effect.after_ofOption_bind.mp hrun
  obtain ⟨inner, henter, hrun⟩ := Effect.after_ofOption_bind.mp hrun
  have hr : r ∈ p.routines := List.mem_of_find?_eq_some hfound
  have hname : r.function.name = "main" := by simpa using List.find?_some hfound
  obtain ⟨after, htail⟩ := Program.suffix_tail hr
  rw [hname] at htail
  have hat : At p textBase (r.tail p.functions ++ after) m :=
    ⟨suffix_of_cons htail, heip.trans (h.target_eq htail)⟩
  have hzero : ∀ name w, (fun _ => some 0 : Vars) name = some w → ∀ addr : UInt32,
      imageLimit ≤ addr.toNat → addr.toNat + 8 ≤ (m.get .esp).toNat → m.memory.wordAt addr = w := by
    intro _ w hw addr hlow hhigh
    cases hw
    have hlt := (m.get .esp).toNat_lt
    refine Memory.wordAt_eq_zero (by omega) fun a ha => ?_
    rw [hmemory]
    exact h.zero a (Nat.le_trans hlow ha)
  have hfollows : Follows m (fun (_ : Unit) _ _ => False) (.error status, output) := by
    refine Follows.bind hrun (fun _ hbody => Routine.follows h hm henter hzero hat fun _ _ hs =>
      simulates h hall fuel hr (hall r hr) hs hbody) ?_
    intro _ mid m' ⟨hat, hreturned⟩ hrest
    cases hrest
    exact hreturned.finishes h hm.alive hname hat
  exact hfollows

end

/-- Programs that call their own functions only do what the interpreter says. If it ends one
with a status and an output, so does the machine, within every number of steps that is large
enough. A program that stores through a pointer has no meaning for the interpreter. -/
theorem run_compile {source : String} {options : Options}
    (hsymbols : options.limits.symbols < 2 ^ 29)
    (hcompile : (compile source options).hasError = false)
    (hmain : "main" ∈ (compile source options).functions) {asm : Assembly}
    (hasm : assemble (compile source options).asm {} {} = .ok asm) :
    (∃ p : Program, p.tokens = (Scan.ofSource source).tokens.map Token.kind) ∧
      ∀ p : Program, p.tokens = (Scan.ofSource source).tokens.map Token.kind → p.Local →
        ∃ dataBase file m₀, asm.dataBase = .ok dataBase ∧ Image.ofAssembly asm = .ok file ∧
          Image.load file = .ok m₀ ∧
          ∀ status output, (World.mk p dataBase).Ends status output →
            ∃ bound, ∀ limit ≥ bound, ∃ outcome, (m₀.run limit).1 = .ok outcome ∧
              outcome.exitCode = status ∧ outcome.output = output := by
  obtain ⟨p, hp, -⟩ := exists_program_of_compile hcompile
  refine ⟨⟨p, hp⟩, fun p hp hlocal => ?_⟩
  obtain ⟨hlegal, -, lines, target, textBase, dataBase, -, hbuilt⟩ :=
    exists_built hsymbols hcompile hp hmain hlocal hasm
  obtain ⟨file, mem, hfile, hload, hloaded⟩ := hbuilt.exists_loaded hasm
    (exists_image_of_compile hsymbols hcompile hasm)
  refine ⟨dataBase, file, _, hbuilt.dataBase_eq, hfile, hload, fun status output hends => ?_⟩
  have hready : Ready (Machine.start mem (target Abi.entryLabel)).memory Machine.stackSize []
      (Machine.start mem (target Abi.entryLabel)) :=
    ⟨⟨.refl _ _ _, rfl⟩, rfl, rfl, Nat.le_refl _, rfl, rfl⟩
  obtain ⟨m, hreaches, hexit, houtput⟩ :=
    hready.finishes hloaded (fun r hr => hlegal.suits hlocal hr) rfl rfl hends
  obtain ⟨bound, hrun⟩ := hreaches.exists_run hexit rfl
  exact ⟨bound, fun limit hlimit => ⟨_, hrun limit hlimit, rfl, houtput⟩⟩

/-- A function that writes a letter, called before the entry function returns 2. -/
def letter : Program :=
  [⟨false, "f", .simple (.constant .charPointer "s" "a")
      (.simple (.trap ⟨Abi.sysWrite, [⟨.named "s", []⟩, ⟨.number 1, []⟩], by decide⟩) .done)⟩,
    ⟨true, "main", .simple (.call "f" []) (.simple (.exit (some ⟨.number 2, []⟩)) .done)⟩]

/-- The text of this program. -/
def letterText : String :=
  "void f()\x7bchar *s=\"a\";syscall(4,s,1);\x7dint main()\x7bf();return 2;\x7d"

theorem run_compile_letter :
    ∃ asm file m₀ bound, assemble (compile letterText {}).asm {} {} = .ok asm ∧
      Image.ofAssembly asm = .ok file ∧ Image.load file = .ok m₀ ∧
      ∀ limit ≥ bound, ∃ outcome, (m₀.run limit).1 = .ok outcome ∧ outcome.exitCode = 2 ∧
        outcome.output = [97] := by
  have hcompile : (compile letterText {}).hasError = false := by
    decide +kernel
  have hmain : "main" ∈ (compile letterText {}).functions := by
    decide +kernel
  have htokens : letter.tokens = (Scan.ofSource letterText).tokens.map Token.kind := by
    decide +kernel
  have hlocal : letter.Local := by
    unfold Program.Local
    decide
  have hends : (World.mk letter 0x402000).Ends 2 [97] :=
    ⟨5, by decide +kernel⟩
  have hbase : (assemble (compile letterText {}).asm {} {}).toOption.bind
      (fun asm => asm.dataBase.toOption) = some 0x402000 := by
    decide +kernel
  cases hasm : assemble (compile letterText {}).asm {} {} with
  | error e =>
      rw [hasm] at hbase
      cases hbase
  | ok asm =>
      obtain ⟨dataBase, file, m₀, hdata, hfile, hload, hrun⟩ :=
        (run_compile (by decide) hcompile hmain hasm).2 letter htokens hlocal
      rw [hasm, Except.toOption, Option.bind_some, hdata] at hbase
      obtain rfl : dataBase = 0x402000 := Option.some.inj hbase
      obtain ⟨bound, hbound⟩ := hrun 2 [97] hends
      exact ⟨asm, file, m₀, bound, rfl, hfile, hload, hbound⟩

end Ia32.C
