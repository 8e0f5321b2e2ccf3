import Ia32.Proofs.Machine.Execution

/-!
# What a process writes

Only a system call writes. A step adds to what has been written before it, and a step that fails
adds nothing, so the output at the end of a run is the one behind its last instruction. No
effect of an instruction touches the step counter.
-/

namespace Ia32

namespace Exec

variable {α β : Type}

/-- The machine behind an action, whether or not it fails. -/
def behind : EStateM.Result Fault Machine α → Machine
  | .ok _ m | .error _ m => m

/-- Actions that write nothing and count nothing, whether or not they fail. -/
def Mute (x : Exec α) : Prop :=
  ∀ m, (behind (x m)).output = m.output ∧ (behind (x m)).steps = m.steps

/-- Whether some output has been added to, or kept by an action that fails. -/
def Grows (output : Array UInt8) : EStateM.Result Fault Machine α → Prop
  | .ok _ m => output.toList <+: m.output.toList
  | .error _ m => m.output = output

/-- Actions that add to the output when they succeed, write nothing when they fail, and count
nothing. -/
def Writing (x : Exec α) : Prop :=
  ∀ m, Grows m.output (x m) ∧ (behind (x m)).steps = m.steps

/-- A mute action writes nothing that could be kept. -/
theorem Mute.writing {x : Exec α} (h : Mute x) : Writing x := by
  intro m
  obtain ⟨houtput, hsteps⟩ := h m
  refine ⟨?_, hsteps⟩
  cases hx : x m with
  | ok a m' =>
      rw [hx] at houtput
      have hsame : m'.output = m.output := houtput
      exact hsame ▸ List.prefix_refl _
  | error fault m' =>
      rw [hx] at houtput
      exact houtput

/-- Mute actions one behind the other are mute. -/
theorem Mute.bind {x : Exec α} {f : α → Exec β} (hx : Mute x) (hf : ∀ a, Mute (f a)) :
    Mute (x >>= f) := by
  intro m
  change (behind (EStateM.bind x f m)).output = _ ∧ (behind (EStateM.bind x f m)).steps = _
  have hm := hx m
  unfold EStateM.bind
  cases hfirst : x m with
  | error fault t =>
      rw [hfirst] at hm
      exact hm
  | ok a t =>
      rw [hfirst] at hm
      exact ⟨(hf a t).1.trans hm.1, (hf a t).2.trans hm.2⟩

/-- What follows an action that writes must succeed and write nothing. -/
theorem Writing.bind_pure {x : Exec α} (hx : Writing x) (b : β) :
    Writing (x >>= fun _ => pure b) := by
  intro m
  change Grows m.output (EStateM.bind x (fun _ => pure b) m) ∧
    (behind (EStateM.bind x (fun _ => pure b) m)).steps = _
  have hm := hx m
  unfold EStateM.bind
  cases hfirst : x m with
  | error fault t =>
      rw [hfirst] at hm
      exact hm
  | ok a t =>
      rw [hfirst] at hm
      exact hm

theorem mute_pure (a : α) : Mute (pure a : Exec α) := fun _ => ⟨rfl, rfl⟩

theorem mute_throw (fault : Fault) : Mute (throw fault : Exec α) := fun _ => ⟨rfl, rfl⟩

theorem mute_get : Mute (get : Exec Machine) := fun _ => ⟨rfl, rfl⟩

theorem mute_getReg (r : Reg) : Mute (getReg r) := fun _ => ⟨rfl, rfl⟩

theorem mute_setReg (r : Reg) (value : UInt32) : Mute (setReg r value) := fun _ => ⟨rfl, rfl⟩

theorem mute_jump (addr : UInt32) : Mute (jump addr) := fun _ => ⟨rfl, rfl⟩

theorem mute_flags (flags : Flags) : Mute (modify fun m : Machine => { m with flags := flags }) :=
  fun _ => ⟨rfl, rfl⟩

theorem mute_load (addr : UInt32) : Mute (load addr) := by
  intro m
  rw [load_eq]
  cases m.memory.read32 addr <;> exact ⟨rfl, rfl⟩

theorem mute_store (addr value : UInt32) : Mute (store addr value) := by
  rintro ⟨regs, eip, flags, memory, output, exit, steps⟩
  unfold store
  dsimp only
  generalize memory.write32 addr value = written
  obtain ⟨memory', _ | _⟩ := written <;> exact ⟨rfl, rfl⟩

theorem mute_push (value : UInt32) : Mute (push value) :=
  (mute_getReg _).bind fun _ => (mute_store _ _).bind fun _ => mute_setReg _ _

theorem mute_pop : Mute pop :=
  (mute_getReg _).bind fun _ => (mute_load _).bind fun _ => (mute_setReg _ _).bind fun _ =>
    mute_pure _

theorem mute_pushRegs (rs : List Reg) : Mute (pushRegs rs) := by
  induction rs with
  | nil => exact mute_pure _
  | cons r rs ih => exact (mute_getReg _).bind fun _ => (mute_push _).bind fun _ => ih

theorem mute_popRegs (rs : List Reg) : Mute (popRegs rs) := by
  induction rs with
  | nil => exact mute_pure _
  | cons r rs ih => exact mute_pop.bind fun _ => (mute_setReg _ _).bind fun _ => ih

theorem mute_read (a : Operand UInt32) : Mute (read a) := by
  cases a with
  | reg r => exact mute_getReg r
  | mem place => exact mute_get.bind fun _ => mute_load _
  | imm v => exact mute_pure _
  | label addr => exact mute_pure _

theorem mute_write (fault : Fault) (place : Operand UInt32) (value : UInt32) :
    Mute (write fault place value) := by
  cases place with
  | reg r => exact mute_setReg r value
  | mem place => exact mute_get.bind fun _ => mute_store _ _
  | imm v => exact mute_throw _
  | label addr => exact mute_throw _

/-- A system call fails before it writes. -/
theorem writing_syscall : Writing syscall := by
  intro m
  rw [syscall_eq]
  split
  · exact ⟨List.prefix_refl _, rfl⟩
  split
  · split
    · exact ⟨rfl, rfl⟩
    next bytes hread =>
      rw [Grows, Machine.output_set, Array.toList_appendList]
      exact ⟨List.prefix_append _ _, rfl⟩
  split
  · exact ⟨List.prefix_refl _, rfl⟩
  · exact ⟨rfl, rfl⟩

/-- Only a system call writes, and only where it succeeds. -/
theorem writing_perform (addr : UInt32) (i : Instr UInt32) : Writing (perform addr i) := by
  unfold perform
  dsimp only
  split
  case h_6 =>
    split
    · exact writing_syscall
    · exact (mute_throw _).writing
  all_goals refine Mute.writing ?_
  case h_1 => exact (mute_read _).bind fun _ => mute_write _ _ _
  case h_2 =>
    exact (mute_read _).bind fun _ => (mute_read _).bind fun _ => (mute_flags _).bind fun _ =>
      mute_write _ _ _
  case h_3 =>
    exact (mute_read _).bind fun _ => (mute_read _).bind fun _ => (mute_flags _).bind fun _ =>
      mute_write _ _ _
  case h_4 => exact (mute_read _).bind fun _ => (mute_read _).bind fun _ => mute_flags _
  case h_5 =>
    exact (mute_read _).bind fun _ => mute_get.bind fun _ => (mute_push _).bind fun _ =>
      mute_jump _
  case h_7 => exact (mute_read _).bind fun _ => mute_push _
  case h_8 => exact mute_pop.bind fun _ => mute_write _ _ _
  case h_9 =>
    exact (mute_getReg _).bind fun _ => (mute_pushRegs _).bind fun _ => (mute_push _).bind fun _ =>
      mute_pushRegs _
  case h_10 =>
    exact (mute_popRegs _).bind fun _ => mute_pop.bind fun _ => mute_popRegs _
  case h_11 => exact mute_pop.bind fun _ => mute_jump _
  case h_12 =>
    split
    · refine mute_get.bind fun m => ?_
      split
      · exact (mute_read _).bind fun _ => mute_jump _
      · exact mute_pure _
    · exact mute_throw _
  case h_13 => exact mute_throw _

/-- A step adds to the output, or fails and writes nothing. -/
theorem grows_step (m : Machine) : Grows m.output (step m) := by
  rw [step_run]
  split
  · rfl
  split
  · rfl
  next i length hdecode =>
    exact ((writing_perform m.eip i).bind_pure (m.eip, i) (m.past length)).1

/-- A step counts one if an instruction has been decoded, even one that fails. -/
theorem steps_step (m : Machine) :
    (behind (step m)).steps = m.steps + 1 ∨
      (behind (step m) = m ∧ ∀ seen m', step m ≠ .ok seen m') := by
  rw [step_run]
  split
  · exact .inr ⟨rfl, fun _ _ => by simp⟩
  split
  · exact .inr ⟨rfl, fun _ _ => by simp⟩
  next i length hdecode =>
    exact .inl ((writing_perform m.eip i).bind_pure (m.eip, i) (m.past length)).2

end Exec

namespace Machine

/-! ### Runs under an observer -/

/-- The executed instructions of a run, each with its address and the machine behind it. -/
def trail : Nat → Machine → List (UInt32 × Instr UInt32 × Machine)
  | 0, _ => []
  | left + 1, m =>
      match m.exit with
      | some _ => []
      | none =>
          match Exec.step m with
          | .error _ _ => []
          | .ok (addr, i) m' => (addr, i, m') :: trail left m'

/-- An observer folds over the executed instructions, and has no part in the run. -/
theorem runSteps_eq_foldl {σ : Type} (observe : Observer σ) (limit left : Nat) (seen : σ)
    (m : Machine) :
    runSteps observe limit left seen m =
      ((runSteps (fun _ _ _ _ => ()) limit left () m).1,
        (m.trail left).foldl (fun seen e => observe seen e.1 e.2.1 e.2.2) seen,
        (runSteps (fun _ _ _ _ => ()) limit left () m).2.2) := by
  induction left generalizing seen m with
  | zero =>
      simp only [runSteps, trail]
      cases m.exit <;> rfl
  | succ left ih =>
      simp only [runSteps, trail]
      cases hexit : m.exit with
      | some status => rfl
      | none =>
          dsimp only
          cases hstep : Exec.step m with
          | error fault m' => rfl
          | ok seen' m' =>
              obtain ⟨addr, i⟩ := seen'
              exact ih _ _

/-- The output behind every executed instruction of a run. -/
def outputs (left : Nat) (m : Machine) : List Bytes :=
  (m.trail left).map fun e => e.2.2.output.toList

/-- Along a run the output grows, and the output in the end is the one behind the last
instruction. -/
theorem outputs_grow (limit left : Nat) (m : Machine) :
    (m.output.toList :: m.outputs left).IsChain (· <+: ·) ∧
      (m.output.toList :: m.outputs left).getLast (List.cons_ne_nil _ _) =
        (runSteps (fun _ _ _ _ => ()) limit left () m).2.2.output.toList := by
  induction left generalizing m with
  | zero =>
      refine ⟨.singleton _, ?_⟩
      simp only [runSteps]
      cases m.exit <;> rfl
  | succ left ih =>
      cases hexit : m.exit with
      | some status =>
          simp only [outputs, trail, runSteps, hexit]
          exact ⟨.singleton _, rfl⟩
      | none =>
          -- a step that succeeds adds to the output, one that fails keeps it
          have hwriting := Exec.grows_step m
          cases hstep : Exec.step m with
          | error fault m' =>
              rw [hstep] at hwriting
              simp only [outputs, trail, runSteps, hexit, hstep]
              exact ⟨.singleton _, congrArg Array.toList hwriting.symm⟩
          | ok seen m' =>
              obtain ⟨addr, i⟩ := seen
              rw [hstep] at hwriting
              obtain ⟨hchain, hlast⟩ := ih m'
              simp only [outputs, trail, runSteps, hexit, hstep]
              exact ⟨.cons_cons hwriting hchain, hlast⟩

end Machine

end Ia32
