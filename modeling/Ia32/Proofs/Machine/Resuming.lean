import Ia32.Proofs.Machine.Fetching
import Ia32.Proofs.Machine.Output

/-!
# Runs taken up again

The limit of a run says when to stop, and nothing else. A run up to a higher limit is the run up
to a lower one, taken up again where that one has stopped at its limit. A run that ends or fails
has done so for every higher limit as well.
-/

namespace Ia32

namespace Exec

variable {m m' : Machine}

/-- No instruction fails because of a limit. -/
theorem step_ne_stepLimit {fault : Fault} (h : step m = .error fault m') (limit : Nat) :
    fault ≠ .stepLimit limit := by
  rintro rfl
  obtain h | ⟨_, h⟩ | (⟨_, h⟩ | ⟨_, h⟩) | ⟨_, _, h⟩ := step_eq_error h
  · exact h
  all_goals cases h

theorem steps_of_step {seen : UInt32 × Instr UInt32} (h : step m = .ok seen m') :
    m'.steps = m.steps + 1 := by
  have hstep := steps_step m
  rw [h] at hstep
  exact hstep.resolve_right fun hfailed => hfailed.2 seen m' rfl

end Exec

namespace Machine

variable {σ : Type}

/-- A run that has stopped at its limit goes on, and any other is over. -/
def resume (more : σ → Machine → Except Fault Outcome × σ × Machine) :
    Except Fault Outcome × σ × Machine → Except Fault Outcome × σ × Machine
  | (.error (.stepLimit _), seen, m) => more seen m
  | (result, seen, m) => (result, seen, m)

theorem resume_error {more : σ → Machine → Except Fault Outcome × σ × Machine} {fault : Fault}
    (h : ∀ limit, fault ≠ .stepLimit limit) (seen : σ) (m : Machine) :
    resume more (.error fault, seen, m) = (.error fault, seen, m) := by
  cases fault
  case stepLimit limit => exact absurd rfl (h limit)
  all_goals rfl

section

variable (observe : Observer σ) (limit : Nat)

/-- Further steps are the same whatever the limit is called. -/
theorem runSteps_add (higher left more : Nat) (seen : σ) (m : Machine) :
    runSteps observe higher (left + more) seen m =
      resume (runSteps observe higher more) (runSteps observe limit left seen m) := by
  induction left generalizing seen m with
  | zero =>
      rw [Nat.zero_add]
      cases hexit : m.exit with
      | some status =>
          rw [runSteps_of_exit hexit, runSteps_of_exit hexit]
          rfl
      | none =>
          rw [runSteps, hexit]
          rfl
  | succ left ih =>
      rw [Nat.succ_add]
      simp only [runSteps]
      cases hexit : m.exit with
      | some status => rfl
      | none =>
          dsimp only
          cases hstep : Exec.step m with
          | error fault m' => exact (resume_error (Exec.step_ne_stepLimit hstep) _ _).symm
          | ok first m' =>
              obtain ⟨addr, i⟩ := first
              exact ih _ _

/-- A run that stops at its limit has executed as many instructions as it might. -/
theorem runSteps_eq_stepLimit {left n : Nat} {seen seen' : σ} {m m' : Machine}
    (h : runSteps observe limit left seen m = (.error (.stepLimit n), seen', m')) :
    n = limit ∧ m'.steps = m.steps + left := by
  induction left generalizing seen m with
  | zero =>
      simp only [runSteps] at h
      cases hexit : m.exit with
      | some status =>
          rw [hexit] at h
          cases h
      | none =>
          rw [hexit] at h
          cases h
          exact ⟨rfl, rfl⟩
  | succ left ih =>
      simp only [runSteps] at h
      cases hexit : m.exit with
      | some status =>
          rw [hexit] at h
          cases h
      | none =>
          rw [hexit] at h
          dsimp only at h
          cases hstep : Exec.step m with
          | error fault m1 =>
              rw [hstep] at h
              cases h
              exact absurd rfl (Exec.step_ne_stepLimit hstep n)
          | ok first m1 =>
              obtain ⟨addr, i⟩ := first
              rw [hstep] at h
              obtain ⟨hn, hsteps⟩ := ih h
              have hfirst := Exec.steps_of_step hstep
              exact ⟨hn, by omega⟩

/-- A run up to a higher limit begins as one up to a lower limit. -/
theorem runWith_of_le {limit higher : Nat} (h : limit ≤ higher) (seen : σ) (m : Machine) :
    m.runWith observe seen higher =
      resume (runSteps observe higher ((higher - m.steps) - (limit - m.steps)))
        (m.runWith observe seen limit) := by
  rw [runWith, runWith, ← runSteps_add]
  congr 1
  omega

end

/-- The run of a process without an observer. -/
theorem run_eq_iff {limit : Nat} {m m' : Machine} {result : Except Fault Outcome} :
    m.run limit = (result, m') ↔
      m.runWith (fun seen _ _ _ => seen) () limit = (result, (), m') := by
  rw [run]
  generalize m.runWith (fun seen _ _ _ => seen) () limit = run
  obtain ⟨result', ⟨⟩, last⟩ := run
  simp only [Prod.mk.injEq, true_and]

/-- A run that is over ends in the same way for every higher limit. -/
theorem run_of_over {limit higher : Nat} (h : limit ≤ higher) {m m' : Machine}
    {result : Except Fault Outcome} (hrun : m.run limit = (result, m'))
    (hover : ∀ n, result ≠ .error (.stepLimit n)) : m.run higher = (result, m') := by
  rw [run_eq_iff] at hrun ⊢
  rw [runWith_of_le _ h, hrun]
  cases result with
  | ok outcome => rfl
  | error fault => exact resume_error (fun n heq => hover n (congrArg _ heq)) _ _

/-- A run that has stopped at its limit has counted up to it, and is taken up there. -/
theorem run_of_stopped {limit n higher : Nat} (h : limit ≤ higher) {m m' : Machine}
    (hsteps : m.steps ≤ limit) (hrun : m.run limit = (.error (.stepLimit n), m')) :
    m'.steps = limit ∧ m'.run higher = m.run higher := by
  rw [run_eq_iff] at hrun
  have hcounted : m'.steps = limit := by
    have := (runSteps_eq_stepLimit _ _ hrun).2
    omega
  refine ⟨hcounted, ?_⟩
  have hmore : m.runWith (fun seen _ _ _ => seen) () higher =
      m'.runWith (fun seen _ _ _ => seen) () higher := by
    rw [runWith_of_le _ h, hrun]
    change runSteps _ higher _ () m' = runSteps _ higher _ () m'
    congr 1
    omega
  rw [run, run, hmore]

/-- Runs are taken up where they have stopped, and their ends do not depend on the limit. A run
that ends, or fails for another reason than its limit, leaves the same machine for every higher
limit. A run that stops at its limit has counted up to it, unless the count was higher before,
and going on from there is the same as a run from the beginning. A process that has ended
executes nothing. -/
theorem run_resumable (m : Machine) (limit : Nat) :
    (∀ outcome m', m.run limit = (.ok outcome, m') →
      ∀ higher ≥ limit, m.run higher = (.ok outcome, m')) ∧
    (∀ n m', m.run limit = (.error (.stepLimit n), m') →
      n = limit ∧
      (m.steps ≤ limit → m'.steps = limit ∧ ∀ higher ≥ limit, m'.run higher = m.run higher)) ∧
    (∀ fault m', (∀ n, fault ≠ .stepLimit n) → m.run limit = (.error fault, m') →
      ∀ higher ≥ limit, m.run higher = (.error fault, m')) ∧
    ∀ status, m.exit = some status → m.run limit = (.ok (m.outcome status), m) := by
  refine ⟨fun outcome m' hrun higher h => ?_, fun n m' hrun => ⟨?_, fun hsteps => ⟨?_, ?_⟩⟩,
    fun fault m' hfault hrun higher h => ?_, fun status hexit => ?_⟩
  · exact run_of_over h hrun nofun
  · exact (runSteps_eq_stepLimit _ _ (run_eq_iff.mp hrun)).1
  · exact (run_of_stopped (Nat.le_refl limit) hsteps hrun).1
  · exact fun higher h => (run_of_stopped h hsteps hrun).2
  · exact run_of_over h hrun fun n heq => hfault n (Except.error.inj heq)
  · exact run_eq_iff.mpr (runSteps_of_exit hexit)

/-- A process about to ask for its number, which is that of the call that ends it. -/
def asking : Machine where
  regs := { eax := 20, ebx := 7 }
  eip := 0x1000
  flags := {}
  -- int 0x80; int 0x80
  memory := (({} : Memory).map 0x1000 4).put 0x1000 ([0xCD, 0x80] ++ [0xCD, 0x80])
  output := #[]
  exit := none
  steps := 0

/-- The process that has its number. -/
def asked : Machine :=
  (asking.past 2).set .eax 1

/-- Two steps of that process: one up to the limit, and one more that ends it. A process without
code fails, and one that has ended stays as it is. -/
theorem run_resumable_asking :
    asking.run 1 = (.error (.stepLimit 1), asked) ∧ asked.steps = 1 ∧
      asked.run 9 = asking.run 9 ∧
      asking.run 9 = (.ok ⟨7, 2, []⟩, { asked.past 2 with exit := some 7 }) ∧
      { asking with memory := {} }.run 9 =
        (.error (.unmapped 0x1000), { asking with memory := {} }) ∧
      { asked.past 2 with exit := some 7 }.run 0 =
        (.ok ⟨7, 2, []⟩, { asked.past 2 with exit := some 7 }) := by
  have hstored : asking.memory.HasBytes 0x1000 ([0xCD, 0x80] ++ [0xCD, 0x80]) :=
    Memory.hasBytes_put (by decide) fun a hlow hhigh => Memory.isMapped_map hlow hhigh
  rw [Memory.hasBytes_append] at hstored
  have hfirst : Exec.step asking = .ok (0x1000, ⟨.int, [.imm Abi.syscallVector]⟩) asked :=
    Exec.step_eq_ok .trap rfl hstored.1 (by decide) (Exec.syscall_eq _)
  have hsecond : Exec.step asked = .ok (0x1002, ⟨.int, [.imm Abi.syscallVector]⟩)
      { asked.past 2 with exit := some 7 } :=
    Exec.step_eq_ok .trap rfl hstored.2 (by decide) (Exec.syscall_eq _)
  have hexit : asking.exit = none ∧ asked.exit = none := ⟨rfl, rfl⟩
  have hone : asking.run 1 = (.error (.stepLimit 1), asked) := by
    rw [run_eq_iff, runWith, show (1 : Nat) - asking.steps = 1 from rfl]
    simp only [runSteps, hexit.1, hexit.2, hfirst]
  have htwo : asking.run 2 = (.ok ⟨7, 2, []⟩, { asked.past 2 with exit := some 7 }) := by
    rw [run_eq_iff, runWith, show (2 : Nat) - asking.steps = 2 from rfl]
    simp only [runSteps, hexit.1, hexit.2, hfirst, hsecond]
    rfl
  have hfails : { asking with memory := {} }.run 1 =
      (.error (.unmapped 0x1000), { asking with memory := {} }) := by
    have hnothing : Exec.step { asking with memory := {} } =
        .error (.unmapped 0x1000) { asking with memory := {} } := by
      rw [Exec.step_run, maxInstructionLength, Memory.fetch, Memory.get?_eq, Memory.isMapped_empty]
      rfl
    have hgoing : { asking with memory := {} }.exit = none := rfl
    rw [run_eq_iff, runWith, show (1 : Nat) - asking.steps = 1 from rfl, runSteps, hgoing,
      hnothing]
  obtain ⟨-, hstopped, -, -⟩ := run_resumable asking 1
  obtain ⟨-, hlimit⟩ := hstopped 1 asked hone
  obtain ⟨hsteps, hmore⟩ := hlimit (Nat.zero_le 1)
  exact ⟨hone, hsteps, hmore 9 (by decide), (run_resumable asking 2).1 _ _ htwo 9 (by decide),
    (run_resumable { asking with memory := {} } 1).2.2.1 _ _ (by simp) hfails 9 (by decide),
    (run_resumable { asked.past 2 with exit := some 7 } 0).2.2.2 7 rfl⟩

end Machine

end Ia32
