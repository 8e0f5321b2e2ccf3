import Ia32.Instruction.Encoding
import Ia32.Proofs.Outcome
import Ia32.Proofs.Word

/-!
# Sizes predict encodings

The size of an instruction is found from the kinds of its operands, before any
label has an address. It is the length of the encoding wherever the instruction
is placed and whatever its labels turn out to be, and one fails exactly when the
other does.
-/

namespace Ia32

namespace Encoding

/-- A predicted length and bytes agree if both fail or the bytes have the length. -/
def Agrees (size : Except EncodingError Nat) (bytes : Except EncodingError Bytes) : Prop :=
  match size, bytes with
  | .ok n, .ok bs => bs.length = n
  | .error _, .error _ => True
  | _, _ => False

namespace Agrees

variable {size : Except EncodingError Nat} {bytes : Except EncodingError Bytes}

theorem length {n : Nat} (h : Agrees (.ok n) bytes) : ∃ bs, bytes = .ok bs ∧ bs.length = n := by
  cases bytes with
  | error e => exact h.elim
  | ok bs => exact ⟨bs, rfl, h⟩

/-- A fixed number of bytes around a part. -/
theorem extend (h : Agrees size bytes) (g : Nat → Nat) (f : Bytes → Bytes)
    (hlength : ∀ bs, (f bs).length = g bs.length) :
    Agrees (size >>= fun n => .ok (g n)) (bytes >>= fun bs => .ok (f bs)) := by
  cases size with
  | error e =>
      cases bytes with
      | error e' => trivial
      | ok bs => exact h.elim
  | ok n =>
      obtain ⟨bs, rfl, rfl⟩ := h.length
      exact hlength bs

/-- A part measured by its own bytes. -/
theorem self (bytes : Except EncodingError Bytes) (g : Nat → Nat) (f : Bytes → Bytes)
    (hlength : ∀ bs, (f bs).length = g bs.length) :
    Agrees (bytes >>= fun bs => .ok (g bs.length)) (bytes >>= fun bs => .ok (f bs)) := by
  cases bytes with
  | error e => trivial
  | ok bs => exact hlength bs

/-- Two parts, one behind the other, the second measured by its own bytes. -/
theorem join (h : Agrees size bytes) (others : Except EncodingError Bytes)
    (g : Nat → Nat → Nat) (f : Bytes → Bytes → Bytes)
    (hlength : ∀ bs bs', (f bs bs').length = g bs.length bs'.length) :
    Agrees (size >>= fun n => others >>= fun bs' => .ok (g n bs'.length))
      (bytes >>= fun bs => others >>= fun bs' => .ok (f bs bs')) := by
  cases size with
  | error e =>
      cases bytes with
      | error e' => trivial
      | ok bs => exact h.elim
  | ok n =>
      obtain ⟨bs, rfl, rfl⟩ := h.length
      exact self others (g bs.length) (f bs) (hlength bs)

end Agrees

/-- Memory operands are as wide as they are measured. -/
theorem memory_agrees (field : Nat) (m : Mem) : Agrees (memWidth m) (memory field m) := by
  unfold memWidth memory
  split
  case isTrue => trivial
  case isFalse =>
    unfold Mem.dispWidth
    split
    · rfl
    · split <;> rfl

/-- The immediate comes first in the bytes and second in the size, so that of two
faults each finds another one. -/
theorem withImmediate_agrees {size : Except EncodingError Nat}
    {place : Except EncodingError Bytes} (h : Agrees size place) (short long : UInt8) (v : Int) :
    Agrees (size >>= fun n => shortWidth v >>= fun k => .ok (1 + n + k))
      (withImmediate short long place v) := by
  unfold withImmediate shortWidth
  by_cases hv : fitsWord v
  · cases size with
    | error e =>
        cases place with
        | error e' =>
            rw [if_pos hv]
            trivial
        | ok bs => exact h.elim
    | ok n =>
        obtain ⟨bs, rfl, rfl⟩ := h.length
        by_cases hshort : fitsByte v
        · simp only [if_pos hv, if_pos hshort, ok_bind, reduceIte]
          simp only [Agrees, pure, Except.pure, List.length_cons, List.length_append,
            List.length_nil]
          omega
        · simp only [if_pos hv, if_neg hshort, ok_bind, immediate]
          simp only [Agrees, pure, Except.pure, List.length_cons, List.length_append,
            Word.length_toBytes, reduceIte, Nat.reduceEqDiff]
          omega
  · rw [if_neg hv]
    cases size <;> trivial

theorem memWidth_bounds {m : Mem} {n : Nat} (h : memWidth m = .ok n) : 1 ≤ n ∧ n ≤ 5 := by
  unfold memWidth Mem.dispWidth at h
  split at h
  · cases h
  · cases h
    split
    · omega
    · split <;> omega

theorem shortWidth_bounds {v : Int} {n : Nat} (h : shortWidth v = .ok n) : 1 ≤ n ∧ n ≤ 4 := by
  unfold shortWidth at h
  split at h
  · cases h
    split <;> omega
  · cases h

end Encoding

namespace Instr

open Encoding

variable {L : Type}

/-- Arithmetic instructions are as long as they are measured. -/
theorem encodeAlu_agrees {op : Mnemonic} {code : AluCode} (hcode : op.alu = some code)
    (args : List (Operand L)) (f : L → UInt32) :
    Agrees (⟨op, args⟩ : Instr L).size
      ((⟨op, args⟩ : Instr L).resolve f |>.encodeAlu code) := by
  unfold size
  simp only [hcode, Option.isSome_some, if_true]
  split
  case h_1 => rfl
  case h_2 m => exact (memory_agrees _ m).extend (1 + ·) _ (fun _ => by simp; omega)
  case h_3 m _ => exact (memory_agrees _ m).extend (1 + ·) _ (fun _ => by simp; omega)
  case h_4 d v =>
    have hplace : Agrees (.ok 1) (.ok [modrm 3 code.field d.code]) := rfl
    exact withImmediate_agrees hplace 0x83 0x81 v
  case h_5 m v => exact withImmediate_agrees (memory_agrees code.field m) 0x83 0x81 v
  case h_6 hrr hrm hmr hri hmi =>
    rcases args with _ | ⟨a, _ | ⟨b, _ | ⟨c, rest⟩⟩⟩
    · trivial
    · cases a <;> trivial
    · cases a <;> cases b
      case reg.reg => exact (hrr _ _ rfl).elim
      case reg.mem => exact (hrm _ _ rfl).elim
      case mem.reg => exact (hmr _ _ rfl).elim
      case reg.imm => exact (hri _ _ rfl).elim
      case mem.imm => exact (hmi _ _ rfl).elim
      all_goals trivial
    · cases a <;> cases b <;> trivial

/-- The encoding of an instruction has the length that its size predicts, at every
address and for every resolution of its labels; it fails exactly if the size does. -/
theorem encode_agrees (i : Instr L) (f : L → UInt32) (addr : UInt32) :
    Agrees i.size ((i.resolve f).encode addr) := by
  obtain ⟨op, args⟩ := i
  cases hcode : op.alu with
  | some code =>
      have hencode : ((⟨op, args⟩ : Instr L).resolve f).encode addr =
          ((⟨op, args⟩ : Instr L).resolve f).encodeAlu code := by
        unfold encode
        have hop : ((⟨op, args⟩ : Instr L).resolve f).op.alu = some code := hcode
        rw [hop]
      rw [hencode]
      exact encodeAlu_agrees hcode args f
  | none =>
      rcases args with _ | ⟨a, _ | ⟨b, _ | ⟨c, rest⟩⟩⟩
      · cases op <;> trivial
      · cases a with
        | reg r => cases op <;> trivial
        | mem m =>
            cases op
            case call => exact (memory_agrees 2 m).extend (1 + ·) _ (fun _ => by simp; omega)
            case push => exact (memory_agrees 6 m).extend (1 + ·) _ (fun _ => by simp; omega)
            case pop => exact (memory_agrees 0 m).extend (1 + ·) _ (fun _ => by simp; omega)
            all_goals trivial
        | imm v =>
            cases op
            case push =>
              have hplace : Agrees (.ok 0) (.ok []) := rfl
              exact withImmediate_agrees hplace 0x6A 0x68 v
            case int =>
              change Agrees (vector v >>= fun _ => .ok 2) (vector v >>= fun b => .ok [0xCD, b])
              cases vector v <;> trivial
            all_goals trivial
        | label l => cases op <;> trivial
      · cases op
        case mov =>
          cases a <;> cases b
          case reg.mem d m =>
            exact (memory_agrees d.code m).extend (1 + ·) _ (fun _ => by simp; omega)
          case mem.reg m s =>
            exact (memory_agrees s.code m).extend (1 + ·) _ (fun _ => by simp; omega)
          case reg.imm d v =>
            exact Agrees.self (immediate v) (1 + ·) _ (fun _ => by simp; omega)
          case mem.imm m v =>
            exact (memory_agrees 0 m).join (immediate v) (1 + · + ·) _ (fun _ _ => by simp; omega)
          case mem.label m l =>
            exact (memory_agrees 0 m).extend (5 + ·) _ (fun _ => by simp; omega)
          all_goals trivial
        all_goals cases a <;> trivial
      · cases op <;> cases a <;> cases b <;> trivial

/-- Every encoding has at least one byte and at most ten. -/
theorem size_bounds {i : Instr L} {n : Nat} (h : i.size = .ok n) : 1 ≤ n ∧ n ≤ 10 := by
  have hmem : ∀ {m : Mem} {k : Nat}, (memWidth m >>= fun w => .ok (k + w)) = .ok n →
      k + 1 ≤ n ∧ n ≤ k + 5 := by
    intro m k h
    obtain ⟨w, hw, h⟩ := bind_eq_ok.mp h
    have := memWidth_bounds hw
    cases h
    omega
  have hshort : ∀ {v : Int} {k : Nat}, (shortWidth v >>= fun w => .ok (k + w)) = .ok n →
      k + 1 ≤ n ∧ n ≤ k + 4 := by
    intro v k h
    obtain ⟨w, hw, h⟩ := bind_eq_ok.mp h
    have := shortWidth_bounds hw
    cases h
    omega
  have himm : ∀ {v : Int} {k : Nat}, (immediate v >>= fun bs => .ok (k + bs.length)) = .ok n →
      n = k + 4 := by
    intro v k h
    obtain ⟨bs, hbs, h⟩ := bind_eq_ok.mp h
    cases h
    unfold immediate at hbs
    split at hbs <;> cases hbs
    rfl
  unfold size at h
  split at h
  · split at h
    case h_1 => cases h; omega
    case h_2 | h_3 => have := hmem h; omega
    case h_4 => have := hshort h; omega
    case h_5 =>
      obtain ⟨w, hw, h⟩ := bind_eq_ok.mp h
      have := memWidth_bounds hw
      have := hshort h
      omega
    case h_6 => cases h
  · split at h
    case h_2 | h_3 | h_7 | h_13 | h_19 | h_20 => have := hmem h; omega
    case h_4 => have := himm h; omega
    case h_6 =>
      obtain ⟨w, hw, h⟩ := bind_eq_ok.mp h
      have := memWidth_bounds hw
      have := himm h
      omega
    case h_14 =>
      obtain ⟨-, -, h⟩ := bind_eq_ok.mp h
      cases h
      omega
    case h_17 => have := hshort h; omega
    case h_24 | h_25 =>
      split at h <;> cases h
      omega
    case h_26 => cases h
    all_goals
      cases h
      omega

/-- An instruction has an encoding exactly if it has a size, and the size is the length of the
encoding: at least one byte and at most ten, at every address and for every resolution of its
labels. -/
theorem size_predicts_encoding (i : Instr L) (f : L → UInt32) (addr : UInt32) :
    ((∃ bytes, (i.resolve f).encode addr = .ok bytes) ↔ ∃ n, i.size = .ok n) ∧
      ∀ bytes, (i.resolve f).encode addr = .ok bytes →
        i.size = .ok bytes.length ∧ 1 ≤ bytes.length ∧ bytes.length ≤ 10 ∧
          ∀ (g : L → UInt32) (other : UInt32), ∃ bytes',
            (i.resolve g).encode other = .ok bytes' ∧ bytes'.length = bytes.length := by
  cases hsize : i.size with
  | error e =>
      have hnone : ∀ bytes, (i.resolve f).encode addr ≠ .ok bytes := by
        intro bytes hbytes
        have hagrees := i.encode_agrees f addr
        rw [hsize, hbytes] at hagrees
        exact hagrees
      exact ⟨by simp [hnone], fun bytes hbytes => absurd hbytes (hnone bytes)⟩
  | ok n =>
      have hencodes : ∀ g other, ∃ bytes, (i.resolve g).encode other = .ok bytes ∧
          bytes.length = n := by
        intro g other
        have hagrees := i.encode_agrees g other
        rw [hsize] at hagrees
        exact hagrees.length
      obtain ⟨bytes, hbytes, rfl⟩ := hencodes f addr
      refine ⟨⟨fun _ => ⟨_, rfl⟩, fun _ => ⟨bytes, hbytes⟩⟩, fun bytes' hbytes' => ?_⟩
      cases hbytes.symm.trans hbytes'
      obtain ⟨hlow, hhigh⟩ := size_bounds hsize
      exact ⟨rfl, hlow, hhigh, hencodes⟩

/-- The longest form: a far place in memory and the address of a label. -/
theorem size_predicts_encoding_longest :
    ∃ bytes, ((⟨.mov, [.mem ⟨.ebp, 1000⟩, .label ()]⟩ : Instr Unit).resolve fun _ => 7).encode
        0xFFFFFFFF = .ok bytes ∧
      (⟨.mov, [.mem ⟨.ebp, 1000⟩, .label ()]⟩ : Instr Unit).size = .ok bytes.length ∧
      1 ≤ bytes.length ∧ bytes.length ≤ 10 ∧
      ∀ (g : Unit → UInt32) (other : UInt32), ∃ bytes',
        ((⟨.mov, [.mem ⟨.ebp, 1000⟩, .label ()]⟩ : Instr Unit).resolve g).encode other =
          .ok bytes' ∧
          bytes'.length = bytes.length := by
  obtain ⟨hiff, hlength⟩ := size_predicts_encoding
    (⟨.mov, [.mem ⟨.ebp, 1000⟩, .label ()]⟩ : Instr Unit) (fun _ => 7) 0xFFFFFFFF
  obtain ⟨bytes, hbytes⟩ := hiff.mpr ⟨10, rfl⟩
  exact ⟨bytes, hbytes, hlength bytes hbytes⟩

end Instr

end Ia32
