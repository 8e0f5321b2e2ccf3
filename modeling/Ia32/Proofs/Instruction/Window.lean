import Ia32.Proofs.Instruction.Decoding
import Ia32.Proofs.Instruction.Size

/-!
# What decoding looks at

A decoder decides by the bytes in front. It looks at a bounded number of them, and if
they end too early it says so, whatever they would have been. Every instruction that it
finds is spelled in its normal form and has an encoding, which is no longer than the
bytes it was found in.
-/

namespace Ia32

theorem fitsByte_signedByte (b : UInt8) : fitsByte (signedByte b) := by
  have hlt := b.toNat_lt
  unfold signedByte
  split <;> simp only [fitsByte, Bool.and_eq_true, decide_eq_true_eq] <;> omega

/-- Numbers that a 32-bit field is read back as. -/
def IsSigned (v : Int) : Prop :=
  fitsWord v ∧ Word.wrap v = v

/-- Every number of 32 bits is a signed word. -/
theorem isSigned_of_bounds {v : Int} (hlow : -2147483648 ≤ v) (hhigh : v < 2147483648) :
    IsSigned v := by
  refine ⟨?_, if_pos hhigh⟩
  simp only [fitsWord, Bool.and_eq_true, decide_eq_true_eq]
  omega

theorem isSigned_toSigned (w : UInt32) : IsSigned (Word.toSigned w) := by
  have hlt := w.toNat_lt
  refine isSigned_of_bounds ?_ ?_ <;>
    · unfold Word.toSigned
      split <;> omega

theorem isSigned_of_fitsByte {v : Int} (h : fitsByte v) : IsSigned v := by
  simp only [fitsByte, Bool.and_eq_true, decide_eq_true_eq] at h
  exact isSigned_of_bounds (by omega) (by omega)

/-- The faults of bytes that no instruction starts with, whatever follows them. -/
def Fault.IsMalformed : Fault → Prop
  | .unknownOpcode _ _ | .unsupportedAddressing _ => True
  | _ => False

namespace Decoder

variable {α β : Type} {addr : UInt32}

/-- How a decoder fares on some bytes: it finds a value in the front of them, it finds
that the front is malformed, or they end too early. What it finds and the number of
bytes that it takes are related as `found` says. -/
inductive Fares (addr : UInt32) (window : Nat) (found : α → Nat → Prop) (d : Decoder α) :
    Bytes → Prop
  | value {a : α} (front rest : Bytes) (fits : front.length ≤ window)
      (reads : ∀ tail, d (front ++ tail) = .ok (a, tail))
      (short : ∀ part, part <+: front → part ≠ front →
        d part = .error (.truncatedInstruction addr))
      (holds : found a front.length) : Fares addr window found d (front ++ rest)
  | malformed {fault : Fault} (front rest : Bytes) (fits : front.length ≤ window)
      (cause : fault.IsMalformed) (fails : ∀ tail, d (front ++ tail) = .error fault) :
      Fares addr window found d (front ++ rest)
  | truncated {bytes : Bytes} (fits : bytes.length < window)
      (fails : d bytes = .error (.truncatedInstruction addr)) : Fares addr window found d bytes

/-- A decoder that never looks at more bytes than its window has. -/
def Windowed (addr : UInt32) (window : Nat) (found : α → Nat → Prop) (d : Decoder α) : Prop :=
  ∀ bytes, Fares addr window found d bytes

namespace Windowed

variable {n m : Nat} {found found' : α → Nat → Prop} {d : Decoder α}

/-- A window can be wider, and what is found can be said with less. -/
theorem mono (h : Windowed addr n found d) (hle : n ≤ m)
    (himp : ∀ a k, found a k → found' a k) : Windowed addr m found' d := by
  intro bytes
  cases h bytes with
  | value front rest fits reads short holds =>
      exact .value front rest (Nat.le_trans fits hle) reads short (himp _ _ holds)
  | malformed front rest fits cause fails =>
      exact .malformed front rest (Nat.le_trans fits hle) cause fails
  | truncated fits fails => exact .truncated (Nat.lt_of_lt_of_le fits hle) fails

/-- A wider window is one too. -/
theorem wider (h : Windowed addr n found d) (hle : n ≤ m) : Windowed addr m found d :=
  h.mono hle fun _ _ => id

/-- A value that takes no byte is found in any window. -/
theorem pure {a : α} (h : found a 0) : Windowed addr n found (Pure.pure a) :=
  fun bytes => .value [] bytes (Nat.zero_le n) (fun _ => rfl)
    (fun _ hpart hne => absurd (List.prefix_nil.mp hpart) hne) h

/-- A malformed instruction is reported in any window. -/
theorem throw {fault : Fault} (h : fault.IsMalformed) :
    Windowed addr n found (MonadExcept.throw fault : Decoder α) :=
  fun bytes => .malformed [] bytes (Nat.zero_le n) h fun _ => rfl

/-- A choice that does not depend on the bytes stays in the window of both sides. -/
theorem ite {p : Prop} [Decidable p] {d' : Decoder α} (ht : p → Windowed addr n found d)
    (he : ¬ p → Windowed addr n found d') : Windowed addr n found (if p then d else d') := by
  split
  next h => exact ht h
  next h => exact he h

/-- Bytes that end inside the first part or inside the second one end too early. -/
theorem bind {x : Decoder α} {f : α → Decoder β} {found' : β → Nat → Prop}
    (hx : Windowed addr n found x)
    (hf : ∀ a k, found a k → Windowed addr m (fun b j => found' b (k + j)) (f a)) :
    Windowed addr (n + m) found' (x >>= f) := by
  have hrun (bytes : Bytes) : (x >>= f) bytes = (x bytes >>= fun p => f p.1 p.2) := rfl
  intro bytes
  cases hx bytes with
  | @value a front rest fits reads short holds =>
      have hstep (tail : Bytes) : (x >>= f) (front ++ tail) = f a tail := by
        rw [hrun, reads]
        rfl
      cases hf a front.length holds rest with
      | @value b front' rest' fits' reads' short' holds' =>
          rw [← List.append_assoc]
          refine .value _ rest' (by rw [List.length_append]; omega) (fun tail => ?_) ?_
            (by rwa [List.length_append])
          · rw [List.append_assoc, hstep, reads']
          · -- either decoder may be the one that runs out of bytes
            intro part hpart hne
            by_cases hbehind : front <+: part
            · obtain ⟨part', rfl⟩ := hbehind
              rw [hstep]
              exact short' part' ((List.prefix_append_right_inj front).mp hpart)
                fun heq => hne (congrArg (front ++ ·) heq)
            · have hinside : part <+: front := by
                have hcomparable :=
                  List.prefix_or_prefix_of_prefix hpart (List.prefix_append front front')
                exact hcomparable.resolve_right hbehind
              rw [hrun, short part hinside fun heq => hbehind (heq ▸ List.prefix_rfl)]
              rfl
      | @malformed fault front' rest' fits' cause fails =>
          rw [← List.append_assoc]
          refine .malformed _ rest' (by rw [List.length_append]; omega) cause fun tail => ?_
          rw [List.append_assoc, hstep, fails]
      | truncated fits' fails =>
          exact .truncated (by rw [List.length_append]; omega) ((hstep rest).trans fails)
  | malformed front rest fits cause fails =>
      refine .malformed front rest (by omega) cause fun tail => ?_
      rw [hrun, fails]
      rfl
  | truncated fits fails =>
      refine .truncated (by omega) ?_
      rw [hrun, fails]
      rfl

/-- What is made of a value takes the bytes of the value. -/
theorem map {x : Decoder α} {f : α → β} {found' : β → Nat → Prop} (hx : Windowed addr n found x)
    (hf : ∀ a k, found a k → found' (f a) k) :
    Windowed addr n found' (x >>= fun a => Pure.pure (f a)) :=
  hx.bind (m := 0) fun a k ha => .pure (hf a k ha)

end Windowed

/-! ### Parts of an instruction -/

/-- A byte is one byte. -/
theorem windowed_byte (addr : UInt32) : Windowed addr 1 (fun _ k => k = 1) (byte addr) := by
  intro bytes
  cases bytes with
  | nil => exact .truncated Nat.zero_lt_one rfl
  | cons b rest =>
      refine .value (a := b) [b] rest (Nat.le_refl 1) (fun _ => rfl) ?_ rfl
      intro part hpart hne
      have hnil : part = [] := by
        rcases part with _ | ⟨c, part⟩
        · rfl
        · obtain ⟨hhead, htail⟩ := List.cons_prefix_cons.mp hpart
          rw [hhead, List.prefix_nil.mp htail] at hne
          exact absurd rfl hne
      rw [hnil]
      rfl

theorem word_of_length_lt {bytes : Bytes} (h : bytes.length < 4) :
    word addr bytes = .error (.truncatedInstruction addr) := by
  rcases bytes with _ | ⟨b0, _ | ⟨b1, _ | ⟨b2, _ | ⟨b3, rest⟩⟩⟩⟩
  case cons.cons.cons.cons =>
    simp only [List.length_cons] at h
    omega
  all_goals rfl

/-- A word is four bytes, and with fewer of them the instruction is truncated. -/
theorem windowed_word (addr : UInt32) : Windowed addr 4 (fun _ k => k = 4) (word addr) := by
  intro bytes
  by_cases hlength : bytes.length < 4
  · exact .truncated hlength (word_of_length_lt hlength)
  · obtain ⟨b0, b1, b2, b3, rest, rfl⟩ : ∃ b0 b1 b2 b3 rest, bytes = [b0, b1, b2, b3] ++ rest := by
      rcases bytes with _ | ⟨b0, _ | ⟨b1, _ | ⟨b2, _ | ⟨b3, rest⟩⟩⟩⟩
      case cons.cons.cons.cons => exact ⟨b0, b1, b2, b3, rest, rfl⟩
      all_goals exact absurd (by simp only [List.length_cons, List.length_nil]; omega) hlength
    refine .value (a := Word.ofBytes b0 b1 b2 b3) _ rest (Nat.le_refl 4) (fun _ => rfl) ?_ rfl
    intro part hpart hne
    refine word_of_length_lt (Nat.lt_of_le_of_ne hpart.length_le fun heq => hne ?_)
    exact hpart.eq_of_length heq

theorem windowed_shortImmediate (addr : UInt32) :
    Windowed addr 1 (fun v k => fitsByte v ∧ k = 1) (shortImmediate addr) :=
  (windowed_byte addr).map fun b _ hk => ⟨fitsByte_signedByte b, hk⟩

theorem windowed_longImmediate (addr : UInt32) :
    Windowed addr 4 (fun v k => IsSigned v ∧ k = 4) (longImmediate addr) :=
  (windowed_word addr).map fun w _ hk => ⟨isSigned_toSigned w, hk⟩

theorem windowed_target (addr length : UInt32) :
    Windowed addr 4 (fun a k => (∃ goal, a = .label goal) ∧ k = 4) (target addr length) :=
  (windowed_word addr).map fun _ _ hk => ⟨⟨_, rfl⟩, hk⟩

/-- Places that have an encoding of no more than some bytes. -/
inductive IsPlace : Operand UInt32 → Nat → Prop
  | reg (r : Reg) : IsPlace (.reg r) 1
  | mem {m : Mem} {length : Nat} (base : m.base ≠ .esp) (width : 1 + m.dispWidth ≤ length) :
      IsPlace (.mem m) length

/-- A displacement takes the bytes of its mode; in the first mode there is none. -/
theorem windowed_displacement (addr : UInt32) (mode : Nat) :
    Windowed addr 4 (fun d k => mode = 0 ∧ d = 0 ∨ fitsByte d ∧ k = 1 ∨ k = 4)
      (displacement addr mode) := by
  match mode with
  | 0 => exact .pure (.inl ⟨rfl, rfl⟩)
  | 1 => exact (windowed_shortImmediate addr).mono (by omega) fun _ _ h => .inr (.inl h)
  | _ + 2 => exact (windowed_longImmediate addr).mono (Nat.le_refl 4) fun _ _ h => .inr (.inr h.2)

theorem ofCode_ne {n : Nat} {r : Reg} (hn : n < 8) (h : n ≠ r.code) : Reg.ofCode n ≠ r := by
  rintro rfl
  exact h (Reg.code_ofCode hn).symm

/-- The width of a displacement that was read is no larger than the bytes it was read from. -/
theorem dispWidth_le (base : Reg) {mode k : Nat} {d : Int} (hebp : mode = 0 → base ≠ .ebp)
    (h : mode = 0 ∧ d = 0 ∨ fitsByte d ∧ k = 1 ∨ k = 4) :
    (⟨base, Int32.ofInt d⟩ : Mem).dispWidth ≤ k := by
  unfold Mem.dispWidth
  rcases h with ⟨hmode, rfl⟩ | ⟨hfits, rfl⟩ | rfl
  · rw [if_pos ⟨rfl, hebp hmode⟩]
    exact Nat.zero_le k
  · have hbounds := hfits
    simp only [fitsByte, Bool.and_eq_true, decide_eq_true_eq] at hbounds
    have hint : (Int32.ofInt d).toInt = d := Int32.toInt_ofInt_of_le (by omega) (by omega)
    split
    · exact Nat.zero_le 1
    · exact Nat.le_of_eq (by rw [hint, if_pos hfits])
  · split
    · exact Nat.zero_le 4
    · split <;> omega

/-- The displacement of a place is read behind its first byte. -/
theorem place_eq (addr : UInt32) :
    place addr = (do
      let b ← byte addr
      if b.toNat / 64 = 3 then return (b.toNat / 8 % 8, .reg (.ofCode (b.toNat % 8)))
      else if b.toNat % 8 = 4 ∨ (b.toNat / 64 = 0 ∧ b.toNat % 8 = 5) then
        throw (.unsupportedAddressing addr)
      else
        let d ← displacement addr (b.toNat / 64)
        return (b.toNat / 8 % 8, .mem ⟨.ofCode (b.toNat % 8), Int32.ofInt d⟩)) := by
  refine congrArg (byte addr >>= ·) (funext fun b => ?_)
  refine ite_congr rfl (fun _ => rfl) fun _ => ite_congr rfl (fun _ => rfl) fun _ => ?_
  match b.toNat / 64 with
  | 0 | 1 | _ + 2 => rfl

/-- A place takes one byte, and its displacement. -/
theorem windowed_place (addr : UInt32) :
    Windowed addr 5 (fun p k => IsPlace p.2 k) (place addr) := by
  rw [place_eq]
  refine (windowed_byte addr).bind (m := 4) fun b k hk => ?_
  obtain rfl : k = 1 := hk
  have hrm : b.toNat % 8 < 8 := Nat.mod_lt _ (by omega)
  refine .ite (fun _ => .pure (.reg _)) fun _ => .ite (fun _ => .throw trivial) fun hknown => ?_
  refine (windowed_displacement addr (b.toNat / 64)).map fun d j hd => ?_
  refine .mem (ofCode_ne hrm fun h => hknown (.inl h)) ?_
  have hwidth := dispWidth_le (.ofCode (b.toNat % 8))
    (fun hmode => ofCode_ne hrm fun h => hknown (.inr ⟨hmode, h⟩)) hd
  omega

end Decoder

end Ia32
