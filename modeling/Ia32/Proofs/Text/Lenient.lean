import Ia32.Proofs.Text.Utf8

/-!
# Lenient reading of UTF-8

Lenient reading gives well-formed text back. Cut into pieces that are read one by one, bytes
are never shown as fewer characters than at once, and a cut inside a character of well-formed
text always shows more of them.
-/

namespace Ia32.Text

/-! ### Well-formed text -/

theorem toNat_ofNat_byte {n : Nat} (h : n < 256) : (UInt8.ofNat n).toNat = n := by
  rw [UInt8.toNat_ofNat']
  omega

/-- A byte in the range of an unfinished character goes into it. -/
theorem takeByte_continue {p : Pending} {n : Nat} (hlow : p.low ≤ n) (hhigh : n ≤ p.high)
    (hn : n < 256) : takeByte (some p) (UInt8.ofNat n) =
      if p.missing ≤ 1 then ([Char.ofNat (64 * p.bits + n % 64)], none)
      else ([], some ⟨0x80, 0xBF, p.missing - 1, 64 * p.bits + n % 64⟩) := by
  simp only [takeByte, toNat_ofNat_byte hn, if_pos (And.intro hlow hhigh)]

/-- The first byte of a character of two bytes. -/
theorem leadByte_two {v : Nat} (hlow : 0x80 ≤ v) (hhigh : v ≤ 0x7FF) :
    leadByte (UInt8.ofNat (v / 64 % 32 + 192)) = ([], some ⟨0x80, 0xBF, 1, v / 64⟩) := by
  simp only [leadByte, toNat_ofNat_byte (show v / 64 % 32 + 192 < 256 by omega)]
  rw [if_neg (by omega), if_pos (by omega), show v / 64 % 32 + 192 - 0xC0 = v / 64 by omega]

/-- The first byte of a character of three bytes. It leaves out the second bytes of what would
be too long or a surrogate. -/
theorem leadByte_three {v : Nat} (hlow : 0x800 ≤ v) (hhigh : v ≤ 0xFFFF)
    (hvalid : v < 0xD800 ∨ 0xDFFF < v) :
    ∃ low high, leadByte (UInt8.ofNat (v / 4096 % 16 + 224)) =
        ([], some ⟨low, high, 2, v / 4096⟩) ∧
      low ≤ v / 64 % 64 + 128 ∧ v / 64 % 64 + 128 ≤ high := by
  simp only [leadByte, toNat_ofNat_byte (show v / 4096 % 16 + 224 < 256 by omega)]
  rw [if_neg (by omega), if_neg (by omega)]
  by_cases hfirst : v / 4096 = 0
  · exact ⟨0xA0, 0xBF, by rw [if_pos (by omega), hfirst], by omega, by omega⟩
  by_cases hsurrogate : v / 4096 = 13
  · refine ⟨0x80, 0x9F, ?_, by omega, by omega⟩
    rw [if_neg (by omega), if_pos (by omega), hsurrogate]
  · refine ⟨0x80, 0xBF, ?_, by omega, by omega⟩
    rw [if_neg (by omega), if_neg (by omega), if_pos (by omega),
      show v / 4096 % 16 + 224 - 0xE0 = v / 4096 by omega]

/-- The first byte of a character of four bytes. -/
theorem leadByte_four {v : Nat} (hlow : 0x10000 ≤ v) (hhigh : v ≤ 0x10FFFF) :
    ∃ low high, leadByte (UInt8.ofNat (v / 262144 % 8 + 240)) =
        ([], some ⟨low, high, 3, v / 262144⟩) ∧
      low ≤ v / 4096 % 64 + 128 ∧ v / 4096 % 64 + 128 ≤ high := by
  simp only [leadByte, toNat_ofNat_byte (show v / 262144 % 8 + 240 < 256 by omega)]
  rw [if_neg (by omega), if_neg (by omega), if_neg (by omega), if_neg (by omega),
    if_neg (by omega)]
  by_cases hfirst : v / 262144 = 0
  · exact ⟨0x90, 0xBF, by rw [if_pos (by omega), hfirst], by omega, by omega⟩
  by_cases hlast : v / 262144 = 4
  · refine ⟨0x80, 0x8F, ?_, by omega, by omega⟩
    rw [if_neg (by omega), if_pos (by omega), hlast]
  · refine ⟨0x80, 0xBF, ?_, by omega, by omega⟩
    rw [if_neg (by omega), if_neg (by omega), if_pos (by omega),
      show v / 262144 % 8 + 240 - 0xF0 = v / 262144 by omega]

/-- Lenient reading of a character gives it back. -/
theorem lossyFrom_encode (c : Char) (rest : Bytes) :
    lossyFrom none (String.utf8EncodeChar c ++ rest) = c :: lossyFrom none rest := by
  have hchar : Char.ofNat c.val.toNat = c := Char.ofNat_toNat c
  have hvalid : c.val.toNat < 0xD800 ∨ 0xDFFF < c.val.toNat := by
    rcases c.valid with hlow | ⟨hhigh, -⟩
    · exact .inl hlow
    · exact .inr hhigh
  have hmax : c.val.toNat ≤ 0x10FFFF := by
    rcases c.valid with hlow | ⟨-, hhigh⟩
    · exact Nat.le_of_lt (Nat.lt_trans hlow (by decide))
    · exact Nat.le_of_lt_succ hhigh
  unfold String.utf8EncodeChar
  generalize c.val.toNat = v at hchar hvalid hmax
  dsimp only
  split
  -- one branch for each number of bytes: the lead byte, then one step for each further byte
  next hone =>
    have hlead : leadByte (UInt8.ofNat v) = ([Char.ofNat v], none) := by
      simp only [leadByte, toNat_ofNat_byte (show v < 256 by omega)]
      rw [if_pos (by omega)]
    simp only [List.cons_append, List.nil_append, lossyFrom, takeByte, hlead, hchar]
  next hone =>
    split
    next htwo =>
      simp only [List.cons_append, List.nil_append, lossyFrom, takeByte.eq_1,
        leadByte_two (show 0x80 ≤ v by omega) htwo]
      rw [takeByte_continue (by dsimp only; omega) (by dsimp only; omega) (by omega)]
      simp only [Nat.le_refl, if_true, List.cons_append, List.nil_append]
      rw [show 64 * (v / 64) + (v % 64 + 128) % 64 = v by omega, hchar]
    next htwo =>
      split
      next hthree =>
        obtain ⟨low, high, hlead, hlow, hhigh⟩ :=
          leadByte_three (show 0x800 ≤ v by omega) hthree hvalid
        simp only [List.cons_append, List.nil_append, lossyFrom, takeByte.eq_1, hlead]
        rw [takeByte_continue hlow hhigh (by omega)]
        dsimp only
        rw [if_neg (by omega)]
        dsimp only
        rw [takeByte_continue (by dsimp only; omega) (by dsimp only; omega) (by omega)]
        simp only [Nat.reduceSub, Nat.le_refl, if_true, List.cons_append, List.nil_append]
        rw [show 64 * (64 * (v / 4096) + (v / 64 % 64 + 128) % 64) + (v % 64 + 128) % 64 = v by
          omega, hchar]
      next hthree =>
        obtain ⟨low, high, hlead, hlow, hhigh⟩ := leadByte_four (show 0x10000 ≤ v by omega) hmax
        simp only [List.cons_append, List.nil_append, lossyFrom, takeByte.eq_1, hlead]
        rw [takeByte_continue hlow hhigh (by omega)]
        dsimp only
        rw [if_neg (by omega)]
        dsimp only
        rw [takeByte_continue (by dsimp only; omega) (by dsimp only; omega) (by omega)]
        dsimp only
        rw [if_neg (by omega)]
        dsimp only
        rw [takeByte_continue (by dsimp only; omega) (by dsimp only; omega) (by omega)]
        simp only [Nat.reduceSub, Nat.le_refl, if_true, List.cons_append, List.nil_append]
        rw [show 64 * (64 * (64 * (v / 262144) + (v / 4096 % 64 + 128) % 64) +
          (v / 64 % 64 + 128) % 64) + (v % 64 + 128) % 64 = v by omega, hchar]

/-- Lenient reading gives well-formed text back, whatever stands behind it. -/
theorem lossyFrom_utf8Bytes (s : String) (rest : Bytes) :
    lossyFrom none (utf8Bytes s ++ rest) = s.toList ++ lossyFrom none rest := by
  rw [utf8Bytes_eq_flatMap]
  induction s.toList with
  | nil => rfl
  | cons c chars ih =>
      rw [List.flatMap_cons, List.append_assoc, lossyFrom_encode, ih]
      rfl

/-- A whole text is decoded as itself. -/
theorem lossyFrom_self (s : String) : lossyFrom none (utf8Bytes s) = s.toList := by
  simpa [lossyFrom] using lossyFrom_utf8Bytes s []

/-! ### Pieces -/

/-- A byte that stands inside a character only. -/
def IsContinuation (b : UInt8) : Prop :=
  0x80 ≤ b.toNat ∧ b.toNat ≤ 0xBF

/-- An unfinished character as reading leaves one: it goes on with such a byte. -/
def Pending.Proper (p : Pending) : Prop :=
  0x80 ≤ p.low ∧ p.high ≤ 0xBF

theorem leadByte_continuation {b : UInt8} (h : IsContinuation b) :
    leadByte b = ([replacement], none) := by
  obtain ⟨hlow, hhigh⟩ := h
  simp only [leadByte]
  rw [if_neg (by omega), if_neg (by omega), if_neg (by omega), if_neg (by omega),
    if_neg (by omega), if_neg (by omega), if_neg (by omega), if_neg (by omega)]

/-- A byte in front of a character completes one, or starts one that goes on. -/
theorem leadByte_cases (b : UInt8) :
    (∃ c, leadByte b = ([c], none)) ∨ ∃ p, leadByte b = ([], some p) ∧ p.Proper := by
  unfold leadByte
  dsimp only
  split
  · exact .inl ⟨_, rfl⟩
  iterate 7
    split
    · exact .inr ⟨_, rfl, by constructor <;> dsimp only <;> omega⟩
  exact .inl ⟨_, rfl⟩

/-- A byte behind an unfinished character goes into it, or leaves a replacement for it. -/
theorem takeByte_cases {p : Pending} (hp : p.Proper) (b : UInt8) :
    (IsContinuation b ∧ ((∃ c, takeByte (some p) b = ([c], none)) ∨
      ∃ q, takeByte (some p) b = ([], some q) ∧ q.Proper)) ∨
    takeByte (some p) b = (replacement :: (leadByte b).1, (leadByte b).2) := by
  unfold takeByte
  dsimp only
  split
  next hin =>
    refine .inl ⟨⟨Nat.le_trans hp.1 hin.1, Nat.le_trans hin.2 hp.2⟩, ?_⟩
    split
    · exact .inl ⟨_, rfl⟩
    · exact .inr ⟨_, rfl, by constructor <;> exact Nat.le_refl _⟩
  next => exact .inr rfl

/-- An unfinished character makes one character more at most. -/
theorem length_lossyFrom_some_le {p : Pending} (hp : p.Proper) (bytes : Bytes) :
    (lossyFrom (some p) bytes).length ≤ 1 + (lossyFrom none bytes).length := by
  induction bytes generalizing p with
  | nil => simp [lossyFrom]
  | cons b rest ih =>
      simp only [lossyFrom, takeByte.eq_1]
      rcases takeByte_cases hp b with ⟨hb, ⟨c, htake⟩ | ⟨q, htake, hq⟩⟩ | htake
      · rw [htake, leadByte_continuation hb]
        simp
      · rw [htake, leadByte_continuation hb]
        have := ih hq
        simp only [List.nil_append, List.length_append, List.length_singleton]
        omega
      · rw [htake]
        simp only [List.cons_append, List.length_cons]
        omega

/-- Bytes that are read in two pieces are shown as no fewer characters. -/
theorem length_lossyFrom_append_le {pending : Option Pending} (hpending : ∀ p ∈ pending, p.Proper)
    (first second : Bytes) : (lossyFrom pending (first ++ second)).length ≤
      (lossyFrom pending first).length + (lossyFrom none second).length := by
  induction first generalizing pending with
  | nil =>
      cases pending with
      | none => simp [lossyFrom]
      | some p => exact length_lossyFrom_some_le (hpending p rfl) second
  | cons b rest ih =>
      -- whatever the byte does, a character that has begun is one that can be finished
      have hnext : ∀ p ∈ (takeByte pending b).2, p.Proper := by
        have hlead : ∀ p ∈ (leadByte b).2, p.Proper := by
          rcases leadByte_cases b with ⟨c, hb⟩ | ⟨q, hb, hq⟩
          · simp [hb]
          · simpa [hb] using hq
        cases pending with
        | none => exact hlead
        | some p =>
            rcases takeByte_cases (hpending p rfl) b with ⟨-, ⟨c, htake⟩ | ⟨q, htake, hq⟩⟩ | htake
            · simp [htake]
            · simpa [htake] using hq
            · simpa [htake] using hlead
      have hrest := ih hnext
      simp only [List.cons_append, lossyFrom, List.length_append]
      omega

theorem lossyFrom_some_ne_nil {p : Pending} (hp : p.Proper) (bytes : Bytes) :
    lossyFrom (some p) bytes ≠ [] := by
  induction bytes generalizing p with
  | nil => simp [lossyFrom]
  | cons b rest ih =>
      rcases takeByte_cases hp b with ⟨-, ⟨c, htake⟩ | ⟨q, htake, hq⟩⟩ | htake
      · simp [lossyFrom, htake]
      · simpa [lossyFrom, htake] using ih hq
      · simp [lossyFrom, htake]

/-- Bytes are shown. -/
theorem lossyFrom_ne_nil {bytes : Bytes} (h : bytes ≠ []) : lossyFrom none bytes ≠ [] := by
  cases bytes with
  | nil => exact absurd rfl h
  | cons b rest =>
      rcases leadByte_cases b with ⟨c, hb⟩ | ⟨q, hb, hq⟩
      · simp [lossyFrom, takeByte, hb]
      · simpa [lossyFrom, takeByte, hb] using lossyFrom_some_ne_nil hq rest

/-! ### Cuts inside a character -/

theorem isContinuation_of_mem_tail {c : Char} {b : UInt8}
    (h : b ∈ (String.utf8EncodeChar c).tail) : IsContinuation b := by
  have hbyte (n : Nat) : IsContinuation (UInt8.ofNat (n % 64 + 128)) := by
    rw [IsContinuation, toNat_ofNat_byte (by omega)]
    omega
  unfold String.utf8EncodeChar at h
  dsimp only at h
  split at h
  · cases h
  split at h
  · rw [List.tail_cons, List.mem_singleton] at h
    exact h ▸ hbyte _
  split at h
  · simp only [List.tail_cons, List.mem_cons, List.not_mem_nil, or_false] at h
    rcases h with rfl | rfl <;> exact hbyte _
  · simp only [List.tail_cons, List.mem_cons, List.not_mem_nil, or_false] at h
    rcases h with rfl | rfl | rfl <;> exact hbyte _

/-- Every byte that stands inside a character only is shown by itself. -/
theorem lossyFrom_continuations {back : Bytes} (h : ∀ b ∈ back, IsContinuation b) (rest : Bytes) :
    lossyFrom none (back ++ rest) =
      List.replicate back.length replacement ++ lossyFrom none rest := by
  induction back with
  | nil => rfl
  | cons b back ih =>
      simp only [List.cons_append, lossyFrom, takeByte.eq_1,
        leadByte_continuation (h b List.mem_cons_self),
        ih fun d hd => h d (List.mem_cons_of_mem b hd), List.length_cons, List.replicate_succ,
        List.nil_append]

/-- A cut through the bytes of characters is between two of them, or inside one. -/
theorem cut_cases {chars : List Char} {first second : Bytes}
    (h : first ++ second = chars.flatMap String.utf8EncodeChar) :
    (∃ front : List Char, first = front.flatMap String.utf8EncodeChar) ∨
      ∃ before c after front back, chars = before ++ c :: after ∧ front ≠ [] ∧ back ≠ [] ∧
        String.utf8EncodeChar c = front ++ back ∧
        first = before.flatMap String.utf8EncodeChar ++ front ∧
        second = back ++ after.flatMap String.utf8EncodeChar := by
  induction chars generalizing first with
  | nil => exact .inl ⟨[], (List.append_eq_nil_iff.mp h).1⟩
  | cons c chars ih =>
      rw [List.flatMap_cons] at h
      rcases List.append_eq_append_iff.mp h with ⟨back, hchar, hsecond⟩ | ⟨more, hfirst, hmore⟩
      · by_cases hfront : first = []
        · exact .inl ⟨[], hfront⟩
        by_cases hback : back = []
        · refine .inl ⟨[c], ?_⟩
          simp [hchar, hback]
        · exact .inr ⟨[], c, chars, first, back, rfl, hfront, hback, hchar, rfl, hsecond⟩
      · rcases ih hmore.symm with ⟨front, hfront⟩ |
          ⟨before, d, after, front, back, hchars, hfront, hback, hd, hmore', hsecond⟩
        · exact .inl ⟨c :: front, by rw [hfirst, hfront, List.flatMap_cons]⟩
        · refine .inr ⟨c :: before, d, after, front, back, by rw [hchars]; rfl, hfront, hback, hd,
            ?_, hsecond⟩
          rw [hfirst, hmore', List.flatMap_cons, List.append_assoc]

/-- Well-formed text that is cut inside a character is shown as more characters than it has. -/
theorem length_lossyFrom_lt {s : String} {first second : Bytes}
    (h : first ++ second = utf8Bytes s) (hcut : ofUtf8? first = none) :
    s.toList.length < (lossyFrom none first).length + (lossyFrom none second).length := by
  rw [utf8Bytes_eq_flatMap] at h
  rcases cut_cases h with ⟨front, hfront⟩ |
    ⟨before, c, after, front, back, hchars, hfront, hback, hc, rfl, rfl⟩
  · rw [hfront, ← utf8Bytes_ofList, ofUtf8?_utf8Bytes] at hcut
    cases hcut
  · have hcontinues : ∀ b ∈ back, IsContinuation b := by
      intro b hb
      refine isContinuation_of_mem_tail (c := c) ?_
      rw [hc, List.tail_append_of_ne_nil hfront]
      exact List.mem_append_right _ hb
    have hafter : lossyFrom none (after.flatMap String.utf8EncodeChar) = after := by
      simpa [utf8Bytes_ofList] using lossyFrom_self (String.ofList after)
    have hbefore : lossyFrom none (before.flatMap String.utf8EncodeChar ++ front) =
        before ++ lossyFrom none front := by
      simpa [utf8Bytes_ofList] using lossyFrom_utf8Bytes (String.ofList before) front
    rw [hbefore, lossyFrom_continuations hcontinues, hafter, hchars]
    have hpos := List.length_pos_iff.mpr (lossyFrom_ne_nil hfront)
    have hposBack := List.length_pos_iff.mpr hback
    simp only [List.length_append, List.length_cons, List.length_replicate]
    omega

end Ia32.Text
