import Ia32.Proofs.Machine.Memory

/-!
# Flat maps of bytes

A memory is used through its accesses. What they answer and what they leave is told here by rules
for a map from addresses to bytes that knows no pages: an address is present or absent, and an
access gets as far as the first absent address. The rules allow one answer to each access, and one
map behind it.
-/

namespace Ia32

/-! ### Accesses -/

namespace Memory

/-- The ways to use a memory. -/
inductive Access where
  | map (addr : UInt32) (length : Nat)
  | read8 (addr : UInt32)
  | read32 (addr : UInt32)
  | read (addr : UInt32) (length : Nat)
  | fetch (addr : UInt32) (length : Nat)
  | write8 (addr : UInt32) (value : UInt8)
  | write32 (addr value : UInt32)
  | write (addr : UInt32) (bytes : Bytes)

/-- What an access gives back. -/
inductive Answer where
  | done
  | byte (b : UInt8)
  | word (w : UInt32)
  | bytes (bs : Bytes)
  | fault (f : Fault)

/-- The answer that stands for a result. -/
def Answer.ofResult {α : Type} (answer : α → Answer) : Except Fault α → Answer
  | .ok a => answer a
  | .error f => .fault f

/-- One access: its answer, and the memory behind it. -/
def perform (mem : Memory) : Access → Answer × Memory
  | .map addr length => (.done, mem.map addr length)
  | .read8 addr => (.ofResult .byte (mem.read8 addr), mem)
  | .read32 addr => (.ofResult .word (mem.read32 addr), mem)
  | .read addr length => (.ofResult .bytes (mem.read addr length), mem)
  | .fetch addr length => (.bytes (mem.fetch addr length), mem)
  | .write8 addr value =>
      let (mem, result) := mem.write8 addr value
      (.ofResult (fun _ => .done) result, mem)
  | .write32 addr value =>
      let (mem, result) := mem.write32 addr value
      (.ofResult (fun _ => .done) result, mem)
  | .write addr bytes =>
      let (mem, result) := mem.write addr bytes
      (.ofResult (fun _ => .done) result, mem)

/-- Accesses one after another. -/
def performAll (mem : Memory) : List Access → List Answer × Memory
  | [] => ([], mem)
  | access :: rest =>
      let (answer, next) := mem.perform access
      let (answers, last) := next.performAll rest
      (answer :: answers, last)

/-- The addresses that an access has to read, all of them or none. -/
inductive Access.Reads : Access → UInt32 → Nat → Prop
  | read8 {addr : UInt32} : Reads (.read8 addr) addr 1
  | read32 {addr : UInt32} : Reads (.read32 addr) addr 4
  | read {addr : UInt32} {length : Nat} : Reads (.read addr length) addr length

/-- The number that bytes stand for, low byte first. -/
def littleEndian (bytes : Bytes) : Nat :=
  Nat.ofDigits 256 (bytes.map UInt8.toNat)

/-- The answer to an access that has read bytes. -/
inductive Access.Returns : Access → Bytes → Answer → Prop
  | byte {addr : UInt32} {b : UInt8} : Returns (.read8 addr) [b] (.byte b)
  | word {addr w : UInt32} {bytes : Bytes} (h : littleEndian bytes = w.toNat) :
      Returns (.read32 addr) bytes (.word w)
  | bytes {addr : UInt32} {length : Nat} {bytes : Bytes} :
      Returns (.read addr length) bytes (.bytes bytes)

/-- The bytes that an access stores from an address on. -/
inductive Access.Writes : Access → UInt32 → Bytes → Prop
  | write8 {addr : UInt32} {value : UInt8} : Writes (.write8 addr value) addr [value]
  | write32 {addr value : UInt32} {bytes : Bytes} (hlength : bytes.length = 4)
      (hvalue : littleEndian bytes = value.toNat) : Writes (.write32 addr value) addr bytes
  | write {addr : UInt32} {bytes : Bytes} : Writes (.write addr bytes) addr bytes

end Memory

/-! ### Flat maps -/

/-- A map from the addresses that are present to the bytes there. -/
abbrev FlatMemory := UInt32 → Option UInt8

namespace FlatMemory

open Memory (Access Answer PageMeets littleEndian)

/-- How many addresses are present from an address on, up to a bound or to the first absent one.
Behind the last address of all comes zero. -/
structure Present (flat : FlatMemory) (addr : UInt32) (bound count : Nat) : Prop where
  le : count ≤ bound
  present : ∀ i < count, (flat (addr + UInt32.ofNat i)).isSome
  absent : count < bound → flat (addr + UInt32.ofNat count) = none

/-- Bytes stand one behind another from an address on. -/
def Holds (flat : FlatMemory) (addr : UInt32) (bytes : Bytes) : Prop :=
  ∀ i (h : i < bytes.length), flat (addr + UInt32.ofNat i) = some bytes[i]

/-- One map is another one after a range has been mapped: the addresses whose pages meet the range
are present too, and new ones hold zero. -/
structure Mapped (flat flat' : FlatMemory) (addr : UInt32) (length : Nat) : Prop where
  present : ∀ a, (flat' a).isSome ↔
    (flat a).isSome ∨ PageMeets a addr.toNat (min (addr.toNat + length) 4294967296)
  keeps : ∀ a b, flat a = some b → flat' a = some b
  zero : ∀ a b, flat a = none → flat' a = some b → b = 0

/-- One map is another one after bytes have been stored. Only more bytes than there are addresses
meet an address twice, and then the last byte counts. -/
structure Stored (flat flat' : FlatMemory) (addr : UInt32) (bytes : Bytes) : Prop where
  present : ∀ a, (flat' a).isSome = (flat a).isSome
  stored : ∀ i (h : i < bytes.length),
    (∀ j, i < j → j < bytes.length → addr + UInt32.ofNat j ≠ addr + UInt32.ofNat i) →
      flat' (addr + UInt32.ofNat i) = some bytes[i]
  others : ∀ a, (∀ i < bytes.length, addr + UInt32.ofNat i ≠ a) → flat' a = flat a

/-- What an access may answer, and the map that it leaves. -/
inductive Step (flat : FlatMemory) : Access → Answer → FlatMemory → Prop
  | map {addr : UInt32} {length : Nat} {flat' : FlatMemory} (h : flat.Mapped flat' addr length) :
      Step flat (.map addr length) .done flat'
  | fetch {addr : UInt32} {bound : Nat} {bytes : Bytes} (h : flat.Holds addr bytes)
      (hcount : flat.Present addr bound bytes.length) :
      Step flat (.fetch addr bound) (.bytes bytes) flat
  | readable {access : Access} {addr : UInt32} {bytes : Bytes} {answer : Answer}
      (h : access.Reads addr bytes.length) (hholds : flat.Holds addr bytes)
      (hanswer : access.Returns bytes answer) : Step flat access answer flat
  | unreadable {access : Access} {addr : UInt32} {length count : Nat}
      (h : access.Reads addr length) (hcount : flat.Present addr length count)
      (hlt : count < length) :
      Step flat access (.fault (.unmapped (addr + UInt32.ofNat count))) flat
  | write {access : Access} {addr : UInt32} {bytes : Bytes} {flat' : FlatMemory}
      (h : access.Writes addr bytes) (hcount : flat.Present addr bytes.length bytes.length)
      (hstored : flat.Stored flat' addr bytes) : Step flat access .done flat'
  | unwritable {access : Access} {addr : UInt32} {bytes : Bytes} {count : Nat}
      {flat' : FlatMemory} (h : access.Writes addr bytes)
      (hcount : flat.Present addr bytes.length count) (hlt : count < bytes.length)
      (hstored : flat.Stored flat' addr (bytes.take count)) :
      Step flat access (.fault (.unmapped (addr + UInt32.ofNat count))) flat'

/-- What a sequence of accesses may answer, and the map that it leaves. -/
inductive Steps : FlatMemory → List Access → List Answer → FlatMemory → Prop
  | nil {flat : FlatMemory} : Steps flat [] [] flat
  | cons {flat next last : FlatMemory} {access : Access} {rest : List Access} {answer : Answer}
      {answers : List Answer} (h : flat.Step access answer next)
      (hrest : Steps next rest answers last) :
      Steps flat (access :: rest) (answer :: answers) last

/-! ### The rules determine answers -/

variable {flat flat' flat'' : FlatMemory} {addr : UInt32} {bound count count' : Nat}

/-- The first missing byte is determined. -/
theorem Present.unique (h : flat.Present addr bound count) (h' : flat.Present addr bound count') :
    count = count' := by
  have hno {k k' : Nat} (hk : flat.Present addr bound k) (hk' : flat.Present addr bound k') :
      ¬k < k' := by
    intro hlt
    have hsome := hk'.present k hlt
    rw [hk.absent (Nat.lt_of_lt_of_le hlt hk'.le)] at hsome
    cases hsome
  exact Nat.le_antisymm (Nat.le_of_not_lt (hno h' h)) (Nat.le_of_not_lt (hno h h'))

theorem Holds.present {bytes : Bytes} (h : flat.Holds addr bytes) :
    flat.Present addr bytes.length bytes.length where
  le := Nat.le_refl _
  present i hi := by rw [h i hi]; rfl
  absent hlt := absurd hlt (Nat.lt_irrefl _)

theorem Holds.unique {bytes bytes' : Bytes} (h : flat.Holds addr bytes)
    (h' : flat.Holds addr bytes') (hlength : bytes.length = bytes'.length) : bytes = bytes' := by
  refine List.ext_getElem hlength fun i hi hi' => ?_
  have hbyte := (h i hi).symm.trans (h' i hi')
  exact Option.some.inj hbyte

theorem Mapped.unique {length : Nat} (h : flat.Mapped flat' addr length)
    (h' : flat.Mapped flat'' addr length) : flat' = flat'' := by
  funext a
  cases hold : flat a with
  | some b => rw [h.keeps a b hold, h'.keeps a b hold]
  | none =>
      have hsame : (flat' a).isSome ↔ (flat'' a).isSome := (h.present a).trans (h'.present a).symm
      cases hnew : flat' a with
      | none => cases hnew' : flat'' a with
        | none => rfl
        | some b' => simp [hnew, hnew'] at hsame
      | some b => cases hnew' : flat'' a with
        | none => simp [hnew, hnew'] at hsame
        | some b' => rw [h.zero a b hold hnew, h'.zero a b' hold hnew']

theorem Stored.unique {bytes : Bytes} (h : flat.Stored flat' addr bytes)
    (h' : flat.Stored flat'' addr bytes) : flat' = flat'' := by
  funext a
  by_cases hmet : ∃ i < bytes.length, addr + UInt32.ofNat i = a
  · -- the last place that meets the address
    let meets := fun i => i < bytes.length ∧ addr + UInt32.ofNat i = a
    obtain ⟨i, hi⟩ := hmet
    have hspec : meets (Nat.findGreatest meets bytes.length) :=
      Nat.findGreatest_spec (Nat.le_of_lt hi.1) hi
    obtain ⟨hlt, hplace⟩ := hspec
    have hlast : ∀ j, Nat.findGreatest meets bytes.length < j → j < bytes.length →
        addr + UInt32.ofNat j ≠ addr + UInt32.ofNat (Nat.findGreatest meets bytes.length) :=
      fun j hj hjlt heq =>
        Nat.findGreatest_is_greatest hj (Nat.le_of_lt hjlt) ⟨hjlt, heq.trans hplace⟩
    rw [← hplace, h.stored _ hlt hlast, h'.stored _ hlt hlast]
  · have hothers : ∀ i < bytes.length, addr + UInt32.ofNat i ≠ a :=
      fun i hi heq => hmet ⟨i, hi, heq⟩
    rw [h.others a hothers, h'.others a hothers]

/-- Bytes of one length are determined by their number. -/
theorem littleEndian_inj {bytes bytes' : Bytes} (hlength : bytes.length = bytes'.length)
    (h : littleEndian bytes = littleEndian bytes') : bytes = bytes' := by
  have hdigit {bs : Bytes} : ∀ d ∈ bs.map UInt8.toNat, d < 256 := by
    intro d hd
    obtain ⟨b, -, rfl⟩ := List.mem_map.mp hd
    exact b.toNat_lt
  have hdigits := Nat.ofDigits_inj_of_len_eq (by decide) (by simpa using hlength) hdigit hdigit h
  exact List.map_injective_iff.mpr (fun _ _ => UInt8.toNat_inj.mp) hdigits

theorem reads_unique {access : Access} {addr addr' : UInt32} {length length' : Nat}
    (h : access.Reads addr length) (h' : access.Reads addr' length') :
    addr = addr' ∧ length = length' := by
  cases h <;> cases h' <;> exact ⟨rfl, rfl⟩

theorem writes_unique {access : Access} {addr addr' : UInt32} {bytes bytes' : Bytes}
    (h : access.Writes addr bytes) (h' : access.Writes addr' bytes') :
    addr = addr' ∧ bytes = bytes' := by
  cases h with
  | write8 => cases h'; exact ⟨rfl, rfl⟩
  | write => cases h'; exact ⟨rfl, rfl⟩
  | write32 hlength hvalue =>
      cases h' with
      | write32 hlength' hvalue' =>
          exact ⟨rfl, littleEndian_inj (hlength.trans hlength'.symm) (hvalue.trans hvalue'.symm)⟩

/-- No access both reads and writes. -/
theorem not_writes_of_reads {access : Access} {addr addr' : UInt32} {length : Nat} {bytes : Bytes}
    (h : access.Reads addr length) : ¬access.Writes addr' bytes := by
  intro h'
  cases h <;> cases h'

theorem returns_unique {access : Access} {bytes : Bytes} {answer answer' : Answer}
    (h : access.Returns bytes answer) (h' : access.Returns bytes answer') : answer = answer' := by
  cases h with
  | byte => cases h'; rfl
  | bytes => cases h'; rfl
  | word h =>
      cases h' with
      | word h' => rw [UInt32.toNat_inj.mp (h.symm.trans h')]

/-- Each access has one answer, and leaves one map. -/
theorem Step.unique {access : Access} {answer answer' : Answer}
    (h : flat.Step access answer flat') (h' : flat.Step access answer' flat'') :
    answer = answer' ∧ flat' = flat'' := by
  cases h with
  | map h =>
      cases h' with
      | map h' => exact ⟨rfl, h.unique h'⟩
      | readable h' | unreadable h' | write h' | unwritable h' => cases h'
  | fetch h hcount =>
      cases h' with
      | fetch h' hcount' =>
          cases h.unique h' (hcount.unique hcount')
          exact ⟨rfl, rfl⟩
      | readable h' | unreadable h' | write h' | unwritable h' => cases h'
  | readable h hholds hanswer =>
      cases h' with
      | map | fetch => cases h
      | readable h' hholds' hanswer' =>
          obtain ⟨rfl, hlength⟩ := reads_unique h h'
          cases hholds.unique hholds' hlength
          exact ⟨returns_unique hanswer hanswer', rfl⟩
      | unreadable h' hcount hlt =>
          obtain ⟨rfl, rfl⟩ := reads_unique h h'
          exact absurd hlt (hcount.unique hholds.present ▸ Nat.lt_irrefl _)
      | write h' | unwritable h' => exact absurd h' (not_writes_of_reads h)
  | unreadable h hcount hlt =>
      cases h' with
      | map | fetch => cases h
      | readable h' hholds =>
          obtain ⟨rfl, rfl⟩ := reads_unique h h'
          exact absurd hlt (hcount.unique hholds.present ▸ Nat.lt_irrefl _)
      | unreadable h' hcount' =>
          obtain ⟨rfl, rfl⟩ := reads_unique h h'
          rw [hcount.unique hcount']
          exact ⟨rfl, rfl⟩
      | write h' | unwritable h' => exact absurd h' (not_writes_of_reads h)
  | write h hcount hstored =>
      cases h' with
      | map | fetch => cases h
      | readable h' | unreadable h' => exact absurd h (not_writes_of_reads h')
      | write h' _ hstored' =>
          obtain ⟨rfl, rfl⟩ := writes_unique h h'
          exact ⟨rfl, hstored.unique hstored'⟩
      | unwritable h' hcount' hlt =>
          obtain ⟨rfl, rfl⟩ := writes_unique h h'
          exact absurd hlt (hcount.unique hcount' ▸ Nat.lt_irrefl _)
  | unwritable h hcount hlt hstored =>
      cases h' with
      | map | fetch => cases h
      | readable h' | unreadable h' => exact absurd h (not_writes_of_reads h')
      | write h' hcount' =>
          obtain ⟨rfl, rfl⟩ := writes_unique h h'
          exact absurd hlt (hcount.unique hcount' ▸ Nat.lt_irrefl _)
      | unwritable h' hcount' _ hstored' =>
          obtain ⟨rfl, rfl⟩ := writes_unique h h'
          cases hcount.unique hcount'
          exact ⟨rfl, hstored.unique hstored'⟩

/-- The flat rules leave no choice: answers and memory are determined by the accesses. -/
theorem Steps.unique {accesses : List Access} {answers answers' : List Answer}
    (h : flat.Steps accesses answers flat') (h' : flat.Steps accesses answers' flat'') :
    answers = answers' ∧ flat' = flat'' := by
  induction h generalizing answers' with
  | nil =>
      cases h'
      exact ⟨rfl, rfl⟩
  | cons h _ ih =>
      cases h' with
      | cons h' hrest' =>
          obtain ⟨rfl, rfl⟩ := h.unique h'
          obtain ⟨rfl, rfl⟩ := ih hrest'
          exact ⟨rfl, rfl⟩

/-! ### Places that follow one another -/

/-- One more place is counted if the first one is present. -/
theorem present_succ_iff : flat.Present addr (bound + 1) count ↔
    (count = 0 ∧ flat addr = none) ∨
      ∃ k, count = k + 1 ∧ (flat addr).isSome ∧ flat.Present (addr + 1) bound k := by
  constructor
  · intro h
    cases count with
    | zero => exact .inl ⟨rfl, Memory.add_ofNat_zero addr ▸ h.absent (Nat.succ_pos _)⟩
    | succ k =>
        refine .inr ⟨k, rfl, Memory.add_ofNat_zero addr ▸ h.present 0 (Nat.succ_pos _), ?_⟩
        constructor
        · exact Nat.le_of_succ_le_succ h.le
        · intro i hi
          rw [Memory.succ_add_ofNat]
          exact h.present (i + 1) (Nat.succ_lt_succ hi)
        · intro hlt
          rw [Memory.succ_add_ofNat]
          exact h.absent (Nat.succ_lt_succ hlt)
  · rintro (⟨rfl, hfirst⟩ | ⟨k, rfl, hfirst, h⟩)
    · exact ⟨Nat.zero_le _, fun i hi => absurd hi (Nat.not_lt_zero i), fun _ =>
        (Memory.add_ofNat_zero addr).symm ▸ hfirst⟩
    · constructor
      · exact Nat.succ_le_succ h.le
      · intro i hi
        cases i with
        | zero => exact (Memory.add_ofNat_zero addr).symm ▸ hfirst
        | succ i =>
            rw [← Memory.succ_add_ofNat]
            exact h.present i (Nat.lt_of_succ_lt_succ hi)
      · intro hlt
        rw [← Memory.succ_add_ofNat]
        exact h.absent (Nat.lt_of_succ_lt_succ hlt)

theorem present_zero : flat.Present addr 0 0 :=
  ⟨Nat.le_refl _, fun i hi => absurd hi (Nat.not_lt_zero i), fun h => absurd h (Nat.lt_irrefl _)⟩

theorem holds_nil : flat.Holds addr [] :=
  fun i hi => absurd hi (Nat.not_lt_zero i)

theorem Holds.cons {b : UInt8} {rest : Bytes} (hfirst : flat addr = some b)
    (hrest : flat.Holds (addr + 1) rest) : flat.Holds addr (b :: rest) := by
  intro i hi
  cases i with
  | zero => exact (Memory.add_ofNat_zero addr).symm ▸ hfirst
  | succ i =>
      rw [← Memory.succ_add_ofNat]
      exact hrest i (Nat.lt_of_succ_lt_succ hi)

/-- Only which addresses are present counts. -/
theorem Present.congr (h : flat.Present addr bound count)
    (hsame : ∀ a, (flat' a).isSome = (flat a).isSome) : flat'.Present addr bound count where
  le := h.le
  present i hi := (hsame _).trans (h.present i hi)
  absent hlt := by
    have hnone := hsame (addr + UInt32.ofNat count)
    rw [h.absent hlt] at hnone
    exact Option.not_isSome_iff_eq_none.mp (by simp [hnone])

end FlatMemory

end Ia32
