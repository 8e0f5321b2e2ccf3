import Ia32.Proofs.Machine.FlatMemory

/-!
# Paged memory is a flat map

The pages of a memory say which addresses are present and what they hold. So each access to a
memory is one that the rules for flat maps allow, at any addresses: accesses may run over the end
of a page, into a hole between pages, and over the end of the address space to zero.
-/

namespace Ia32

/-! ### The bytes of a memory -/

namespace Memory

variable {mem : Memory} {addr : UInt32}

/-- The bytes of a memory without its pages. -/
def flat (mem : Memory) : FlatMemory :=
  mem.get?

theorem isSome_flat (mem : Memory) (a : UInt32) : (mem.flat a).isSome = mem.isMapped a :=
  isSome_get? mem a

/-- The flat view has no byte exactly where no page is mapped. -/
theorem flat_eq_none_iff {a : UInt32} : mem.flat a = none ↔ mem.isMapped a = false := by
  rw [← isSome_flat, Option.isSome_eq_false_iff, Option.isNone_iff_eq_none]

theorem flat_empty : flat {} = fun _ => none := by
  funext a
  exact flat_eq_none_iff.mpr (isMapped_empty a)

/-! ### Accesses keep to the rules -/

/-- The loop over the pages maps what the flat rules say, with zeros. -/
theorem mapped_flat (mem : Memory) (addr : UInt32) (length : Nat) :
    mem.flat.Mapped (mem.map addr length).flat addr length where
  present a := by rw [isSome_flat, isSome_flat, isMapped_map_iff, or_comm]
  keeps a b hold := get?_map_of_get? hold addr length
  zero a b hnone hnew := by
    have hzero := byteAt_of_not_isMapped (flat_eq_none_iff.mp hnone)
    rw [flat, get?_eq, byteAt_map, hzero] at hnew
    obtain ⟨-, hb⟩ := Option.ite_none_right_eq_some.mp hnew
    exact (Option.some.inj hb).symm

/-- What is fetched are bytes that are there, one behind the other. -/
theorem holds_fetch (mem : Memory) (addr : UInt32) (bound : Nat) :
    mem.flat.Holds addr (mem.fetch addr bound) := by
  induction bound generalizing addr with
  | zero => exact FlatMemory.holds_nil
  | succ bound ih =>
      rw [fetch]
      split
      · exact FlatMemory.holds_nil
      next b hfirst => exact .cons hfirst (ih (addr + 1))

/-- No more is fetched where a byte is missing. -/
theorem present_fetch (mem : Memory) (addr : UInt32) (bound : Nat) :
    mem.flat.Present addr bound (mem.fetch addr bound).length := by
  induction bound generalizing addr with
  | zero => exact FlatMemory.present_zero
  | succ bound ih =>
      rw [FlatMemory.present_succ_iff, fetch]
      split
      next hfirst => exact .inl ⟨rfl, hfirst⟩
      next b hfirst => exact .inr ⟨_, rfl, by rw [flat, hfirst]; rfl, ih (addr + 1)⟩

/-- Reading is fetching as many bytes as asked for. -/
theorem readOnto_eq_fetch (mem : Memory) (addr : UInt32) (found : Array UInt8) (length : Nat) :
    mem.readOnto addr found length =
      if (mem.fetch addr length).length = length then
        .ok (found ++ (mem.fetch addr length).toArray)
      else .error (.unmapped (addr + UInt32.ofNat (mem.fetch addr length).length)) := by
  induction length generalizing addr found with
  | zero => simp [readOnto, fetch]
  | succ length ih =>
      rw [readOnto, fetch]
      cases mem.get? addr with
      | none => simp
      | some b => simp [ih, succ_add_ofNat]

/-- A read gives what is fetched, or the first address without a byte. -/
theorem read_eq_fetch (mem : Memory) (addr : UInt32) (length : Nat) :
    mem.read addr length =
      if (mem.fetch addr length).length = length then .ok (mem.fetch addr length)
      else .error (.unmapped (addr + UInt32.ofNat (mem.fetch addr length).length)) := by
  rw [read, readOnto_eq_fetch]
  split
  · simp [Except.map]
  · rfl

theorem littleEndian_lt (bytes : Bytes) : littleEndian bytes < 256 ^ bytes.length := by
  have hlt := Nat.ofDigits_lt_base_pow_length (b := 256) (l := bytes.map UInt8.toNat) (by decide)
    fun d hd => by
      obtain ⟨b, -, rfl⟩ := List.mem_map.mp hd
      exact b.toNat_lt
  rwa [List.length_map] at hlt

theorem littleEndian_toBytes (w : UInt32) : littleEndian (Word.toBytes w) = w.toNat := by
  have hlt := w.toNat_lt
  simp only [littleEndian, Word.toBytes, List.map_cons, List.map_nil, UInt8.toNat_ofNat',
    Nat.ofDigits_cons, Nat.ofDigits_nil]
  omega

/-- A byte is read as a stretch of one byte is. -/
theorem read8_eq_read (mem : Memory) (addr : UInt32) :
    mem.read8 addr = (mem.read addr 1).map fun bytes => UInt8.ofNat (littleEndian bytes) := by
  rw [read8, read, readOnto]
  cases mem.get? addr with
  | none => rfl
  | some b => simp [readOnto, Except.map, littleEndian]

/-- A word is read as a stretch of four bytes is, in little endian order. -/
theorem read32_eq_read (mem : Memory) (addr : UInt32) :
    mem.read32 addr = (mem.read addr 4).map fun bytes => UInt32.ofNat (littleEndian bytes) := by
  have h2 : addr + 1 + 1 = addr + 2 := by rw [UInt32.add_assoc]; rfl
  have h3 : addr + 2 + 1 = addr + 3 := by rw [UInt32.add_assoc]; rfl
  simp only [read32, read8, read, readOnto, h2, h3]
  cases mem.get? addr with
  | none => rfl
  | some b0 => cases mem.get? (addr + 1) with
    | none => rfl
    | some b1 => cases mem.get? (addr + 2) with
      | none => rfl
      | some b2 => cases mem.get? (addr + 3) with
        | none => rfl
        | some b3 =>
            change Except.ok (Word.ofBytes b0 b1 b2 b3) =
              Except.ok (UInt32.ofNat (littleEndian [b0, b1, b2, b3]))
            rw [Word.ofBytes, littleEndian]
            simp only [List.map_cons, List.map_nil, Nat.ofDigits_cons, Nat.ofDigits_nil]
            congr 2
            omega

/-- Each kind of read is a step of the flat rules that changes nothing. -/
theorem step_of_read {α : Type} {access : Access} {length : Nat} {result : Except Fault α}
    {answer : α → Answer} {value : Bytes → α} (hreads : access.Reads addr length)
    (hresult : result = (mem.read addr length).map value)
    (hreturns : ∀ bytes : Bytes, bytes.length = length →
      access.Returns bytes (answer (value bytes))) :
    mem.flat.Step access (.ofResult answer result) mem.flat := by
  rw [hresult, read_eq_fetch]
  split
  next hlength =>
    exact .readable (hlength.symm ▸ hreads) (holds_fetch mem addr length) (hreturns _ hlength)
  next hlength =>
    have hcount := present_fetch mem addr length
    exact .unreadable hreads hcount (Nat.lt_of_le_of_ne hcount.le hlength)

/-- Storing reaches every address in front of the first absent one. -/
theorem write_eq_put {bytes : Bytes} {count : Nat}
    (h : mem.flat.Present addr bytes.length count) :
    mem.write addr bytes = (mem.put addr (bytes.take count),
      if count = bytes.length then .ok ()
      else .error (.unmapped (addr + UInt32.ofNat count))) := by
  induction bytes generalizing mem addr count with
  | nil =>
      cases Nat.le_zero.mp h.le
      rfl
  | cons b rest ih =>
      rw [write]
      rcases FlatMemory.present_succ_iff.mp h with ⟨rfl, hfirst⟩ | ⟨k, rfl, hfirst, h⟩
      · rw [flat_eq_none_iff.mp hfirst]
        simp [put]
      · rw [isSome_flat] at hfirst
        have hsame (a : UInt32) : ((mem.set addr b).flat a).isSome = (mem.flat a).isSome := by
          rw [isSome_flat, isSome_flat, isMapped_set]
        rw [if_pos hfirst, ih (h.congr hsame), succ_add_ofNat]
        simp [put]

/-- Bytes put on mapped pages are stored as the flat rules say. -/
theorem stored_put {bytes : Bytes}
    (h : ∀ i < bytes.length, (mem.flat (addr + UInt32.ofNat i)).isSome) :
    mem.flat.Stored (mem.put addr bytes).flat addr bytes where
  present a := by rw [isSome_flat, isSome_flat, isMapped_put]
  stored i hi hlast := by
    have hmapped := (isSome_flat mem _).symm.trans (h i hi)
    rw [flat, get?_of_isMapped ((isMapped_put mem addr bytes _).trans hmapped),
      byteAt_put_place hi hmapped hlast]
  others a hothers := by
    rw [flat, flat, get?_eq, get?_eq, isMapped_put, byteAt_put_of_ne hothers]

/-- Each kind of write is a step of the flat rules. -/
theorem step_of_write {access : Access} {bytes : Bytes} (hwrites : access.Writes addr bytes) :
    mem.flat.Step access (.ofResult (fun _ => .done) (mem.write addr bytes).2)
      (mem.write addr bytes).1.flat := by
  have hcount := present_fetch mem addr bytes.length
  generalize (mem.fetch addr bytes.length).length = count at hcount
  have hstored : mem.flat.Stored (mem.put addr (bytes.take count)).flat addr (bytes.take count) :=
    stored_put fun i hi => hcount.present i (by simp at hi; omega)
  rw [write_eq_put hcount]
  by_cases hall : count = bytes.length
  · rw [if_pos hall]
    rw [hall, List.take_length] at hstored ⊢
    exact .write hwrites (hall ▸ hcount) hstored
  · rw [if_neg hall]
    exact .unwritable hwrites hcount (Nat.lt_of_le_of_ne hcount.le hall) hstored

/-- Every access is one that the rules allow. -/
theorem step_perform (mem : Memory) (access : Access) :
    mem.flat.Step access (mem.perform access).1 (mem.perform access).2.flat := by
  cases access with
  | map addr length => exact .map (mapped_flat mem addr length)
  | read8 addr =>
      refine step_of_read .read8 (read8_eq_read mem addr) fun bytes hlength => ?_
      obtain ⟨b, rfl⟩ := List.length_eq_one_iff.mp hlength
      simpa [littleEndian] using Access.Returns.byte
  | read32 addr =>
      refine step_of_read .read32 (read32_eq_read mem addr) fun bytes hlength => .word ?_
      have hlt := littleEndian_lt bytes
      rw [hlength] at hlt
      exact (UInt32.toNat_ofNat_of_lt' hlt).symm
  | read addr length =>
      have hresult : mem.read addr length = (mem.read addr length).map id := by
        cases mem.read addr length <;> rfl
      exact step_of_read .read hresult fun bytes _ => .bytes
  | fetch addr bound => exact .fetch (holds_fetch mem addr bound) (present_fetch mem addr bound)
  | write8 addr value => exact step_of_write .write8
  | write32 addr value =>
      exact step_of_write (.write32 (Word.length_toBytes value) (littleEndian_toBytes value))
  | write addr bytes => exact step_of_write .write

/-- Any number of accesses are as the rules allow. -/
theorem steps_performAll (mem : Memory) (accesses : List Access) :
    mem.flat.Steps accesses (mem.performAll accesses).1 (mem.performAll accesses).2.flat := by
  induction accesses generalizing mem with
  | nil => exact .nil
  | cons access rest ih => exact .cons (step_perform mem access) (ih _)

/-- A memory is a flat map, empty at first: a sequence of accesses gives the answers and leaves
the bytes that the rules for flat maps allow, and they allow no others. Mapping enters the pages
of its range one after another and comes to an end, with the last page of all at the latest; then
the pages that meet the range are mapped besides those that were. -/
theorem performAll_flat :
    flat {} = (fun _ => none) ∧
    (∀ (mem : Memory) (accesses : List Access) (answers : List Answer) (flat : FlatMemory),
      mem.flat.Steps accesses answers flat ↔
        answers = (mem.performAll accesses).1 ∧ flat = (mem.performAll accesses).2.flat) ∧
    ∀ (mem : Memory) (addr : UInt32) (length : Nat) (other : UInt32),
      (mem.map addr length).isMapped other = true ↔
        PageMeets other addr.toNat (min (addr.toNat + length) 4294967296) ∨
          mem.isMapped other = true := by
  refine ⟨flat_empty, fun mem accesses answers flat => ?_, fun mem addr length other =>
    isMapped_map_iff⟩
  constructor
  · intro h
    exact h.unique (steps_performAll mem accesses)
  · rintro ⟨rfl, rfl⟩
    exact steps_performAll mem accesses

end Memory

end Ia32
