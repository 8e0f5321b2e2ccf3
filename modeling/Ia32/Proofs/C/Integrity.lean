import Ia32.Proofs.C.Flow

/-!
# Control flow of compiled programs

A running program is always in front of one of its own instructions. The invariant says
what the stack holds: for every activation the place in the code where its caller goes on,
and for every activation with a frame the frame pointer of its caller. Nothing below the
stack is ever stored into, because a program that runs out of stack meets the memory that
is missing there first.
-/

namespace Ia32.C

open Asm Assembler

/-- A place inside the code of a function, in a phase of it. -/
structure Stands (p : Program) (r : Routine) (phase : Phase) (whole : List Item) : Prop where
  routine : r ∈ p.routines
  suffix : whole <:+ p.code.items
  flow : ∃ rest after, whole = rest ++ after ∧ Flow p.functions r r.controls phase rest

/-- A word that lies on the stack. -/
def InStack (addr : UInt32) : Prop :=
  stackBottom ≤ addr.toNat ∧ addr.toNat + 4 ≤ stackEnd

/-- The activations from a function outwards: the function has the stack from an address
on, and its caller has the given frame pointer. -/
inductive Context (p : Program) (textBase : UInt32) (mem : Memory) :
    Routine → UInt32 → UInt32 → Prop
  | start {r : Routine} (hname : r.function.name = "main") {sp : UInt32}
      (hsp : sp.toNat = stackEnd) (bp : UInt32) : Context p textBase mem r sp bp
  | plain {r caller : Routine} {whole : List Item} (hstands : Stands p caller .inside whole)
      {sp bp : UInt32} (hsp : InStack sp) (hreturn : mem.wordAt sp = addressOf p textBase whole)
      (hsize : caller.frame.size = 0) (h : Context p textBase mem caller (sp + 4) bp) :
      Context p textBase mem r sp bp
  | framed {r caller : Routine} {whole : List Item} (hstands : Stands p caller .inside whole)
      {sp bp : UInt32} (hsp : InStack sp) (hreturn : mem.wordAt sp = addressOf p textBase whole)
      (hsize : 0 < caller.frame.size) (hbp : InStack bp)
      (hframe : (sp + 4).toNat + caller.frame.size = bp.toNat)
      (h : Context p textBase mem caller (bp + 4) (mem.wordAt bp)) : Context p textBase mem r sp bp

/-- The same for a function among its statements, which has its own frame. -/
inductive Inside (p : Program) (textBase : UInt32) (mem : Memory) :
    Routine → UInt32 → UInt32 → Prop
  | plain {r : Routine} (hsize : r.frame.size = 0) {sp bp : UInt32}
      (h : Context p textBase mem r sp bp) : Inside p textBase mem r sp bp
  | framed {r : Routine} (hsize : 0 < r.frame.size) {sp bp : UInt32} (hbp : InStack bp)
      (hframe : sp.toNat + r.frame.size = bp.toNat)
      (h : Context p textBase mem r (bp + 4) (mem.wordAt bp)) : Inside p textBase mem r sp bp

section

variable {p : Program} {textBase : UInt32} {mem mem' : Memory} {r : Routine} {sp bp : UInt32}

theorem InStack.toNat_succ {addr : UInt32} (h : InStack addr) : (addr + 4).toNat = addr.toNat + 4 :=
  @Memory.toNat_add_of_lt addr 4 (by
    have hend : stackEnd = 0xBFFFF000 := rfl
    have := h.2
    omega)

/-- The stack pointer of a context is in the stack. -/
theorem Context.bounds (h : Context p textBase mem r sp bp) :
    stackBottom ≤ sp.toNat ∧ sp.toNat ≤ stackEnd := by
  have hstack : stackBottom ≤ stackEnd := by decide
  cases h with
  | start _ hsp => omega
  | plain _ hsp =>
      obtain ⟨hlow, hhigh⟩ := hsp
      omega
  | framed _ hsp =>
      obtain ⟨hlow, hhigh⟩ := hsp
      omega

/-- What lies below the activations does not matter to them. -/
theorem Context.same {low high : Nat} (h : Context p textBase mem r sp bp)
    (hsame : Memory.SameOutside low high mem mem') (hsp : high ≤ sp.toNat) :
    Context p textBase mem' r sp bp := by
  have hend : stackEnd = 0xBFFFF000 := rfl
  induction h with
  | start hname hstart bp => exact .start hname hstart bp
  | plain hstands hin hreturn hsize _ ih =>
      have hnext := hin.toNat_succ
      obtain ⟨hlow, hhigh⟩ := hin
      refine .plain hstands ⟨hlow, hhigh⟩ ?_ hsize (ih (by omega))
      rw [hsame.wordAt (by omega) (.inr hsp), hreturn]
  | @framed _ _ _ hstands sp bp hin hreturn hsize hbp hframe _ ih =>
      have hnext := hin.toNat_succ
      have hup := hbp.toNat_succ
      have hroom := hin.2
      have hroom' := hbp.2
      refine .framed hstands hin ?_ hsize hbp hframe ?_
      · rw [hsame.wordAt (by omega) (.inr hsp), hreturn]
      · rw [hsame.wordAt (by omega) (.inr (by omega))]
        exact ih (by omega)

/-- What is above the frame of a routine is kept by any change below it. -/
theorem Inside.same {low high : Nat} (h : Inside p textBase mem r sp bp)
    (hsame : Memory.SameOutside low high mem mem') (hsp : high ≤ sp.toNat + r.frame.size) :
    Inside p textBase mem' r sp bp := by
  have hend : stackEnd = 0xBFFFF000 := rfl
  cases h with
  | plain hsize h => exact .plain hsize (h.same hsame (by omega))
  | framed hsize hbp hframe h =>
      have hup := hbp.toNat_succ
      have hroom := hbp.2
      refine .framed hsize hbp hframe ?_
      rw [hsame.wordAt (by omega) (.inr (by omega))]
      exact h.same hsame (by omega)

theorem Inside.bounds (h : Inside p textBase mem r sp bp) :
    stackBottom ≤ sp.toNat + r.frame.size ∧ sp.toNat + r.frame.size ≤ stackEnd := by
  cases h with
  | plain hsize h =>
      have hbounds := h.bounds
      omega
  | framed hsize hbp hframe h =>
      obtain ⟨hlow, hhigh⟩ := hbp
      omega

/-- A call adds an activation. -/
theorem Inside.call {caller : Routine} {whole : List Item}
    (h : Inside p textBase mem caller (sp + 4) bp)
    (hstands : Stands p caller .inside whole) (hsp : InStack sp)
    (hreturn : mem.wordAt sp = addressOf p textBase whole) : Context p textBase mem r sp bp := by
  cases h with
  | plain hsize h => exact .plain hstands hsp hreturn hsize h
  | framed hsize hbp hframe h => exact .framed hstands hsp hreturn hsize hbp hframe h

/-- A function that is not the outermost one has a caller. -/
theorem Context.caller (h : Context p textBase mem r sp bp) (hname : r.function.name ≠ "main") :
    ∃ caller whole, Stands p caller .inside whole ∧ mem.wordAt sp = addressOf p textBase whole ∧
      Inside p textBase mem caller (sp + 4) bp := by
  cases h with
  | start hmain => exact absurd hmain hname
  | plain hstands hsp hreturn hsize h => exact ⟨_, _, hstands, hreturn, .plain hsize h⟩
  | framed hstands hsp hreturn hsize hbp hframe h =>
      exact ⟨_, _, hstands, hreturn, .framed hsize hbp hframe h⟩

/-- What a machine in a phase of a function holds. -/
def Fits (p : Program) (textBase : UInt32) (r : Routine) (m : Machine) : Phase → Prop
  | .entered => Context p textBase m.memory r (m.get .esp) (m.get .ebp)
  | .saved => InStack (m.get .esp) ∧ m.memory.wordAt (m.get .esp) = m.get .ebp ∧
      Context p textBase m.memory r (m.get .esp + 4) (m.get .ebp)
  | .framed => InStack (m.get .esp) ∧ m.get .ebp = m.get .esp ∧
      Context p textBase m.memory r (m.get .esp + 4) (m.memory.wordAt (m.get .esp))
  | .inside => Inside p textBase m.memory r (m.get .esp) (m.get .ebp)
  | .trapped => stackBottom ≤ (m.get .esp).toNat ∧ (m.get .esp).toNat + 32 ≤ stackEnd ∧
      Inside p textBase m.memory r (m.get .esp + 32) (m.get .ebp) ∧
      ∃ edi esi esp ebx edx ecx eax, m.memory.WordsAt (m.get .esp)
        [edi, esi, m.get .ebp, esp, ebx, edx, ecx, eax]
  | .ending => (m.get .eax).toNat = Abi.sysExit

theorem Fits.congr {m m' : Machine} {phase : Phase} (h : Fits p textBase r m phase)
    (hphase : phase ≠ .ending) (hmemory : m'.memory = m.memory) (hesp : m'.get .esp = m.get .esp)
    (hebp : m'.get .ebp = m.get .ebp) : Fits p textBase r m' phase := by
  cases phase with
  | ending => exact absurd rfl hphase
  | _ =>
      simp only [Fits, hmemory, hesp, hebp] at h ⊢
      exact h

theorem fits_outer {m : Machine} :
    Fits p textBase r m r.outer ↔ Context p textBase m.memory r (m.get .esp) (m.get .ebp) := by
  unfold Routine.outer
  split
  next hsize =>
    constructor
    · intro h
      cases h with
      | plain _ h => exact h
      | framed hpos => omega
    · exact .plain hsize
  next => exact Iff.rfl

end

/-! ### Steps -/

/-- A program whose functions keep to their frames, which are small. -/
structure Guarded (p : Program) : Prop where
  sizes : ∀ r ∈ p.routines, r.frame.size ≤ 1024
  direct : ∀ r ∈ p.routines, r.function.body.isDirect = true
  suits : ∀ r ∈ p.routines, r.function.body.piece.Suits p.functions r.frame

/-- The invariant of a run. -/
structure Sane (p : Program) (textBase : UInt32) (mem : Memory) (m : Machine) : Prop where
  kept : Kept mem m.memory
  stands : m.exit = none → ∃ r phase whole, Stands p r phase whole ∧
    m.eip = addressOf p textBase whole ∧ Fits p textBase r m phase

/-- Nothing is asked of a process that has ended. -/
theorem Sane.of_exit {p : Program} {textBase : UInt32} {mem : Memory} {m : Machine} {status : Int}
    (hkept : Kept mem m.memory) (hexit : m.exit = some status) : Sane p textBase mem m :=
  ⟨hkept, fun hnone => by rw [hexit] at hnone; cases hnone⟩

/-- Where a function starts. -/
theorem Guarded.exists_entry {p : Program} (hp : Guarded p) {r : Routine} (hr : r ∈ p.routines) :
    ∃ whole, .label (functionLabel r.function.name) :: whole <:+ p.code.items ∧
      Stands p r r.outer whole := by
  obtain ⟨before, after, hitems⟩ := Program.exists_code_split hr
  have hsuffix : .label (functionLabel r.function.name) :: (r.tail p.functions ++ after) <:+
      p.code.items := ⟨before, hitems.symm⟩
  exact ⟨_, hsuffix, hr, suffix_of_cons hsuffix, _, _, rfl,
    Routine.flow (hp.direct r hr) (hp.suits r hr)⟩

/-- Where a jump inside a function leads to. -/
theorem Guarded.exists_target {p : Program} (hp : Guarded p) {r : Routine} (hr : r ∈ p.routines)
    {name : String} (hname : name ∈ r.controls) :
    ∃ whole, .label name :: whole <:+ p.code.items ∧ Stands p r .inside whole := by
  have hflow := Routine.flow (hp.direct r hr) (hp.suits r hr)
  obtain ⟨front, behind, htail⟩ := @Routine.exists_label p.functions r name hname
  obtain ⟨before, after, hitems⟩ := Program.exists_code_split hr
  rw [Routine.items_code_eq, htail] at hitems
  have hsuffix : .label name :: (behind ++ after) <:+ p.code.items :=
    ⟨before ++ .label (functionLabel r.function.name) :: front, by simp [hitems]⟩
  rw [htail] at hflow
  exact ⟨_, hsuffix, hr, suffix_of_cons hsuffix, _, _, rfl, hflow.behind_label⟩

section

variable {p : Program} {lines : List Line} {asm : Assembly} {target : String → UInt32}
variable {textBase dataBase addr : UInt32} {mem : Memory} {m m' : Machine} {r : Routine}
variable {i : Instr String} {whole : List Item} {phase next : Phase} {u : Unit}

/-- Memory between the image and the stack is missing. -/
theorem Loaded.bottom_le (h : Loaded p lines asm target textBase dataBase mem) {mem' : Memory}
    (hkept : Kept mem mem') (hmapped : mem'.isMapped addr = true)
    (haddr : imageLimit ≤ addr.toNat) :
    stackBottom ≤ addr.toNat := by
  by_contra hlt
  rw [hkept.isMapped, h.gap addr haddr (by omega)] at hmapped
  cases hmapped

/-- A word stored above the image keeps the image. -/
theorem Kept.put {mem' : Memory} (h : Kept mem mem') (haddr : imageLimit ≤ addr.toNat)
    (hroom : addr.toNat + 4 ≤ 4294967296) (w : UInt32) :
    Kept mem (mem'.put addr (Word.toBytes w)) :=
  h.trans ((Memory.sameOutside_put_word hroom w).mono haddr hroom)

/-- What a push onto the stack does, if there is memory for it. -/
theorem Loaded.push (h : Loaded p lines asm target textBase dataBase mem)
    (hkept : Kept mem m.memory)
    (hlow : stackBottom ≤ (m.get .esp).toNat + 1024) (hhigh : (m.get .esp).toNat ≤ stackEnd)
    (hmapped : m.memory.MappedFrom (m.get .esp - 4) 4) (w : UInt32) :
    InStack (m.get .esp - 4) ∧ m.get .esp - 4 + 4 = m.get .esp ∧
      Kept mem (m.memory.put (m.get .esp - 4) (Word.toBytes w)) ∧
      (m.memory.put (m.get .esp - 4) (Word.toBytes w)).wordAt (m.get .esp - 4) = w ∧
      Memory.SameOutside (m.get .esp - 4).toNat (m.get .esp).toNat m.memory
        (m.memory.put (m.get .esp - 4) (Word.toBytes w)) := by
  obtain ⟨hlimit, hbottom, hend⟩ := places
  have hnat : (m.get .esp - 4).toNat = (m.get .esp).toNat - 4 :=
    @Memory.toNat_sub_of_le (m.get .esp) 4 (by omega)
  have hsame := @Memory.sameOutside_put_word m.memory (m.get .esp - 4) (by omega) w
  refine ⟨⟨h.bottom_le hkept hmapped.1 (by omega), by omega⟩, UInt32.sub_add_cancel _ _,
    hkept.put (by omega) (by omega) w, Memory.wordAt_put hmapped w,
    hsame.mono (Nat.le_refl _) (by omega)⟩

/-- Scratch instructions leave the memory and the stack registers alone. -/
theorem IsScratch.perform (hi : IsScratch i)
    (h : Exec.perform addr (i.resolve target) m = .ok u m') :
    m'.memory = m.memory ∧ m'.get .esp = m.get .esp ∧ m'.get .ebp = m.get .ebp ∧
      m'.eip = m.eip := by
  cases hi with
  | load hesp hebp src =>
      obtain ⟨w, -, rfl⟩ := Exec.perform_mov_reg.mp h
      simp [hesp.symm, hebp.symm]
  | add hesp hebp src =>
      obtain ⟨w, -, rfl⟩ := (Exec.perform_alu_reg (.inl rfl)).mp h
      simp [hesp.symm, hebp.symm]
  | cmp r src =>
      obtain ⟨w, -, rfl⟩ := Exec.perform_cmp_reg.mp h
      exact ⟨rfl, rfl, rfl, rfl⟩

/-- Going on behind an instruction of a function. -/
theorem Stands.sane (hstands : Stands p r phase whole) (hkept : Kept mem m.memory)
    (heip : m.eip = addressOf p textBase whole) (hfits : Fits p textBase r m phase) :
    Sane p textBase mem m :=
  ⟨hkept, fun _ => ⟨r, phase, whole, hstands, heip, hfits⟩⟩

/-- A variable lies between the stack pointer and the frame pointer. -/
theorem Inside.slot {mem : Memory} {sp : UInt32} (h : Inside p textBase mem r sp (m.get .ebp))
    (hsmall : r.frame.size ≤ 1024) {index : Nat} (hindex : index < r.frame.locals.length) :
    imageLimit ≤ (m.address (Locals.slotAt index)).toNat ∧
      sp.toNat ≤ (m.address (Locals.slotAt index)).toNat ∧
      (m.address (Locals.slotAt index)).toNat + 4 ≤ sp.toNat + r.frame.size := by
  have hsize : r.frame.size = 4 * r.frame.locals.length := Nat.mul_comm _ _
  cases h with
  | plain hzero => omega
  | framed hpos hbp hframe =>
      have hbottom : stackBottom = 0xBFEFF000 := rfl
      have hlimit : imageLimit = 0x80000000 := rfl
      have hlow := hbp.1
      have haddress := @toNat_address_slotAt m index (by omega) (by omega)
      omega

/-- A store into a variable. -/
theorem sane_save (hp : Guarded p) (hphase : phase = .inside ∨ phase = .trapped) {index : Nat}
    (hindex : index < r.frame.locals.length) {src : Operand UInt32}
    (hstands : Stands p r phase whole) (hkept : Kept mem m.memory)
    (heip : m.eip = addressOf p textBase whole) (hfits : Fits p textBase r m phase)
    (hperform : Exec.perform addr ⟨.mov, [.mem (Locals.slotAt index), src]⟩ m = .ok u m') :
    Sane p textBase mem m' := by
  have hend : stackEnd = 0xBFFFF000 := rfl
  have hsmall := hp.sizes r hstands.routine
  obtain ⟨w, -, -, rfl⟩ := Exec.perform_mov_mem.mp hperform
  rcases hphase with rfl | rfl
  · have hinside : Inside p textBase m.memory r (m.get .esp) (m.get .ebp) := hfits
    obtain ⟨himage, hlow, hhigh⟩ := hinside.slot hsmall hindex
    have hbounds := hinside.bounds
    have hkept' := hkept.put himage (by omega) w
    refine hstands.sane (by rwa [Machine.memory_poke]) (by rwa [Machine.eip_poke]) ?_
    simp only [Fits, Machine.memory_poke, Machine.get_poke]
    exact hinside.same (Memory.sameOutside_put_word (by omega) w) hhigh
  · obtain ⟨hbottom, htop, hinside, edi, esi, esp, ebx, edx, ecx, eax, hwords⟩ := hfits
    obtain ⟨himage, hlow, hhigh⟩ := hinside.slot hsmall hindex
    have hbounds := hinside.bounds
    have hnat : (m.get .esp + 32).toNat = (m.get .esp).toNat + 32 :=
      @Memory.toNat_add_of_lt (m.get .esp) 32 (by omega)
    have hsame :=
      @Memory.sameOutside_put_word m.memory (m.address (Locals.slotAt index)) (by omega) w
    have hbelow : (m.get .esp).toNat + 4 * 8 ≤ (m.address (Locals.slotAt index)).toNat := by omega
    have hroom : (m.get .esp).toNat + 4 * 8 ≤ 4294967296 := by omega
    have hkept' := hkept.put himage (by omega) w
    refine hstands.sane (by rwa [Machine.memory_poke]) (by rwa [Machine.eip_poke]) ?_
    simp only [Fits, Machine.memory_poke, Machine.get_poke]
    exact ⟨hbottom, htop, hinside.same hsame hhigh, edi, esi, esp, ebx, edx, ecx, eax,
      hwords.same hsame (.inl hbelow) hroom⟩

/-- A call of a function. -/
theorem sane_call (h : Loaded p lines asm target textBase dataBase mem) (hp : Guarded p)
    {name : String} (hname : name ∈ p.functions) (hstands : Stands p r .inside whole)
    (hkept : Kept mem m.memory) (heip : m.eip = addressOf p textBase whole)
    (hfits : Fits p textBase r m .inside)
    (hperform : Exec.perform addr ⟨.call, [.label (target (functionLabel name))]⟩ m = .ok u m') :
    Sane p textBase mem m' := by
  obtain ⟨callee, hcallee, rfl⟩ := Program.exists_routine hname
  obtain ⟨entry, hentry, hstands'⟩ := hp.exists_entry hcallee
  obtain ⟨hmapped, rfl⟩ := Exec.perform_call.mp hperform
  have hinside : Inside p textBase m.memory r (m.get .esp) (m.get .ebp) := hfits
  have hbounds := hinside.bounds
  have hsmall := hp.sizes r hstands.routine
  obtain ⟨hstack, hback, hkept', hword, hsame⟩ := h.push hkept (by omega) (by omega) hmapped m.eip
  refine hstands'.sane ?_ ?_ (fits_outer.mpr ?_)
  · simpa using hkept'
  · simpa using h.target_eq hentry
  · have hcall : Context p textBase (m.memory.put (m.get .esp - 4) (Word.toBytes m.eip)) callee
        (m.get .esp - 4) (m.get .ebp) := by
      refine Inside.call ?_ hstands hstack (hword.trans heip)
      rw [hback]
      exact hinside.same hsame (Nat.le_add_right _ _)
    simpa using hcall

/-- Saving all registers. -/
theorem sane_saveAll (h : Loaded p lines asm target textBase dataBase mem) (hp : Guarded p)
    (hstands : Stands p r .trapped whole) (hkept : Kept mem m.memory)
    (heip : m.eip = addressOf p textBase whole) (hfits : Fits p textBase r m .inside)
    (hperform : Exec.perform addr ⟨.pusha, []⟩ m = .ok u m') : Sane p textBase mem m' := by
  obtain ⟨hlimit, hbottom, hend⟩ := places
  have hinside : Inside p textBase m.memory r (m.get .esp) (m.get .ebp) := hfits
  have hbounds := hinside.bounds
  have hsmall := hp.sizes r hstands.routine
  have hpushed := Exec.pushed_of_pusha (by omega) hperform
  have hesp : (m'.get .esp).toNat + 32 = (m.get .esp).toNat := hpushed.esp
  have hback : m'.get .esp + 32 = m.get .esp := by
    apply UInt32.toNat_inj.mp
    rw [← hesp]
    exact @Memory.toNat_add_of_lt (m'.get .esp) 32 (by omega)
  have hkept' : Kept mem m'.memory :=
    hkept.trans (hpushed.memory.mono (by omega) (by omega))
  have hmapped := (Memory.read32_eq_ok.mp hpushed.words.1).1.1
  have hebp : m'.get .ebp = m.get .ebp := hpushed.get (by decide)
  have heip' : m'.eip = m.eip := by rw [hpushed.others]; rfl
  refine hstands.sane hkept' (heip'.trans heip) ⟨?_, by omega, ?_, ?_⟩
  · exact h.bottom_le hkept' hmapped (by omega)
  · rw [hback, hebp]
    exact hinside.same hpushed.memory (Nat.le_add_right _ _)
  · rw [hebp]
    exact ⟨_, _, _, _, _, _, _, hpushed.words⟩

/-- A system call ends the process or gives back a result. -/
theorem syscall_effect (h : Exec.syscall m = .ok u m') :
    m'.memory = m.memory ∧ ((∃ status, m'.exit = some status) ∨
      m'.get .esp = m.get .esp ∧ m'.get .ebp = m.get .ebp ∧ m'.eip = m.eip) := by
  rw [Exec.syscall_eq] at h
  split at h
  · cases h
    exact ⟨rfl, .inl ⟨_, rfl⟩⟩
  split at h
  · split at h
    · cases h
    · cases h
      exact ⟨rfl, .inr ⟨rfl, rfl, rfl⟩⟩
  split at h
  · cases h
    exact ⟨rfl, .inr ⟨rfl, rfl, rfl⟩⟩
  · cases h

/-- The system call that ends the process. -/
theorem sane_exit (hkept : Kept mem m.memory) (hfits : Fits p textBase r m .ending)
    (hperform : Exec.perform addr ⟨.int, [.imm Abi.syscallVector]⟩ m = .ok u m') :
    Sane p textBase mem m' := by
  have heax : (m.get .eax).toNat = Abi.sysExit := hfits
  have hexit := (Exec.syscall_eq m).symm.trans hperform
  rw [if_pos heax] at hexit
  cases hexit
  exact .of_exit hkept rfl

/-- Saving the frame pointer of the caller. -/
theorem sane_enter (h : Loaded p lines asm target textBase dataBase mem)
    (hstands : Stands p r .saved whole) (hkept : Kept mem m.memory)
    (heip : m.eip = addressOf p textBase whole) (hfits : Fits p textBase r m .entered)
    (hperform : Exec.perform addr ⟨.push, [.reg Abi.frame]⟩ m = .ok u m') :
    Sane p textBase mem m' := by
  have hcontext : Context p textBase m.memory r (m.get .esp) (m.get .ebp) := hfits
  have hbounds := hcontext.bounds
  obtain ⟨hmapped, rfl⟩ := Exec.perform_push_reg.mp hperform
  obtain ⟨hstack, hback, hkept', hword, hsame⟩ :=
    h.push hkept (by omega) (by omega) hmapped (m.get .ebp)
  have hcontext' := hcontext.same hsame (Nat.le_refl _)
  refine hstands.sane (by simpa [Abi.frame] using hkept') (by simpa using heip) ?_
  simpa [Fits, hback, Abi.frame] using And.intro hstack (And.intro hword hcontext')

/-- Making room for the variables below the frame pointer. -/
theorem sane_extend (hp : Guarded p) (hsize : 0 < r.frame.size) (hstands : Stands p r .inside whole)
    (hkept : Kept mem m.memory) (heip : m.eip = addressOf p textBase whole)
    (hfits : Fits p textBase r m .framed)
    (hperform : Exec.perform addr ⟨.sub, [.reg .esp, .imm r.frame.size]⟩ m = .ok u m') :
    Sane p textBase mem m' := by
  have hbottom : stackBottom = 0xBFEFF000 := rfl
  have hsmall := hp.sizes r hstands.routine
  obtain ⟨hstack, hebp, hcontext⟩ := hfits
  obtain ⟨w, hw, rfl⟩ := (Exec.perform_alu_reg (.inr rfl)).mp hperform
  cases hw
  have hlow := hstack.1
  have hesp : (Exec.alu .sub (m.get .esp) (Word.ofInt r.frame.size)).1.toNat =
      (m.get .esp).toNat - r.frame.size := by
    rw [Word.ofInt_natCast]
    exact Memory.toNat_sub_of_le (by omega)
  refine hstands.sane hkept heip (.framed hsize ?_ ?_ ?_)
  · simpa [hebp] using hstack
  · rw [Machine.get_set_self, hesp, Machine.get_set_of_ne _ _ (by decide),
      Machine.get_withFlags, hebp]
    omega
  · simpa [hebp] using hcontext

/-- Every instruction of a function keeps the invariant. -/
theorem Move.sane (h : Loaded p lines asm target textBase dataBase mem) (hp : Guarded p)
    (hmove : Move p.functions r r.controls phase i next) (hstands : Stands p r next whole)
    (hkept : Kept mem m.memory) (heip : m.eip = addressOf p textBase whole)
    (hfits : Fits p textBase r m phase)
    (hperform : Exec.perform addr (i.resolve target) m = .ok u m') : Sane p textBase mem m' := by
  cases hmove with
  | scratch hphase hi =>
      obtain ⟨hmemory, hesp, hebp, heip'⟩ := hi.perform hperform
      exact hstands.sane (hmemory ▸ hkept) (heip'.trans heip) (hfits.congr hphase hmemory hesp hebp)
  | save hphase hindex src => exact sane_save hp hphase hindex hstands hkept heip hfits hperform
  | jump hop hname =>
      obtain ⟨label, hsuffix, hstands'⟩ := hp.exists_target hstands.routine hname
      have hjump := (Exec.perform_jump hop _ m).symm.trans hperform
      cases hjump
      split
      · exact hstands'.sane hkept (h.target_eq hsuffix) hfits
      · exact hstands.sane hkept heip hfits
  | call hname => exact sane_call h hp hname hstands hkept heip hfits hperform
  | saveAll => exact sane_saveAll h hp hstands hkept heip hfits hperform
  | trap =>
      obtain ⟨hmemory, ⟨status, hexit⟩ | ⟨hesp, hebp, heip'⟩⟩ := syscall_effect hperform
      · exact .of_exit (hmemory ▸ hkept) hexit
      · exact hstands.sane (hmemory ▸ hkept) (heip'.trans heip)
          (hfits.congr (by decide) hmemory hesp hebp)
  | restoreAll =>
      obtain ⟨-, -, hinside, edi, esi, esp, ebx, edx, ecx, eax, hwords⟩ := hfits
      have hpopa := (Exec.perform_popa hwords).symm.trans hperform
      cases hpopa
      exact hstands.sane hkept heip hinside
  | prepare phase =>
      obtain ⟨w, hw, rfl⟩ := Exec.perform_mov_reg.mp hperform
      cases hw
      exact hstands.sane hkept heip rfl
  | finish => exact sane_exit hkept hfits hperform
  | enter => exact sane_enter h hstands hkept heip hfits hperform
  | base =>
      obtain ⟨hstack, hword, hcontext⟩ := hfits
      obtain ⟨w, hw, rfl⟩ := Exec.perform_mov_reg.mp hperform
      cases hw
      refine hstands.sane hkept heip ⟨hstack, rfl, ?_⟩
      change Context p textBase m.memory r (m.get .esp + 4) (m.memory.wordAt (m.get .esp))
      rwa [hword]
  | extend hsize => exact sane_extend hp hsize hstands hkept heip hfits hperform
  | leave hsize =>
      obtain ⟨w, hw, rfl⟩ := Exec.perform_mov_reg.mp hperform
      cases hw
      have hinside : Inside p textBase m.memory r (m.get .esp) (m.get .ebp) := hfits
      cases hinside with
      | plain hzero => omega
      | framed _ hbp _ hcontext => exact hstands.sane hkept heip ⟨hbp, rfl, hcontext⟩
  | restore =>
      obtain ⟨hstack, hebp, hcontext⟩ := hfits
      obtain ⟨w, hw, rfl⟩ := Exec.perform_pop_reg.mp hperform
      obtain ⟨-, rfl⟩ := Memory.read32_eq_ok.mp hw
      exact hstands.sane hkept heip hcontext

/-- So does the last instruction of a function. -/
theorem Ends.sane (hends : Ends r phase i) (hkept : Kept mem m.memory)
    (hfits : Fits p textBase r m phase)
    (hperform : Exec.perform addr (i.resolve target) m = .ok u m') : Sane p textBase mem m' := by
  cases hends with
  | ret hname =>
      obtain ⟨caller, whole, hstands, hreturn, hinside⟩ := (fits_outer.mp hfits).caller hname
      obtain ⟨w, hw, rfl⟩ := Exec.perform_ret.mp hperform
      obtain ⟨-, rfl⟩ := Memory.read32_eq_ok.mp hw
      exact hstands.sane hkept hreturn hinside
  | finish => exact sane_exit hkept hfits hperform

theorem Fits.past {n : Nat} (hfits : Fits p textBase r m phase) :
    Fits p textBase r (m.past n) phase := by
  cases phase <;> exact hfits

/-- A place in a function is in front of an instruction, perhaps behind labels. -/
theorem Stands.exists_instr (hstands : Stands p r phase whole)
    (heip : m.eip = addressOf p textBase whole) :
    ∃ i rest after, At p textBase (.instr i :: (rest ++ after)) m ∧
      Flow p.functions r r.controls phase (.instr i :: rest) := by
  obtain ⟨hr, hsuffix, rest, after, rfl, hflow⟩ := hstands
  induction hflow with
  | label name _ ih =>
      exact ih (heip.trans (addressOf_label p textBase name _)) (suffix_of_cons hsuffix)
  | instr hmove hflow => exact ⟨_, _, after, ⟨hsuffix, heip⟩, .instr hmove hflow⟩
  | last hends => exact ⟨_, _, after, ⟨hsuffix, heip⟩, .last hends⟩

/-- A step of a running program keeps the invariant, or fails in an access. -/
theorem Sane.step (h : Loaded p lines asm target textBase dataBase mem) (hp : Guarded p)
    (hsane : Sane p textBase mem m) (hexit : m.exit = none) :
    (∀ seen m', Exec.step m = .ok seen m' → Sane p textBase mem m') ∧
      ∀ fault m', Exec.step m = .error fault m' → fault.IsAccess := by
  obtain ⟨r, phase, whole, hstands, heip, hfits⟩ := hsane.stands hexit
  obtain ⟨i, rest, after, hat, hflow⟩ := hstands.exists_instr heip
  have hexec : i.Executable := by
    cases hflow with
    | instr hmove _ => exact hmove.executable
    | last hends => exact hends.executable
  have hkept : Kept mem (m.past (Item.instr i).size).memory := hsane.kept
  rw [h.step_eq hsane.kept hat hexec]
  constructor
  · intro seen m' hstep
    obtain ⟨_, t, hperform, hpure⟩ := action_bind_eq_ok.mp hstep
    cases hpure
    cases hflow with
    | instr hmove hflow =>
        have hnext : Stands p r _ (rest ++ after) :=
          ⟨hstands.routine, hat.past.suffix, rest, after, rfl, hflow⟩
        exact hmove.sane h hp hnext hkept hat.past.eip hfits.past hperform
    | last hends => exact hends.sane hkept hfits.past hperform
  · intro fault m' hstep
    rcases action_bind_eq_error.mp hstep with herror | ⟨_, _, -, herror⟩
    · exact Exec.accessing_perform (hexec.resolve target) _ _ _ _ herror
    · cases herror

/-- Every state that is reached is sane. The induction is on the steps. -/
theorem Sane.reaches (h : Loaded p lines asm target textBase dataBase mem) (hp : Guarded p)
    (hsane : Sane p textBase mem m) (hreaches : m.Reaches m') : Sane p textBase mem m' := by
  induction hreaches with
  | refl => exact hsane
  | tail _ hstep ih =>
      obtain ⟨hexit, seen, hstep⟩ := hstep
      exact (ih.step h hp hexit).1 seen _ hstep

end

/-- A program starts in the entry function with an empty stack. -/
theorem Loaded.sane_start {p : Program} {lines : List Line} {asm : Assembly}
    {target : String → UInt32} {textBase dataBase : UInt32} {mem : Memory}
    (h : Loaded p lines asm target textBase dataBase
      (Machine.start mem (target Abi.entryLabel)).memory)
    (hp : Guarded p) (hmain : "main" ∈ p.functions) :
    Sane p textBase (Machine.start mem (target Abi.entryLabel)).memory
      (Machine.start mem (target Abi.entryLabel)) := by
  obtain ⟨r, hr, hname⟩ := Program.exists_routine hmain
  obtain ⟨whole, hsuffix, hstands⟩ := hp.exists_entry hr
  rw [hname] at hsuffix
  refine hstands.sane (.refl _ _ _) (h.target_eq hsuffix) (fits_outer.mpr ?_)
  exact .start hname rfl _

/-! ### Programs -/

theorem Program.Legal.guarded {p : Program} {options : Options} (h : p.Legal options)
    (hlimits : options.limits = {}) (hdirect : p.Direct) (hlocal : p.Local) : Guarded p where
  sizes r hr := by
    have hlocals := (h.routines r hr).locals
    rw [hlimits] at hlocals
    have hlocals : r.frame.locals.length ≤ 256 := hlocals
    simp only [Frame.size, Abi.wordSize]
    omega
  direct r hr := hdirect r.function (Program.mem_of_mem_routines hr)
  suits r hr := h.suits hlocal hr

/-- What holds in all runs from a state. Before the process ends, the next instruction is
one of the text, at the address that the listing shows; the code stays as it is; a run that
fails has reached the step limit, touched memory that is not there or asked for a system
call that does not exist. -/
structure Confined (text : String) (asm : Assembly) (m₀ : Machine) : Prop where
  listed : ∃ lines, Line.readAll text = .ok (lines, []) ∧ ∀ m, m₀.Reaches m → m.exit = none →
    ∃ (k : Nat) (line : Line) (l : Listed) (i : Instr String), lines[k]? = some line ∧
      line.statement = some (.instr i) ∧ asm.listing[k]? = some l ∧ l.address = some m.eip
  code : ∃ textBase, asm.textBase = .ok textBase ∧ ∀ m, m₀.Reaches m →
    ∀ j < Abi.wholePages asm.code.length,
      m.memory.get? (textBase + UInt32.ofNat j) = some (asm.code.getD j 0)
  faults : ∀ limit fault, (m₀.run limit).1 = .error fault → fault = .stepLimit limit ∨
    (∃ addr, fault = .unmapped addr) ∨ ∃ number, fault = .unknownSyscall number

/-- A run is confined if it starts in a sane state. -/
theorem Loaded.confined {p : Program} {lines : List Line} {asm : Assembly}
    {target : String → UInt32} {textBase dataBase : UInt32} {mem : Memory} {m₀ : Machine}
    (h : Loaded p lines asm target textBase dataBase mem) (hp : Guarded p)
    (hstart : Sane p textBase mem m₀) {text : String}
    (hread : Line.readAll text = .ok (lines, [])) :
    Confined text asm m₀ where
  listed := by
    refine ⟨lines, hread, fun m hreaches hexit => ?_⟩
    obtain ⟨r, phase, whole, hstands, heip, -⟩ := (hstart.reaches h hp hreaches).stands hexit
    obtain ⟨i, rest, after, hat, -⟩ := hstands.exists_instr heip
    obtain ⟨front, hitems⟩ := hat.suffix
    obtain ⟨k, line, l, hline, hinstr, hlisted, haddr⟩ := h.built.placed.listed hitems.symm
    rw [← addressOf_append hitems.symm, ← hat.eip] at haddr
    exact ⟨k, line, l, i, hline, hinstr, hlisted, haddr⟩
  code := by
    refine ⟨textBase, h.built.textBase_eq, fun m hreaches j hj => ?_⟩
    have hend := h.textEnd
    have hlimit : imageLimit = 0x80000000 := rfl
    have hnat := @Memory.toNat_add_of_lt textBase j (by omega)
    rw [(hstart.reaches h hp hreaches).kept.get? (.inl (by omega)), h.code j hj]
  faults := by
    intro limit fault hrun
    rcases Machine.fault_of_run hrun with hlimit | ⟨m, last, hreaches, hexit, hfail⟩
    · exact .inl hlimit
    · exact .inr (((hstart.reaches h hp hreaches).step h hp hexit).2 _ _ hfail)

/-- Control stays inside a program that stores nothing through pointers and calls its own
functions only, however it runs. -/
theorem confined_compile {source : String} {options : Options} (hlimits : options.limits = {})
    (hcompile : (compile source options).hasError = false)
    (hmain : "main" ∈ (compile source options).functions) {p : Program}
    (hp : p.tokens = (Scan.ofSource source).tokens.map Token.kind) (hdirect : p.Direct)
    (hlocal : p.Local) {externs : SymbolTable} {asm : Assembly}
    (hasm : assemble (compile source options).asm {} externs = .ok asm) :
    ∃ file m₀, Image.ofAssembly asm = .ok file ∧ Image.load file = .ok m₀ ∧
      Confined (compile source options).asm asm m₀ := by
  have hsymbols : options.limits.symbols < 2 ^ 29 := by
    rw [hlimits]
    decide
  obtain ⟨hlegal, hown, lines, target, textBase, dataBase, hread, hbuilt⟩ :=
    exists_built hsymbols hcompile hp hmain hlocal hasm
  have hguarded := hlegal.guarded hlimits hdirect hlocal
  obtain ⟨file, mem, hfile, hload, hloaded⟩ := hbuilt.exists_loaded hasm
    (exists_image_of_compile hsymbols hcompile hasm)
  exact ⟨file, _, hfile, hload, hloaded.confined hguarded (hloaded.sane_start hguarded hown) hread⟩

/-- A function that calls itself for ever. -/
def endless : Program :=
  [⟨false, "f", .simple (.call "f" []) .done⟩, ⟨true, "main", .simple (.call "f" []) .done⟩]

theorem confined_endless :
    ∃ asm file m₀, assemble (compile "void f(){f();}int main(){f();}" {}).asm {} {} = .ok asm ∧
      Image.ofAssembly asm = .ok file ∧ Image.load file = .ok m₀ ∧
      Confined (compile "void f(){f();}int main(){f();}" {}).asm asm m₀ := by
  have hcompile : (compile "void f(){f();}int main(){f();}" {}).hasError = false := by
    decide +kernel
  have hmain : "main" ∈ (compile "void f(){f();}int main(){f();}" {}).functions := by
    decide +kernel
  have htokens : endless.tokens =
      (Scan.ofSource "void f(){f();}int main(){f();}").tokens.map Token.kind := by
    decide +kernel
  have hdirect : endless.Direct := by
    unfold Program.Direct
    decide
  have hlocal : endless.Local := by
    unfold Program.Local
    decide
  have hok : (assemble (compile "void f(){f();}int main(){f();}" {}).asm {} {}).isOk = true := by
    decide +kernel
  cases hasm : assemble (compile "void f(){f();}int main(){f();}" {}).asm {} {} with
  | error e =>
      rw [hasm] at hok
      cases hok
  | ok asm =>
      obtain ⟨file, m₀, hfile, hload, hconfined⟩ :=
        confined_compile rfl hcompile hmain htokens hdirect hlocal hasm
      exact ⟨asm, file, m₀, rfl, hfile, hload, hconfined⟩

end Ia32.C
