import Ia32.Proofs.Machine.Straight

/-!
# Code that uses the stack

Code without jumps that pushes and pops words. The words that it changes in memory are
below the stack pointer or are named, and the code itself lies apart from them, so that
it is still in place when it comes to its end.
-/

namespace Ia32

/-! ### Memories that differ at some addresses -/

namespace Memory

variable {mem mem' : Memory} {addr : UInt32} {changed : UInt32 → Prop}

/-- Two memories with the same mapped pages that hold the same bytes except at some
addresses. -/
structure SameExcept (changed : UInt32 → Prop) (mem mem' : Memory) : Prop where
  isMapped : SameMapped mem mem'
  byteAt : ∀ a, ¬changed a → mem'.byteAt a = mem.byteAt a

namespace SameExcept

theorem refl (changed : UInt32 → Prop) (mem : Memory) : SameExcept changed mem mem :=
  ⟨fun _ => rfl, fun _ _ => rfl⟩

theorem trans {mem'' : Memory} (h : SameExcept changed mem mem')
    (h' : SameExcept changed mem' mem'') : SameExcept changed mem mem'' :=
  ⟨h.isMapped.trans h'.isMapped, fun a ha => (h'.byteAt a ha).trans (h.byteAt a ha)⟩

/-- A change within some addresses is one within more of them. -/
theorem mono {more : UInt32 → Prop} (h : SameExcept changed mem mem')
    (hmore : ∀ a, changed a → more a) : SameExcept more mem mem' :=
  ⟨h.isMapped, fun a ha => h.byteAt a (mt (hmore a) ha)⟩

/-- Outside of the changed addresses each byte is as it was. -/
theorem get? (h : SameExcept changed mem mem') {a : UInt32} (ha : ¬changed a) :
    mem'.get? a = mem.get? a := by
  rw [get?_eq, get?_eq, h.isMapped, h.byteAt a ha]

end SameExcept

/-- A change within a range of addresses. -/
theorem SameOutside.sameExcept {low high : Nat} (h : SameOutside low high mem mem') :
    SameExcept (fun a => low ≤ a.toNat ∧ a.toNat < high) mem mem' :=
  ⟨h.isMapped, fun a ha => h.byteAt a (by omega)⟩

/-- Bytes that are all as they were still stand there. -/
theorem HasBytes.same {bytes : Bytes} (h : mem.HasBytes addr bytes)
    (hsame : ∀ i < bytes.length,
      mem'.get? (addr + UInt32.ofNat i) = mem.get? (addr + UInt32.ofNat i)) :
    mem'.HasBytes addr bytes := by
  induction bytes generalizing addr with
  | nil => trivial
  | cons b rest ih =>
      obtain ⟨hfirst, hrest⟩ := h
      refine ⟨?_, ih hrest fun i hi => ?_⟩
      · have hhead := hsame 0 (Nat.succ_pos _)
        rw [add_ofNat_zero] at hhead
        exact hhead.trans hfirst
      · rw [succ_add_ofNat]
        exact hsame (i + 1) (Nat.succ_lt_succ hi)

/-- Words one behind another are read as two runs of words. -/
theorem wordsAt_append {first second : List UInt32} :
    mem.WordsAt addr (first ++ second) ↔
      mem.WordsAt addr first ∧ mem.WordsAt (addr + UInt32.ofNat (4 * first.length)) second := by
  induction first generalizing addr with
  | nil =>
      have hzero : addr + UInt32.ofNat (4 * 0) = addr := UInt32.add_zero addr
      rw [List.nil_append, List.length_nil, hzero]
      exact (and_iff_right trivial).symm
  | cons w rest ih =>
      have hnext : addr + 4 + UInt32.ofNat (4 * rest.length) =
          addr + UInt32.ofNat (4 * (w :: rest).length) := by
        rw [List.length_cons, Nat.mul_succ, UInt32.ofNat_add, UInt32.add_assoc, UInt32.add_comm 4]
        rfl
      rw [List.cons_append, WordsAt, ih, hnext, ← and_assoc]
      rfl

/-- The addresses of the bytes of a word. At the end of memory they come around. -/
def wordAddresses (addr : UInt32) : List UInt32 :=
  [addr, addr + 1, addr + 2, addr + 3]

theorem forall_mem_wordAddresses {p : UInt32 → Prop} :
    (∀ a ∈ wordAddresses addr, p a) ↔ p addr ∧ p (addr + 1) ∧ p (addr + 2) ∧ p (addr + 3) := by
  simp [wordAddresses]

theorem add_mem_wordAddresses {i : Nat} (hi : i < 4) :
    addr + UInt32.ofNat i ∈ wordAddresses addr := by
  match i, hi with
  | 0, _ => exact List.mem_cons.mpr (.inl (add_ofNat_zero addr))
  | 1, _ => exact List.mem_of_getElem? (show _[1]? = _ from rfl)
  | 2, _ => exact List.mem_of_getElem? (show _[2]? = _ from rfl)
  | 3, _ => exact List.mem_of_getElem? (show _[3]? = _ from rfl)

/-- A stored word changes its own four addresses, also where they wrap around. -/
theorem sameExcept_put (mem : Memory) (addr w : UInt32) :
    SameExcept (· ∈ wordAddresses addr) mem (mem.put addr (Word.toBytes w)) :=
  ⟨isMapped_put _ _ _, fun _ ha => byteAt_put_of_ne fun _ hi heq =>
    ha (heq ▸ add_mem_wordAddresses hi)⟩

/-- A word keeps its value where its bytes do. -/
theorem SameExcept.wordAt (h : SameExcept changed mem mem')
    (haddr : ∀ a ∈ wordAddresses addr, ¬changed a) : mem'.wordAt addr = mem.wordAt addr := by
  obtain ⟨h0, h1, h2, h3⟩ := forall_mem_wordAddresses.mp haddr
  rw [Memory.wordAt, Memory.wordAt, h.byteAt _ h0, h.byteAt _ h1, h.byteAt _ h2, h.byteAt _ h3]

/-- A word among others is at a distance of four bytes for each of those before it. -/
theorem WordsAt.read32 {words : List UInt32} (h : mem.WordsAt addr words) {i : Nat}
    (hi : i < words.length) : mem.read32 (addr + UInt32.ofNat (4 * i)) = .ok words[i] := by
  induction words generalizing addr i with
  | nil => cases hi
  | cons w rest ih =>
      obtain ⟨hfirst, hrest⟩ := h
      cases i with
      | zero =>
          have hzero : addr + UInt32.ofNat (4 * 0) = addr := UInt32.add_zero addr
          rw [hzero]
          exact hfirst
      | succ i =>
          have hnext : addr + UInt32.ofNat (4 * (i + 1)) = addr + 4 + UInt32.ofNat (4 * i) := by
            rw [Nat.mul_succ, Nat.add_comm, UInt32.ofNat_add, UInt32.add_assoc]
            rfl
          rw [hnext]
          exact ih hrest (Nat.lt_of_succ_lt_succ hi)

end Memory

/-! ### Runs of code -/

/-- Steps behind steps. -/
theorem Exec.steps_add {a b : Nat} {m m' m'' : Machine} (h : steps a m = .ok () m')
    (h' : steps b m' = .ok () m'') : steps (a + b) m = .ok () m'' := by
  induction a generalizing m with
  | zero =>
      cases h
      rwa [Nat.zero_add]
  | succ a ih =>
      obtain ⟨seen, t, hstep, hrest⟩ := action_bind_eq_ok.mp h
      rw [Nat.add_right_comm]
      exact action_bind_eq_ok.mpr ⟨seen, t, hstep, ih hrest⟩

namespace Machine

variable {changed : UInt32 → Prop} {m m' m'' : Machine} {i : Instr UInt32}
variable {is js rest : List (Instr UInt32)}

/-- Instructions come next, in memory apart from some addresses. -/
def Ready (changed : UInt32 → Prop) (m : Machine) (is : List (Instr UInt32)) : Prop :=
  ∃ bytes, m.Faces is bytes ∧ ∀ k < bytes.length, ¬changed (m.eip + UInt32.ofNat k)

/-- Instructions lead from one machine to another, and the rest comes next. -/
structure Executes (changed : UInt32 → Prop) (m : Machine) (is rest : List (Instr UInt32))
    (m' : Machine) : Prop where
  steps : Exec.steps is.length m = .ok () m'
  ready : m'.Ready changed rest

/-- No instructions need no step. -/
theorem Executes.nil (h : m.Ready changed rest) : m.Executes changed [] rest m :=
  ⟨rfl, h⟩

/-- Instructions are executed one stretch behind the other. -/
theorem Executes.trans (h : m.Executes changed is (js ++ rest) m')
    (h' : m'.Executes changed js rest m'') : m.Executes changed (is ++ js) rest m'' := by
  refine ⟨?_, h'.ready⟩
  rw [List.length_append]
  exact Exec.steps_add h.steps h'.steps

/-- The first instruction is performed. The others come next, if it changes memory at the given
addresses only. -/
theorem Ready.perform (h : m.Ready changed (i :: rest))
    (hnormal : Exec.perform m.eip i.normalize = Exec.perform m.eip i) :
    ∃ length, ∀ m', Exec.perform m.eip i (m.past length) = .ok () m' →
      (∃ seen, Exec.step m = .ok seen m') ∧
        ∀ t : Machine, t.eip = m.eip + UInt32.ofNat length →
          m.memory.SameExcept changed t.memory → t.Ready changed rest := by
  obtain ⟨bytes, ⟨hencoded, hstored⟩, hapart⟩ := h
  obtain ⟨first, hfirst, hbehind⟩ := bind_eq_ok.mp hencoded
  obtain ⟨others, hothers, hbytes⟩ := bind_eq_ok.mp hbehind
  cases hbytes
  obtain ⟨hhead, htail⟩ := Memory.hasBytes_append.mp hstored
  refine ⟨first.length, fun m' hperform => ⟨?_, fun t heip hmemory => ?_⟩⟩
  · rw [Exec.step_eq_of_normal hnormal hfirst hhead (Instr.length_encode_le hfirst)]
    exact ⟨_, action_bind_eq_ok.mpr ⟨(), m', hperform, rfl⟩⟩
  · have hplace (k : Nat) : t.eip + UInt32.ofNat k = m.eip + UInt32.ofNat (first.length + k) := by
      rw [heip, UInt32.ofNat_add, UInt32.add_assoc]
    have hbehind (k : Nat) (hk : k < others.length) : ¬changed (t.eip + UInt32.ofNat k) := by
      rw [hplace]
      exact hapart _ (by rw [List.length_append]; omega)
    refine ⟨others, ⟨heip ▸ hothers, ?_⟩, hbehind⟩
    rw [← heip] at htail
    exact htail.same fun k hk => hmemory.get? (hbehind k hk)

/-- An instruction that does not jump is executed. -/
theorem Ready.execute (h : m.Ready changed (i :: rest))
    (hnormal : Exec.perform m.eip i.normalize = Exec.perform m.eip i) :
    ∃ length, ∀ m', Exec.perform m.eip i (m.past length) = .ok () m' →
      m'.eip = m.eip + UInt32.ofNat length → m.memory.SameExcept changed m'.memory →
        m.Executes changed [i] rest m' := by
  obtain ⟨length, hperform⟩ := h.perform hnormal
  refine ⟨length, fun m' hm' heip hmemory => ?_⟩
  obtain ⟨⟨seen, hstep⟩, hrest⟩ := hperform m' hm'
  exact ⟨action_bind_eq_ok.mpr ⟨seen, m', hstep, rfl⟩, hrest m' heip hmemory⟩

/-! ### Registers -/

/-- A machine is as before except for some registers, the flags, the instruction pointer and the
step counter. -/
structure Alters (rs : List Reg) (m m' : Machine) : Prop where
  get : ∀ r ∉ rs, m'.get r = m.get r
  memory : m'.memory = m.memory
  output : m'.output = m.output
  exit : m'.exit = m.exit

variable {rs rs' : List Reg}

theorem Alters.refl (rs : List Reg) (m : Machine) : m.Alters rs m :=
  ⟨fun _ _ => rfl, rfl, rfl, rfl⟩

theorem Alters.trans (h : m.Alters rs m') (h' : m'.Alters rs m'') : m.Alters rs m'' :=
  ⟨fun r hr => (h'.get r hr).trans (h.get r hr), h'.memory.trans h.memory,
    h'.output.trans h.output, h'.exit.trans h.exit⟩

theorem Alters.mono (h : m.Alters rs m') (hrs : rs ⊆ rs') : m.Alters rs' m' :=
  ⟨fun r hr => h.get r (mt (fun hmem => hrs hmem) hr), h.memory, h.output, h.exit⟩

/-- A value is loaded into a register. -/
theorem Ready.load {r : Reg} {src : Operand UInt32} {w : UInt32}
    (h : m.Ready changed (⟨.mov, [.reg r, src]⟩ :: rest)) (hw : m.value src = .ok w) :
    ∃ m', m.Executes changed [⟨.mov, [.reg r, src]⟩] rest m' ∧ m.Alters [r] m' ∧ m'.get r = w := by
  obtain ⟨length, hperform⟩ := h.execute (Exec.perform_normalize (.load r src) m.eip)
  have hvalue : (m.past length).value src = .ok w := (m.value_past length src).trans hw
  refine ⟨(m.past length).set r w, hperform _ (Exec.perform_mov_reg.mpr ⟨w, hvalue, rfl⟩) rfl
    (.refl _ _), ⟨fun s hs => ?_, rfl, rfl, rfl⟩, Machine.get_set_self _ _ _⟩
  exact Machine.get_set_of_ne _ _ (by simpa using hs)

/-- A number is added to a register. -/
theorem Ready.add {r : Reg} {v : Int} (h : m.Ready changed (⟨.add, [.reg r, .imm v]⟩ :: rest)) :
    ∃ m', m.Executes changed [⟨.add, [.reg r, .imm v]⟩] rest m' ∧ m.Alters [r] m' ∧
      m'.get r = m.get r + Word.ofInt v := by
  obtain ⟨length, hperform⟩ := h.execute (Exec.perform_normalize (.add r (.imm v)) m.eip)
  refine ⟨_, hperform _ ((Exec.perform_alu_reg (.inl rfl)).mpr ⟨_, rfl, rfl⟩) rfl (.refl _ _),
    ⟨fun s hs => ?_, rfl, rfl, rfl⟩, Machine.get_set_self _ _ _⟩
  exact Machine.get_set_of_ne _ _ (by simpa using hs)

/-! ### Memory -/

/-- A value is stored into a word, which may change. -/
theorem Ready.save {place : Mem} {src : Operand UInt32} {w : UInt32}
    (h : m.Ready changed (⟨.mov, [.mem place, src]⟩ :: rest)) (hw : m.value src = .ok w)
    (hmapped : m.memory.MappedFrom (m.address place) 4)
    (hplace : ∀ a ∈ Memory.wordAddresses (m.address place), changed a) :
    ∃ m', m.Executes changed [⟨.mov, [.mem place, src]⟩] rest m' ∧
      m.memory.SameExcept (· ∈ Memory.wordAddresses (m.address place)) m'.memory ∧
      m'.memory.wordAt (m.address place) = w ∧ (∀ r, m'.get r = m.get r) ∧
      m'.output = m.output ∧ m'.exit = m.exit := by
  obtain ⟨length, hperform⟩ := h.execute (Exec.perform_normalize (.save place src) m.eip)
  have hvalue : (m.past length).value src = .ok w := (m.value_past length src).trans hw
  have hsame := Memory.sameExcept_put m.memory (m.address place) w
  refine ⟨(m.past length).poke (m.address place) w, hperform _ (Exec.perform_mov_mem.mpr
    ⟨w, hvalue, hmapped, rfl⟩) (by rw [eip_poke, eip_past]) ?_, ?_, ?_, fun r => ?_, ?_, ?_⟩
  · rw [memory_poke]
    exact hsame.mono hplace
  · rw [memory_poke]
    exact hsame
  · rw [memory_poke]
    exact Memory.wordAt_put hmapped w
  · rw [get_poke, get_past]
  · rw [output_poke, output_past]
  · rw [exit_poke, exit_past]

/-! ### The stack -/

/-- The addresses of some bytes below the stack pointer. -/
def Below (m : Machine) (size : Nat) (a : UInt32) : Prop :=
  (m.get .esp).toNat - size ≤ a.toNat ∧ a.toNat < (m.get .esp).toNat

instance (m : Machine) (size : Nat) (a : UInt32) : Decidable (m.Below size a) :=
  inferInstanceAs (Decidable (_ ∧ _))

/-- There are some bytes of mapped memory below the stack pointer. -/
structure Room (m : Machine) (size : Nat) : Prop where
  le : size ≤ (m.get .esp).toNat
  mapped : ∀ a, m.Below size a → m.memory.isMapped a = true

/-- A machine that has pushed some words, the last one first, and has altered some registers. -/
structure Stacked (rs : List Reg) (m : Machine) (words : List UInt32) (m' : Machine) : Prop where
  esp : (m'.get .esp).toNat + 4 * words.length = (m.get .esp).toNat
  get : ∀ r, r ≠ .esp → r ∉ rs → m'.get r = m.get r
  memory : Memory.SameOutside (m'.get .esp).toNat (m.get .esp).toNat m.memory m'.memory
  words : m'.memory.WordsAt (m'.get .esp) words
  output : m'.output = m.output
  exit : m'.exit = m.exit

variable {words : List UInt32} {w : UInt32} {size : Nat}

theorem Stacked.nil (rs : List Reg) (m : Machine) : m.Stacked rs [] m :=
  ⟨rfl, fun _ _ _ => rfl, .refl _ _ _, trivial, rfl, rfl⟩

theorem Stacked.mono (h : m.Stacked rs words m') (hrs : rs ⊆ rs') : m.Stacked rs' words m' :=
  ⟨h.esp, fun r hesp hr => h.get r hesp (mt (fun hmem => hrs hmem) hr), h.memory, h.words,
    h.output, h.exit⟩

/-- Words stay on the stack while other registers change. -/
theorem Stacked.alters (h : m.Stacked rs words m') (h' : m'.Alters rs m'') (hesp : .esp ∉ rs) :
    m.Stacked rs words m'' := by
  obtain ⟨hget, hmemory, houtput, hexit⟩ := h'
  have hsame := hget .esp hesp
  refine ⟨?_, fun r hr hrs => (hget r hrs).trans (h.get r hr hrs), ?_, ?_,
    houtput.trans h.output, hexit.trans h.exit⟩
  · rw [hsame]
    exact h.esp
  · rw [hsame, hmemory]
    exact h.memory
  · rw [hsame, hmemory]
    exact h.words

/-- What an instruction pushes comes to lie on top of the words that are there. -/
theorem Stacked.pushed {more : List UInt32} {length : Nat} (h : m.Stacked rs words m')
    (h' : Exec.Pushed (m'.past length) more m'') : m.Stacked rs (more ++ words) m'' := by
  have hesp := h.esp
  have hlt := (m.get .esp).toNat_lt
  have hesp' : (m''.get .esp).toNat + 4 * more.length = (m'.get .esp).toNat := h'.esp
  have hback : m''.get .esp + UInt32.ofNat (4 * more.length) = m'.get .esp := by
    apply UInt32.toNat_inj.mp
    rw [Memory.toNat_add_of_lt (by omega), hesp']
  have hsame : Memory.SameOutside (m''.get .esp).toNat (m'.get .esp).toNat m'.memory m''.memory :=
    h'.memory
  refine ⟨?_, fun r hr hrs => (h'.get hr).trans (h.get r hr hrs), ?_, ?_, ?_, ?_⟩
  · rw [List.length_append]
    omega
  · exact (h.memory.mono (by omega) (Nat.le_refl _)).trans (hsame.mono (Nat.le_refl _) (by omega))
  · refine Memory.wordsAt_append.mpr ⟨h'.words, ?_⟩
    rw [hback]
    exact h.words.same hsame (.inr (Nat.le_refl _)) (by omega)
  · rw [h'.others]
    exact h.output
  · rw [h'.others]
    exact h.exit

/-- An instruction that pushes words is executed. -/
theorem Ready.execute_pushed {more : List UInt32} {length : Nat}
    (hexecute : ∀ t, Exec.perform m'.eip i (m'.past length) = .ok () t →
      t.eip = m'.eip + UInt32.ofNat length → m'.memory.SameExcept changed t.memory →
        m'.Executes changed [i] rest t)
    (hstacked : m.Stacked rs words m') (hroom : m.Room size)
    (hbelow : ∀ a, m.Below size a → changed a)
    (hsize : 4 * (more.length + words.length) ≤ size)
    (hperform : Exec.perform m'.eip i (m'.past length) = .ok () m'')
    (hpushed : Exec.Pushed (m'.past length) more m'') :
    m'.Executes changed [i] rest m'' ∧ m.Stacked rs (more ++ words) m'' := by
  have hall := hstacked.pushed hpushed
  have hesp := hall.esp
  have hbefore := hstacked.esp
  have hle := hroom.le
  have hsame : Memory.SameOutside (m''.get .esp).toNat (m'.get .esp).toNat m'.memory m''.memory :=
    hpushed.memory
  rw [List.length_append] at hesp
  refine ⟨hexecute m'' hperform ?_ ?_, hall⟩
  · rw [hpushed.others]
    rfl
  · exact hsame.sameExcept.mono fun a ha => hbelow a ⟨by omega, by omega⟩

/-- A value is pushed. -/
theorem Ready.push {src : Operand UInt32} (h : m'.Ready changed (⟨.push, [src]⟩ :: rest))
    (hstacked : m.Stacked rs words m') (hw : m'.value src = .ok w)
    (hroom : m.Room size) (hbelow : ∀ a, m.Below size a → changed a)
    (hsize : 4 * (words.length + 1) ≤ size) :
    ∃ m'', m'.Executes changed [⟨.push, [src]⟩] rest m'' ∧ m.Stacked rs (w :: words) m'' := by
  have hnormal : Exec.perform m'.eip (Instr.normalize ⟨.push, [src]⟩) =
      Exec.perform m'.eip ⟨.push, [src]⟩ := by
    change (Exec.read (src.normalize false) >>= Exec.push) = (Exec.read src >>= Exec.push)
    rw [Exec.read_normalize]
  obtain ⟨length, hexecute⟩ := h.execute hnormal
  have hesp := hstacked.esp
  have hle := hroom.le
  have hmapped (a : UInt32) (hlow : (m.get .esp).toNat - size ≤ a.toNat)
      (hhigh : a.toNat < (m'.get .esp).toNat) : m'.memory.isMapped a = true :=
    (hstacked.memory.isMapped a).trans (hroom.mapped a ⟨hlow, by omega⟩)
  obtain ⟨m'', hpush, hpushed⟩ := (Exec.Pushed.nil (m'.past length)).exists_push hmapped (by
      change _ ≤ (m'.get .esp).toNat
      simp only [List.length_nil]
      omega) w
  have hperform : Exec.perform m'.eip ⟨.push, [src]⟩ (m'.past length) = .ok () m'' :=
    action_bind_eq_ok.mpr
      ⟨w, _, Exec.read_eq_ok.mpr ⟨(m'.value_past length src).trans hw, rfl⟩, hpush⟩
  exact ⟨m'', Ready.execute_pushed hexecute hstacked hroom hbelow (by simp; omega) hperform
    hpushed⟩

/-- Registers are pushed one after another. -/
theorem Ready.pushes {regs : List Reg}
    (h : m'.Ready changed (regs.map (fun r => ⟨.push, [.reg r]⟩) ++ rest))
    (hstacked : m.Stacked rs words m') (hregs : ∀ r ∈ regs, r ≠ .esp ∧ r ∉ rs)
    (hroom : m.Room size) (hbelow : ∀ a, m.Below size a → changed a)
    (hsize : 4 * (words.length + regs.length) ≤ size) :
    ∃ m'', m'.Executes changed (regs.map fun r => ⟨.push, [.reg r]⟩) rest m'' ∧
      m.Stacked rs ((regs.map m.get).reverse ++ words) m'' := by
  induction regs generalizing m' words with
  | nil => exact ⟨m', .nil h, hstacked⟩
  | cons r regs ih =>
      obtain ⟨⟨hesp, hr⟩, hregs⟩ := List.forall_mem_cons.mp hregs
      rw [List.length_cons] at hsize
      have hw : m'.value (.reg r) = .ok (m.get r) := congrArg Except.ok (hstacked.get r hesp hr)
      obtain ⟨m1, hfirst, hstacked1⟩ := Ready.push h hstacked hw hroom hbelow (by omega)
      obtain ⟨m'', hothers, hstacked'⟩ := ih hfirst.ready hstacked1 hregs
        (by rw [List.length_cons]; omega)
      refine ⟨m'', hfirst.trans hothers, ?_⟩
      rwa [List.map_cons, List.reverse_cons, List.append_assoc]

/-- All registers are pushed. -/
theorem Ready.pusha (h : m.Ready changed (⟨.pusha, []⟩ :: rest)) (hroom : m.Room 32)
    (hbelow : ∀ a, m.Below 32 a → changed a) :
    ∃ m', m.Executes changed [⟨.pusha, []⟩] rest m' ∧
      m.Stacked [] (Exec.savedOrder.map m.get) m' := by
  obtain ⟨length, hexecute⟩ := h.execute (Exec.perform_normalize .pusha m.eip)
  have hle := hroom.le
  have hmapped (a : UInt32) (hlow : (m.get .esp).toNat - 32 ≤ a.toNat)
      (hhigh : a.toNat < (m.get .esp).toNat) : m.memory.isMapped a = true :=
    hroom.mapped a ⟨hlow, hhigh⟩
  obtain ⟨m', hperform⟩ : ∃ m', Exec.perform m.eip ⟨.pusha, []⟩ (m.past length) = .ok () m' :=
    Exec.exists_pusha hmapped (by
      change _ ≤ (m.get .esp).toNat
      omega)
  have hpushed := Exec.pushed_of_pusha (m := m.past length) hle hperform
  have hsize : 4 * ((Exec.savedOrder.map (m.past length).get).length + 0) ≤ 32 := Nat.le_refl 32
  obtain ⟨hexecutes, hstacked⟩ :=
    Ready.execute_pushed hexecute (Stacked.nil [] m) hroom hbelow hsize hperform hpushed
  rw [List.append_nil] at hstacked
  exact ⟨m', hexecutes, hstacked⟩

/-- A word is popped. -/
theorem Ready.pop {r : Reg} (h : m.Ready changed (⟨.pop, [.reg r]⟩ :: rest))
    (hwords : m.memory.WordsAt (m.get .esp) (w :: words)) (hr : r ≠ .esp) :
    ∃ m', m.Executes changed [⟨.pop, [.reg r]⟩] rest m' ∧ m.Alters [.esp, r] m' ∧
      m'.get r = w ∧ m'.get .esp = m.get .esp + 4 := by
  obtain ⟨length, hexecute⟩ := h.execute (Exec.perform_normalize (.pop r) m.eip)
  refine ⟨_, hexecute _ (Exec.perform_pop_reg.mpr ⟨w, hwords.1, rfl⟩) rfl (.refl _ _),
    ⟨fun s hs => ?_, rfl, rfl, rfl⟩, Machine.get_set_self _ _ _, ?_⟩
  · simp only [List.mem_cons, List.not_mem_nil, or_false, not_or] at hs
    rw [Machine.get_set_of_ne _ _ hs.2, Machine.get_set_of_ne _ _ hs.1, get_past]
  · rw [Machine.get_set_of_ne _ _ hr.symm, Machine.get_set_self]
    rfl

/-- Words are popped into registers one after another. -/
theorem Ready.pops {regs : List Reg} {ws : List UInt32} (hlength : regs.length = ws.length)
    (h : m.Ready changed (regs.map (fun r => ⟨.pop, [.reg r]⟩) ++ rest))
    (hwords : m.memory.WordsAt (m.get .esp) ws) (hesp : .esp ∉ regs) (hnodup : regs.Nodup) :
    ∃ m', m.Executes changed (regs.map fun r => ⟨.pop, [.reg r]⟩) rest m' ∧
      m.Alters (.esp :: regs) m' ∧ (∀ pair ∈ regs.zip ws, m'.get pair.1 = pair.2) ∧
      m'.get .esp = m.get .esp + UInt32.ofNat (4 * ws.length) := by
  induction regs generalizing m ws with
  | nil =>
      obtain rfl := List.eq_nil_of_length_eq_zero hlength.symm
      exact ⟨m, .nil h, .refl _ _, by simp, (UInt32.add_zero _).symm⟩
  | cons r regs ih =>
      obtain ⟨w, ws, rfl⟩ := List.exists_cons_of_length_eq_add_one hlength.symm
      obtain ⟨hr, hregs⟩ := List.nodup_cons.mp hnodup
      have hne : .esp ≠ r := fun heq => hesp (heq ▸ List.mem_cons_self)
      obtain ⟨m1, hfirst, halters, hw, hesp1⟩ := Ready.pop h hwords hne.symm
      have hbehind : m1.memory.WordsAt (m1.get .esp) ws := by
        rw [halters.memory, hesp1]
        exact hwords.2
      obtain ⟨m', hothers, halters', hget, hesp'⟩ := ih (Nat.succ.inj hlength) hfirst.ready hbehind
        (fun hmem => hesp (List.mem_cons_of_mem _ hmem)) hregs
      refine ⟨m', hfirst.trans hothers, ?_, ?_, ?_⟩
      · exact (halters.mono (by simp)).trans (halters'.mono (by simp))
      · rw [List.zip_cons_cons, List.forall_mem_cons]
        exact ⟨(halters'.get r (by simp [hne.symm, hr])).trans hw, hget⟩
      · rw [hesp', hesp1, List.length_cons, Nat.mul_succ, Nat.add_comm, UInt32.ofNat_add,
          UInt32.add_assoc]
        rfl

/-- All registers but the stack pointer are popped. -/
theorem Ready.popa {f : Reg → UInt32} (h : m.Ready changed (⟨.popa, []⟩ :: rest))
    (hwords : m.memory.WordsAt (m.get .esp) (Exec.savedOrder.map f)) :
    ∃ m', m.Executes changed [⟨.popa, []⟩] rest m' ∧ (∀ r, r ≠ .esp → m'.get r = f r) ∧
      m'.get .esp = m.get .esp + 32 ∧ m'.memory = m.memory ∧ m'.output = m.output ∧
      m'.exit = m.exit := by
  obtain ⟨length, hexecute⟩ := h.execute (Exec.perform_normalize .popa m.eip)
  refine ⟨_, hexecute _ (Exec.perform_popa (m := m.past length) hwords) rfl (.refl _ _),
    fun r hr => ?_, rfl, rfl, rfl, rfl⟩
  cases r with
  | esp => exact absurd rfl hr
  | _ => rfl

end Machine

end Ia32
