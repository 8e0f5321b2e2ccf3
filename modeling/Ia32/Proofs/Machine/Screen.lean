import Ia32.Machine.Screen
import Ia32.Proofs.Machine.Output
import Ia32.Proofs.Text.Lenient

/-!
# When the screen shows what a process writes

What is new is shown after every instruction, and read as text by itself. So the screen shows a
well-formed output exactly if no system call ends inside a character.
-/

namespace Ia32

/-- How much had been written behind every executed instruction of a run. -/
def Machine.outputSizes (limit : Nat) (m : Machine) : List Nat :=
  (m.runWith (fun sizes _ _ after => sizes ++ [after.output.size]) [] limit).2.1

namespace Screen

/-! ### Printed text -/

/-- The characters that are shown for an output that grows, when a part of it has been shown. -/
def chunks : Nat → List Bytes → List Char
  | _, [] => []
  | shown, output :: rest =>
      Text.lossyFrom none (output.drop shown) ++ chunks output.length rest

theorem text_print (screen : Screen) (text : String) :
    (screen.print text).text = screen.text ++ text := by
  simp [Screen.text, print, String.join, List.foldl_append]

/-- An echo shows what is new in the output, decoded by itself. -/
theorem echo_eq (screen : Screen) (addr : UInt32) (i : Instr UInt32) (m : Machine) :
    (echo false screen addr i m).text.toList =
        screen.text.toList ++ Text.lossyFrom none (m.output.toList.drop screen.shown) ∧
      (echo false screen addr i m).shown = m.output.size := by
  unfold echo
  split
  next hsame =>
    rw [← hsame, ← Array.length_toList, List.drop_length]
    exact ⟨(List.append_nil _).symm, rfl⟩
  next =>
    refine ⟨?_, rfl⟩
    change (screen.print (Text.ofUtf8Lossy _)).text.toList = _
    rw [text_print, String.toList_append, Text.ofUtf8Lossy, String.toList_ofList]

/-- What the screen shows after some instructions. -/
theorem text_foldl_echo (trail : List (UInt32 × Instr UInt32 × Machine)) (screen : Screen) :
    (trail.foldl (fun screen e => echo false screen e.1 e.2.1 e.2.2) screen).text.toList =
      screen.text.toList ++ chunks screen.shown (trail.map fun e => e.2.2.output.toList) := by
  induction trail generalizing screen with
  | nil => exact (List.append_nil _).symm
  | cons e rest ih =>
      obtain ⟨htext, hshown⟩ := echo_eq screen e.1 e.2.1 e.2.2
      rw [List.foldl_cons, ih, htext, hshown, List.append_assoc]
      rfl

theorem chunks_append (shown : Nat) (first : List Bytes) (output : Bytes) (rest : List Bytes) :
    chunks shown (first ++ output :: rest) =
      chunks shown (first ++ [output]) ++ chunks output.length rest := by
  induction first generalizing shown with
  | nil => simp [chunks]
  | cons o first ih => simp [chunks, ih]

/-! ### Outputs that grow -/

variable {base final : Bytes} {outputs : List Bytes}

/-- An output that grows to a final one. -/
structure Growth (base : Bytes) (outputs : List Bytes) (final : Bytes) : Prop where
  chain : (base :: outputs).IsChain (· <+: ·)
  last : (base :: outputs).getLast (List.cons_ne_nil _ _) = final

theorem Growth.tail {output : Bytes} (h : Growth base (output :: outputs) final) :
    base <+: output ∧ Growth output outputs final := by
  obtain ⟨hfirst, hrest⟩ := List.isChain_cons_cons.mp h.chain
  exact ⟨hfirst, hrest, h.last⟩

theorem Growth.isPrefix (h : Growth base outputs final) : base <+: final := by
  induction outputs generalizing base with
  | nil => exact h.last ▸ List.prefix_refl _
  | cons output outputs ih => exact h.tail.1.trans (ih h.tail.2)

/-- A growing output can be cut at each of its states. -/
theorem Growth.cut {first rest : List Bytes} {output : Bytes}
    (h : Growth base (first ++ output :: rest) final) :
    Growth base (first ++ [output]) output ∧ Growth output rest final := by
  induction first generalizing base with
  | nil => exact ⟨⟨.cons_cons h.tail.1 (.singleton _), rfl⟩, h.tail.2⟩
  | cons o first ih =>
      obtain ⟨hfirst, hrest⟩ := h.tail
      obtain ⟨hbefore, hafter⟩ := ih hrest
      exact ⟨⟨.cons_cons hfirst hbefore.chain, hbefore.last⟩, hafter⟩

/-- Shown in chunks, an output has no fewer characters than at once. -/
theorem Growth.le_length_chunks (h : Growth base outputs final) :
    (Text.lossyFrom none (final.drop base.length)).length ≤
      (chunks base.length outputs).length := by
  induction outputs generalizing base with
  | nil =>
      rw [← h.last]
      simp [Text.lossyFrom]
  | cons output outputs ih =>
      obtain ⟨hfirst, hrest⟩ := h.tail
      obtain ⟨new, rfl⟩ := hfirst
      obtain ⟨more, rfl⟩ := hrest.isPrefix
      have hmore := ih hrest
      rw [List.drop_left] at hmore
      have hsplit := @Text.length_lossyFrom_append_le none (by simp) new more
      rw [List.append_assoc, List.drop_left, chunks, List.drop_left, List.length_append]
      exact hsplit.trans (Nat.add_le_add_left hmore _)

/-- Outputs that end between characters are shown as they are. -/
theorem Growth.chunks_eq (h : Growth base outputs final) {shown text : String}
    (hbase : utf8Bytes shown = base) (hfinal : utf8Bytes text = final)
    (hwhole : ∀ output ∈ outputs, ∃ s, utf8Bytes s = output) :
    shown.toList ++ chunks base.length outputs = text.toList := by
  induction outputs generalizing base shown with
  | nil =>
      have hsame : utf8Bytes shown = utf8Bytes text := by rw [hbase, hfinal, ← h.last]; rfl
      rw [chunks, List.append_nil, ← Text.lossyFrom_self shown, hsame, Text.lossyFrom_self]
  | cons output outputs ih =>
      obtain ⟨hfirst, hrest⟩ := h.tail
      obtain ⟨s, hs⟩ := hwhole output List.mem_cons_self
      rw [← ih hrest hs fun o ho => hwhole o (List.mem_cons_of_mem output ho)]
      obtain ⟨new, rfl⟩ := hfirst
      -- the characters of the first part are those of the whole in front of the new ones
      have hsplit : s.toList = shown.toList ++ Text.lossyFrom none new := by
        rw [← Text.lossyFrom_self s, hs, ← hbase, Text.lossyFrom_utf8Bytes]
      rw [hsplit, chunks, List.drop_left, List.append_assoc]

/-- A growing output is shown as it is exactly if it ends between characters at each point. -/
theorem Growth.chunks_eq_iff (h : Growth [] outputs final) {text : String}
    (hfinal : utf8Bytes text = final) :
    chunks 0 outputs = text.toList ↔
      ∀ output ∈ outputs, (Text.ofUtf8? output).isSome := by
  constructor
  · intro hshown output hmem
    rw [Option.isSome_iff_ne_none]
    intro hcut
    obtain ⟨first, rest, rfl⟩ := List.append_of_mem hmem
    obtain ⟨hbefore, hafter⟩ := h.cut
    obtain ⟨more, hmore⟩ := hafter.isPrefix
    -- the part up to the cut and the part behind it already make too many characters
    have hlt := Text.length_lossyFrom_lt (s := text) (hmore.trans hfinal.symm) hcut
    have hfirst := hbefore.le_length_chunks
    have hrest := hafter.le_length_chunks
    rw [chunks_append] at hshown
    have hlength := congrArg List.length hshown
    rw [← hmore, List.drop_left] at hrest
    rw [List.length_append] at hlength
    simp only [List.length_nil, List.drop_zero] at hfirst
    omega
  · intro hwhole
    have hempty : utf8Bytes "" = [] := rfl
    refine h.chunks_eq hempty hfinal fun output hmem => ?_
    obtain ⟨s, hs⟩ := Option.isSome_iff_exists.mp (hwhole output hmem)
    exact ⟨s, Text.utf8Bytes_of_ofUtf8? hs⟩

end Screen

/-! ### A process that writes twice -/

namespace Machine

/-- A process about to write eight bytes by two system calls, half of them each. -/
def writer (first second : Bytes) : Machine where
  regs := { eax := 4, ebx := 0x1007, ecx := 4 }
  eip := 0x1000
  flags := {}
  -- int 0x80; add ebx, 4; int 0x80
  memory := (({} : Memory).map 0x1000 15).put 0x1000
    ([0xCD, 0x80] ++ ([0x83, 0xC3, 0x04] ++ ([0xCD, 0x80] ++ (first ++ second))))
  output := #[]
  exit := none
  steps := 0

/-- A system call that writes some bytes of memory. -/
theorem step_write {m : Machine} {bytes : Bytes} (hcode : m.memory.HasBytes m.eip [0xCD, 0x80])
    (hnumber : m.get .eax = 4) (hbytes : m.memory.HasBytes (m.get .ebx) bytes)
    (hlength : (m.get .ecx).toNat = bytes.length) :
    Exec.step m = .ok (m.eip, ⟨.int, [.imm Abi.syscallVector]⟩)
      ({ m.past 2 with output := m.output ++ bytes }.set .eax (m.get .ecx)) := by
  have hsyscall : Exec.syscall (m.past 2) =
      .ok () ({ m.past 2 with output := m.output ++ bytes }.set .eax (m.get .ecx)) := by
    have hread := Memory.read_of_hasBytes hbytes
    rw [Exec.syscall_eq, get_past, get_past, get_past, memory_past, hnumber, hlength, hread]
    rfl
  exact Exec.step_eq_ok .trap rfl hcode (by decide) hsyscall

/-- The outputs of that process. -/
theorem outputs_writer {first second : Bytes} (hfirst : first.length = 4)
    (hsecond : second.length = 4) :
    (writer first second).outputs 3 = [first, first, first ++ second] := by
  have hlength : ([0xCD, 0x80] ++ ([0x83, 0xC3, 0x04] ++ ([0xCD, 0x80] ++ (first ++ second))) :
      Bytes).length = 15 := by
    simp [hfirst, hsecond]
  -- the code and both halves of the text are where the registers say
  have hstored : (writer first second).memory.HasBytes 0x1000
      ([0xCD, 0x80] ++ ([0x83, 0xC3, 0x04] ++ ([0xCD, 0x80] ++ (first ++ second)))) := by
    refine Memory.hasBytes_put (by rw [hlength]; decide) fun a hlow hhigh => ?_
    rw [hlength] at hhigh
    exact Memory.isMapped_map hlow hhigh
  simp only [Memory.hasBytes_append] at hstored
  obtain ⟨hwrite, hadd, hagain, htext, hrest⟩ := hstored
  rw [hfirst] at hrest
  have hfirstStep := step_write (m := writer first second) hwrite rfl htext hfirst.symm
  generalize hm₁ : ({ (writer first second).past 2 with
    output := (writer first second).output ++ first }.set .eax
      ((writer first second).get .ecx)) = m₁ at hfirstStep
  have hmemory : m₁.memory = (writer first second).memory := by rw [← hm₁]; rfl
  have hadded : Exec.step m₁ = .ok (m₁.eip, ⟨.add, [.reg .ebx, .imm 4]⟩)
      (((m₁.past 3).withFlags (Flags.add 0x1007 4).2).set .ebx (0x1007 + 4)) := by
    have hperform : Exec.perform m₁.eip ⟨.add, [.reg .ebx, .imm 4]⟩ (m₁.past 3) =
        .ok () (((m₁.past 3).withFlags (Flags.add 0x1007 4).2).set .ebx (0x1007 + 4)) :=
      (Exec.perform_alu_reg (.inl rfl)).mpr ⟨4, rfl, by rw [← hm₁]; rfl⟩
    have hbytes : m₁.memory.HasBytes m₁.eip [0x83, 0xC3, 0x04] := by rw [hmemory, ← hm₁]; exact hadd
    exact Exec.step_eq_ok (.add .ebx (.imm 4)) rfl hbytes (by decide) hperform
  generalize hm₂ : (((m₁.past 3).withFlags (Flags.add 0x1007 4).2).set .ebx (0x1007 + 4)) = m₂
    at hadded
  have hmemory₂ : m₂.memory = (writer first second).memory := by rw [← hm₂]; exact hmemory
  have hsecondStep := @step_write m₂ second
    (by rw [hmemory₂, ← hm₂, ← hm₁]; exact hagain) (by rw [← hm₂, ← hm₁]; rfl)
    (by rw [hmemory₂, ← hm₂, ← hm₁]; exact hrest) (by rw [← hm₂, ← hm₁]; exact hsecond.symm)
  have hexit : m₁.exit = none ∧ m₂.exit = none := by rw [← hm₂, ← hm₁]; exact ⟨rfl, rfl⟩
  have houtput : m₁.output.toList = first ∧ m₂.output.toList = first := by
    rw [← hm₂, ← hm₁]
    simp [writer]
  have hstart : (writer first second).exit = none := rfl
  simp only [outputs, trail, hstart, hfirstStep, hexit.1, hadded, hexit.2, hsecondStep,
    List.map_cons, List.map_nil, houtput.1, houtput.2, output_set]
  rw [Array.toList_appendList, houtput.2]

/-- What a run of that process prints, and what it has written in the end. -/
theorem runWith_writer {first second : Bytes} (hfirst : first.length = 4)
    (hsecond : second.length = 4) :
    ∃ result screen last,
      (writer first second).runWith (Screen.echo false) {} 3 = (result, screen, last) ∧
        last.output.toList = first ++ second ∧
        screen.text.toList = Text.lossyFrom none first ++ Text.lossyFrom none second := by
  have houtputs := outputs_writer hfirst hsecond
  obtain ⟨-, hend⟩ := outputs_grow 3 3 (writer first second)
  refine ⟨_, _, _, runSteps_eq_foldl _ 3 3 _ _, ?_, ?_⟩
  · rw [← hend]
    simp [houtputs]
  · rw [Screen.text_foldl_echo, ← outputs, houtputs]
    simp [Screen.chunks, Screen.text, String.join, Text.lossyFrom, hfirst, List.drop_of_length_le]

end Machine

/-! ### The output of a run -/

/-- The sizes of the output are those of the outputs along the run. -/
theorem Machine.outputSizes_eq (limit : Nat) (m : Machine) :
    m.outputSizes limit = (m.outputs (limit - m.steps)).map List.length := by
  have hfold (trail : List (UInt32 × Instr UInt32 × Machine)) (sizes : List Nat) :
      trail.foldl (fun sizes e => sizes ++ [e.2.2.output.size]) sizes =
        sizes ++ trail.map fun e => e.2.2.output.size := by
    induction trail generalizing sizes with
    | nil => exact (List.append_nil _).symm
    | cons e rest ih => rw [List.foldl_cons, ih, List.append_assoc]; rfl
  rw [outputSizes, runWith, runSteps_eq_foldl]
  dsimp only
  rw [hfold, outputs, List.map_map]
  simp [Function.comp_def]

/-- The screen shows a well-formed output exactly if an instruction is executed (or there is no
output) and the output ends between characters behind every executed instruction. -/
theorem Screen.echo_faithful_iff {m last : Machine} {limit : Nat} {result : Except Fault Outcome}
    {screen : Screen} {text : String}
    (hrun : m.runWith (Screen.echo false) {} limit = (result, screen, last))
    (htext : Text.ofUtf8? last.output.toList = some text) :
    screen.text = text ↔
      (last.output.size = 0 ∨ m.outputSizes limit ≠ []) ∧
        ∀ n ∈ m.outputSizes limit, (Text.ofUtf8? (last.output.toList.take n)).isSome := by
  have hfinal := Text.utf8Bytes_of_ofUtf8? htext
  rw [Machine.runWith, Machine.runSteps_eq_foldl, Prod.mk.injEq, Prod.mk.injEq] at hrun
  obtain ⟨-, hscreen, hlast⟩ := hrun
  obtain ⟨hchain, hend⟩ := m.outputs_grow limit (limit - m.steps)
  have hshown : screen.text.toList = chunks 0 (m.outputs (limit - m.steps)) := by
    rw [← hscreen, text_foldl_echo]
    rfl
  rw [hlast] at hend
  rw [← String.toList_inj, hshown, Machine.outputSizes_eq]
  cases houtputs : m.outputs (limit - m.steps) with
  | nil =>
      -- nothing is shown, which is right if there is nothing to show
      have hempty : [] = text.toList ↔ last.output.size = 0 := by
        rw [eq_comm, String.toList_eq_nil_iff, ← utf8Bytes_eq_nil_iff, hfinal,
          ← Array.length_toList, List.length_eq_zero_iff]
      rw [chunks, hempty]
      simp
  | cons first rest =>
      rw [houtputs] at hchain hend
      have hgrowth : Growth [] (first :: rest) last.output.toList :=
        ⟨.cons_cons List.nil_prefix (List.isChain_cons_cons.mp hchain).2, hend⟩
      rw [hgrowth.chunks_eq_iff hfinal]
      have hcut : ∀ output ∈ first :: rest, last.output.toList.take output.length = output := by
        intro output hmem
        obtain ⟨before, after, hsplit⟩ := List.append_of_mem hmem
        exact (List.prefix_iff_eq_take.mp (hsplit ▸ hgrowth).cut.2.isPrefix).symm
      simp only [ne_eq, List.map_eq_nil_iff, reduceCtorEq, not_false_eq_true, or_true, true_and,
        List.forall_mem_map]
      exact forall₂_congr fun output hmem => by rw [hcut output hmem]

/-- Two system calls that end between characters. -/
theorem Screen.echo_faithful_whole :
    ∃ result screen last,
      (Machine.writer (utf8Bytes "aïb") (utf8Bytes "écd")).runWith (Screen.echo false) {} 3 =
          (result, screen, last) ∧
        Text.ofUtf8? last.output.toList = some "aïbécd" ∧ screen.text = "aïbécd" := by
  have hlength : (utf8Bytes "aïb").length = 4 ∧ (utf8Bytes "écd").length = 4 := by decide
  have hwhole : utf8Bytes "aïb" ++ utf8Bytes "écd" = utf8Bytes "aïbécd" := by decide
  obtain ⟨result, screen, last, hrun, hlast, -⟩ := Machine.runWith_writer hlength.1 hlength.2
  have htext : Text.ofUtf8? last.output.toList = some "aïbécd" := by
    rw [hlast, hwhole, Text.ofUtf8?_utf8Bytes]
  refine ⟨result, screen, last, hrun, htext, (Screen.echo_faithful_iff hrun htext).mpr ?_⟩
  rw [Machine.outputSizes_eq, show (3 : Nat) - (Machine.writer _ _).steps = 3 from rfl,
    Machine.outputs_writer hlength.1 hlength.2, hlast]
  refine ⟨.inr (by simp), fun n hn => ?_⟩
  have hcases : n = 4 ∨ n = 8 := by simpa [hlength] using hn
  rcases hcases with rfl | rfl
  · rw [← hlength.1, List.take_left, Text.ofUtf8?_utf8Bytes]
    rfl
  · rw [List.take_of_length_le (by simp [hlength]), hwhole, Text.ofUtf8?_utf8Bytes]
    rfl

/-- A system call that ends inside a character: both of its bytes are shown as no text. -/
theorem Screen.echo_split_character :
    ∃ result screen last,
      (Machine.writer [0x61, 0x62, 0x63, 0xC3] [0xA9, 0x64, 0x65, 0x66]).runWith
          (Screen.echo false) {} 3 = (result, screen, last) ∧
        Text.ofUtf8? last.output.toList = some "abcédef" ∧
        screen.text = "abc\uFFFD\uFFFDdef" ∧ screen.text ≠ "abcédef" := by
  obtain ⟨result, screen, last, hrun, hlast, hscreen⟩ :=
    @Machine.runWith_writer [0x61, 0x62, 0x63, 0xC3] [0xA9, 0x64, 0x65, 0x66] rfl rfl
  have hwhole : [0x61, 0x62, 0x63, 0xC3] ++ [0xA9, 0x64, 0x65, 0x66] = utf8Bytes "abcédef" := by
    decide
  have hshown : screen.text = "abc\uFFFD\uFFFDdef" := by
    rw [← String.toList_inj, hscreen]
    decide
  refine ⟨result, screen, last, hrun, ?_, hshown, ?_⟩
  · rw [hlast, hwhole, Text.ofUtf8?_utf8Bytes]
  · rw [hshown]
    decide

end Ia32
