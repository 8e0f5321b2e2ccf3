import Ia32.Proofs.C.Remarks
import Ia32.Proofs.Machine.Stack

/-!
# Values on the way through a statement

A statement evaluates its expressions one after another, between pushes and loads of registers.
As long as the frame pointer and the words of the variables are as they were in front of the
statement, each expression has the value that it had there.
-/

namespace Ia32.C

/-! ### Instructions of pieces of code -/

namespace Code

/-- The instructions of some code, with addresses for the labels. -/
def placed (code : Code) (target : String → UInt32) : List (Instr UInt32) :=
  code.instrs.map (Instr.resolve target)

variable (target : String → UInt32)

/-- As many instructions are executed as the code has. -/
theorem length_placed (code : Code) : (code.placed target).length = code.instrs.length :=
  List.length_map _

theorem placed_append (a b : Code) :
    (a ++ b).placed target = a.placed target ++ b.placed target := by
  rw [placed, instrs_append, List.map_append]
  rfl

end Code

/-! ### What names stand for -/

namespace Frame

/-- The word that a primary stands for: a number in 32 bits, the address of a string constant, or
the word of a variable in memory. -/
def word (frame : Frame) (target : String → UInt32) (m : Machine) : Primary → UInt32
  | .number n => UInt32.ofNat n
  | .named name =>
      if name ∈ frame.constants then target name else m.memory.wordAt (m.address (frame.slot name))

/-- The value of an expression. -/
def sum (frame : Frame) (target : String → UInt32) (m : Machine) (e : Expr) : UInt32 :=
  frame.word target m e.first + UInt32.ofNat e.addends.sum

/-- A name can be read while some addresses change: if it stands for a variable, the word of the
variable is mapped and apart from them. -/
def Holds (frame : Frame) (changed : UInt32 → Prop) (m : Machine) (name : String) : Prop :=
  name ∉ frame.constants → m.memory.MappedFrom (m.address (frame.slot name)) 4 ∧
    ∀ a ∈ Memory.wordAddresses (m.address (frame.slot name)), ¬changed a

end Frame

/-- Arguments look up the names in them. -/
theorem names_furtherArguments (es : List Expr) :
    (furtherArguments es).names = es.flatMap fun e => e.piece.names := by
  induction es with
  | nil => rfl
  | cons e rest ih =>
      rw [List.flatMap_cons, ← ih]
      rfl

/-! ### Machines that share a frame -/

/-- Two machines with the same frame pointer, whose memories are the same except at some
addresses. -/
structure SameFrame (changed : UInt32 → Prop) (m m' : Machine) : Prop where
  ebp : m'.get .ebp = m.get .ebp
  memory : m.memory.SameExcept changed m'.memory

section

variable {changed kept : UInt32 → Prop} {frame : Frame} {target : String → UInt32}
variable {m m' m'' : Machine} {rs : List Reg} {words : List UInt32} {size : Nat}
variable {rest : List (Instr UInt32)}

theorem SameFrame.alters (h : SameFrame changed m m') (h' : m'.Alters rs m'') (hebp : .ebp ∉ rs) :
    SameFrame changed m m'' :=
  ⟨(h'.get .ebp hebp).trans h.ebp, h'.memory ▸ h.memory⟩

theorem SameFrame.address (h : SameFrame changed m m') (name : String) :
    m'.address (frame.slot name) = m.address (frame.slot name) := by
  change m'.get .ebp + _ = m.get .ebp + _
  rw [h.ebp]

/-- What is pushed lies below the stack pointer. -/
theorem SameFrame.of_stacked (h : m.Stacked rs words m') (hebp : .ebp ∉ rs)
    (hroom : m.Room size) (hsize : 4 * words.length ≤ size) : SameFrame (m.Below size) m m' := by
  have hesp := h.esp
  have hle := hroom.le
  exact ⟨h.get .ebp (by decide) hebp, h.memory.sameExcept.mono fun a ha => ⟨by omega, ha.2⟩⟩

/-- The operand of a primary has its value in every machine with the same frame. -/
theorem value_operand {p : Primary} (h : SameFrame changed m m')
    (hholds : ∀ name ∈ p.piece.names, frame.Holds changed m name) :
    m'.value ((p.operand frame).resolve target) = .ok (frame.word target m p) := by
  cases p with
  | number n => exact congrArg Except.ok (Word.ofInt_natCast n)
  | named name =>
      simp only [Primary.operand, Frame.operand, Frame.word]
      by_cases hname : name ∈ frame.constants
      · rw [if_pos hname, if_pos hname]
        rfl
      · obtain ⟨hmapped, hapart⟩ := hholds name (by simp [Primary.piece, Piece.looked]) hname
        rw [if_neg hname, if_neg hname]
        change m'.memory.read32 (m'.address (frame.slot name)) = _
        rw [h.address, Memory.read32_eq_ok]
        exact ⟨hmapped.same h.memory.isMapped,
          (h.memory.wordAt hapart).symm⟩

/-- Additions in a row add the sum of the numbers. -/
theorem executes_additions {addends : List Nat}
    (h : m.Ready changed ((additionCode addends).placed target ++ rest)) :
    ∃ m', m.Executes changed ((additionCode addends).placed target) rest m' ∧ m.Alters [.eax] m' ∧
      m'.get .eax = m.get .eax + UInt32.ofNat addends.sum := by
  induction addends generalizing m with
  | nil => exact ⟨m, .nil h, .refl _ _, (UInt32.add_zero _).symm⟩
  | cons n addends ih =>
      obtain ⟨m1, hfirst, halters, hget⟩ := Machine.Ready.add (r := .eax) h
      obtain ⟨m', hothers, halters', hget'⟩ := ih hfirst.ready
      refine ⟨m', hfirst.trans hothers, halters.trans halters', ?_⟩
      rw [hget', hget, Word.ofInt_natCast, List.sum_cons, UInt32.ofNat_add, UInt32.add_assoc]

/-- The code of an expression leaves its value in its operand and changes the accumulator and the
flags only. -/
theorem executes_value {e : Expr}
    (h : m'.Ready kept ((e.value frame).code.placed target ++ rest))
    (hsame : SameFrame changed m m') (hholds : ∀ name ∈ e.piece.names, frame.Holds changed m name) :
    ∃ m'', m'.Executes kept ((e.value frame).code.placed target) rest m'' ∧
      m'.Alters [.eax] m'' ∧
      m''.value ((e.value frame).operand.resolve target) = .ok (frame.sum target m e) := by
  have hfirst : m'.value ((e.first.operand frame).resolve target) =
      .ok (frame.word target m e.first) :=
    value_operand hsame fun name hname => hholds name (by simp [Expr.piece, Piece.spelled, hname])
  by_cases hnil : e.addends = []
  · have hvalue : e.value frame = ⟨e.first.operand frame, {}⟩ := if_pos (by simp [hnil])
    have hsum : frame.sum target m e = frame.word target m e.first := by
      rw [Frame.sum, hnil]
      exact UInt32.add_zero _
    rw [hvalue] at h ⊢
    exact ⟨m', .nil h, .refl _ _, hfirst.trans (congrArg Except.ok hsum.symm)⟩
  · have hvalue : e.value frame = ⟨.reg .eax,
        .instr .mov [.reg .eax, e.first.operand frame] ++ additionCode e.addends⟩ :=
      if_neg (by simpa using hnil)
    rw [hvalue, Code.placed_append] at h ⊢
    obtain ⟨m1, hload, halters, hget⟩ := Machine.Ready.load h hfirst
    obtain ⟨m'', hadd, halters', hget'⟩ := executes_additions hload.ready
    refine ⟨m'', hload.trans hadd, halters.trans halters', ?_⟩
    change Except.ok (m''.get .eax) = _
    rw [hget', hget]
    rfl

end

end Ia32.C
