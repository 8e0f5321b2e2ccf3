import Ia32.Instruction.Encoding
import Ia32.Text.Escaped
import Ia32.Text.Utf8
import Ia32.Diagnostic
import Ia32.Machine.Run
import Ia32.SymbolTable
import Ia32.Yaml.Writer
import Ia32.Asm.Line
import Ia32.Asm.Assembler
import Ia32.Asm.Listing
import Ia32.Asm.SymbolMap
import Ia32.Image.Writer
import Ia32.Image.Reader
import Ia32.C.Program
import Ia32.Machine.Trace
import Ia32.Command
import Ia32.Main
import Ia32.Proofs.Instruction.Decoding
import Ia32.Proofs.Asm.TwoPass
import Ia32.Proofs.C.Acceptance
import Ia32.Proofs.Asm.Listing
import Ia32.Proofs.C.CodeText
import Ia32.Proofs.C.Placement
import Ia32.Proofs.C.Flow
import Ia32.Proofs.C.Integrity
import Ia32.Proofs.C.Process
import Ia32.Proofs.C.Semantics
import Ia32.Proofs.C.Correctness
import Ia32.Proofs.Machine.Execution
import Ia32.Proofs.C.Unambiguous
import Ia32.Proofs.Image.Loading
import Ia32.Proofs.Machine.Memory
import Ia32.Proofs.Machine.Fetching
import Ia32.Proofs.C.Grammar
import Ia32.Proofs.C.Library
import Ia32.Proofs.SymbolRecords
import Ia32.Proofs.Image.Segments
import Ia32.Proofs.Asm.Linking
import Ia32.Proofs.Asm.Settling
import Ia32.Proofs.C.LocalCalls
import Ia32.Proofs.Asm.Rejection
import Ia32.Proofs.Machine.Screen
import Ia32.Proofs.Machine.Resuming
import Ia32.Proofs.C.Sums
import Ia32.Proofs.C.Growth
import Ia32.Proofs.C.FrameBounds
import Ia32.Proofs.C.Remarks
import Ia32.Proofs.C.Damage
import Ia32.Proofs.C.Pointers
import Ia32.Proofs.Machine.Stack
import Ia32.Proofs.C.Evaluation
import Ia32.Proofs.C.Traps
import Ia32.Proofs.C.CallConvention
import Ia32.Proofs.Asm.NumberText
import Ia32.Proofs.C.TokenText
import Ia32.Proofs.Asm.SymbolMap
import Ia32.Proofs.Asm.Relocation
import Ia32.Proofs.Machine.Arithmetic
import Ia32.Proofs.Asm.Relayout
import Ia32.Proofs.Asm.Drift
import Ia32.Proofs.Machine.Paging
import Ia32.Proofs.C.LocalSlots
