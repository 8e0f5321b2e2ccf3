import Ia32.Machine.Run
import Ia32.Text.Style
import Ia32.Text.Utf8

/-!
# The screen

What is printed while a process runs: the bytes that it writes are shown as
text as soon as they are written.
-/

namespace Ia32

/-- Printed text, the latest piece first, and how much of the output of the
process has been shown. -/
structure Screen where
  pieces : List String := []
  shown : Nat := 0
  deriving DecidableEq, Repr

namespace Screen

/-- Prints a piece of text. -/
def print (screen : Screen) (text : String) : Screen :=
  { screen with pieces := text :: screen.pieces }

/-- All printed text. -/
def text (screen : Screen) : String :=
  String.join screen.pieces.reverse

/-- Shows what the process has written since the last time. Bytes that are no
text are replaced, piece by piece. -/
def echo (styled : Bool) : Observer Screen := fun screen _ _ m =>
  if m.output.size = screen.shown then screen
  else
    let new := Text.ofUtf8Lossy (m.output.toList.drop screen.shown)
    let printed := screen.print (if styled then Text.paint [.green, .bold] new else new)
    { printed with shown := m.output.size }

end Screen

end Ia32
