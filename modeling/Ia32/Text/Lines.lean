/-!
# Lines of a text

A line ends at a line feed, and a carriage return directly in front of the line
feed belongs to the ending. The text after the last line feed is a line only if
it is not empty.
-/

namespace Ia32.Text

/-- The lines of a text without their endings. -/
def lines : List Char → List (List Char)
  | [] => []
  | '\n' :: rest => [] :: lines rest
  | '\r' :: '\n' :: rest => [] :: lines rest
  | c :: rest =>
      match lines rest with
      | [] => [[c]]
      | line :: others => (c :: line) :: others

/-- The text of one line, counted from one; a line that is missing is empty. -/
def lineAt (text : String) (number : Nat) : String :=
  String.ofList ((lines text.toList)[number - 1]?.getD [])

end Ia32.Text
