import DevWorkflow.Text

/-!
# Lines

A line ends with a line feed, and a carriage return before that line feed belongs to the ending. What follows the last line
feed is a line of its own unless it is empty, and keeps a carriage return at its end.
-/

namespace DevWorkflow

namespace Text

/-- A line without one carriage return at its end. -/
def dropReturn (line : Text) : Text := if line.getLast? = some '\r' then line.dropLast else line

/-- The lines among the pieces between line feeds, of which the last one has no line feed after it. -/
def linesOfPieces : List Text → List Text
  | [] => []
  | [last] => if last.isEmpty then [] else [last]
  | line :: next :: rest => dropReturn line :: linesOfPieces (next :: rest)

/-- The lines of a text. -/
def lines (t : Text) : List Text := linesOfPieces (splitAt (· = '\n') t)

example : lines "a\r\nb\n\nc\r".toList = ["a".toList, "b".toList, [], "c\r".toList] := by decide

end Text

end DevWorkflow
