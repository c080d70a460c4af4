import DevWorkflow.Text

/-!
# Blanks and words

The blank characters are those with the Unicode property `White_Space`. A text's words are its maximal runs of characters
that are not blank; `singleLine` writes them with one space between each two, so it has no line breaks.
-/

namespace DevWorkflow

namespace Text

/-- The ranges of code points with the property `White_Space`, in ascending order. -/
def blankRanges : List (Nat × Nat) :=
  [(0x0009, 0x000D), (0x0020, 0x0020), (0x0085, 0x0085), (0x00A0, 0x00A0), (0x1680, 0x1680), (0x2000, 0x200A),
    (0x2028, 0x2029), (0x202F, 0x202F), (0x205F, 0x205F), (0x3000, 0x3000)]

/-- Whether a character is blank. -/
def isBlank (c : Char) : Bool := blankRanges.any fun range => range.1 ≤ c.toNat && c.toNat ≤ range.2

/-- The maximal runs of characters that are not blank, in order. -/
def words (t : Text) : List Text := (splitAt isBlank t).filter fun w => !w.isEmpty

/-- The words of a text with one space between each two. -/
def singleLine (t : Text) : Text := join [' '] (words t)

/-- A text without the blanks at its start and end. -/
def trim (t : Text) : Text := dropEndWhile isBlank (t.dropWhile isBlank)

/-- There are 25 blank characters. -/
example : (blankRanges.map fun range => range.2 + 1 - range.1).sum = 25 := by decide

example : singleLine "Don't do it\n\treally".toList = "Don't do it really".toList := by decide

end Text

end DevWorkflow
