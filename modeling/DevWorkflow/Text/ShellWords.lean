import DevWorkflow.Text

/-!
# Words of a command line

A command line is split into words as a POSIX shell splits it when it expands nothing: words stand between blanks, single
quotes keep every character, double quotes keep all but a few escapes, a backslash outside quotes keeps the next character,
and `#` at the start of a word begins a comment. The reader is one pass over the characters; its state says where in a word
it stands.
-/

namespace DevWorkflow

namespace ShellWords

/-- Where the reader stands. The characters of an unfinished word are kept in reverse. -/
inductive Place where
  /-- Between words. -/
  | between
  /-- In a comment, which ends with the line. -/
  | comment
  /-- In a word, outside quotes. -/
  | bare (word : Text)
  /-- After a backslash outside quotes. -/
  | escaped (word : Text)
  /-- Inside single quotes. -/
  | single (word : Text)
  /-- Inside double quotes. -/
  | double (word : Text)
  /-- After a backslash inside double quotes. -/
  | doubleEscaped (word : Text)
deriving DecidableEq, Repr

/-- The blanks that end a word. -/
def isSeparator (c : Char) : Bool := c = ' ' || c = '\t' || c = '\n'

/-- The characters that a backslash keeps inside double quotes. -/
def isDoubleQuoteEscape (c : Char) : Bool := c = '$' || c = '\x60' || c = '"' || c = '\\'

/-- The place after a character that starts a word or stands in one, outside quotes. -/
def Place.inWord (word : Text) (c : Char) : Place :=
  if c = '"' then .double word
  else if c = '\'' then .single word
  else if c = '\\' then .escaped word
  else .bare (c :: word)

/-- Reads on from a place; `none` if the text ends inside quotes or after a backslash. -/
def splitFrom : Place → Text → Option (List Text)
  | .between, [] => some []
  | .comment, [] => some []
  | .bare word, [] => some [word.reverse]
  | .escaped _, [] => none
  | .single _, [] => none
  | .double _, [] => none
  | .doubleEscaped _, [] => none
  | .between, c :: rest =>
    if isSeparator c then splitFrom .between rest
    else if c = '#' then splitFrom .comment rest
    else splitFrom (.inWord [] c) rest
  | .comment, c :: rest => splitFrom (if c = '\n' then .between else .comment) rest
  | .bare word, c :: rest =>
    if isSeparator c then (splitFrom .between rest).map (word.reverse :: ·) else splitFrom (.inWord word c) rest
  | .escaped word, c :: rest => splitFrom (.bare (if c = '\n' then word else c :: word)) rest
  | .single word, c :: rest => splitFrom (if c = '\'' then .bare word else .single (c :: word)) rest
  | .double word, c :: rest =>
    splitFrom (if c = '"' then .bare word else if c = '\\' then .doubleEscaped word else .double (c :: word)) rest
  | .doubleEscaped word, c :: rest =>
    splitFrom
      (.double (if isDoubleQuoteEscape c then c :: word else if c = '\n' then word else c :: '\\' :: word)) rest

/-- The words of a command line; `none` if quotes are left open or a backslash ends it. -/
def split (line : Text) : Option (List Text) := splitFrom .between line

example : split "claude --model 'opus large' \"a\\\"b\" # rest".toList =
    some ["claude".toList, "--model".toList, "opus large".toList, "a\"b".toList] := by decide

example : split "claude 'unterminated".toList = none := by decide

example : split "\\\n".toList = some [[]] := by decide

end ShellWords

end DevWorkflow
