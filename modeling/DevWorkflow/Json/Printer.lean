import DevWorkflow.Json.Value

/-!
# Writing JSON

Values are written over several lines, each member and item on a line of its own and two spaces further in. Strings escape the
quote, the backslash and the control characters only.
-/

namespace DevWorkflow

namespace Json

/-- A hexadecimal digit in lower case. -/
def hexDigit (n : Nat) : Char := Nat.digitChar n

/-- A code unit as it is written. -/
def codeEscape (n : Nat) : Text :=
  "\\u".toList ++ [hexDigit (n / 0x1000 % 16), hexDigit (n / 0x100 % 16), hexDigit (n / 0x10 % 16), hexDigit (n % 16)]

/-- A character as it is written in a string. -/
def escapeChar (c : Char) : Text :=
  if c = '"' then "\\\"".toList
  else if c = '\\' then "\\\\".toList
  else if c = '\x08' then "\\b".toList
  else if c = '\x0c' then "\\f".toList
  else if c = '\n' then "\\n".toList
  else if c = '\r' then "\\r".toList
  else if c = '\t' then "\\t".toList
  else if c.toNat < 0x20 then codeEscape c.toNat
  else [c]

/-- A unit as it is written in a string. -/
def StringUnit.render : StringUnit → Text
  | .char c => escapeChar c
  | .code n => codeEscape n

/-- A string as it is written. -/
def renderString (units : List StringUnit) : Text := '"' :: units.flatMap StringUnit.render ++ ['"']

/-- A new line at a depth of indentation. -/
def newLine (depth : Nat) : Text := '\n' :: List.replicate (2 * depth) ' '

mutual

/-- A value that starts at a depth of indentation, as it is written. -/
def Value.renderAt (depth : Nat) : Value → Text
  | .null => "null".toList
  | .bool b => (if b then "true" else "false").toList
  | .number literal => literal
  | .string units => renderString units
  | .array [] => "[]".toList
  | .array (v :: rest) =>
    "[".toList ++ newLine (depth + 1) ++ v.renderAt (depth + 1) ++ renderItems (depth + 1) rest ++ newLine depth
      ++ "]".toList
  | .object [] => "\x7b\x7d".toList
  | .object ((key, v) :: rest) =>
    "\x7b".toList ++ newLine (depth + 1) ++ renderString key ++ ": ".toList ++ v.renderAt (depth + 1)
      ++ renderMembers (depth + 1) rest ++ newLine depth ++ "\x7d".toList

/-- The items of an array after the first, at a depth of indentation. -/
def renderItems (depth : Nat) : List Value → Text
  | [] => []
  | v :: rest => ",".toList ++ newLine depth ++ v.renderAt depth ++ renderItems depth rest

/-- The members of an object after the first, at a depth of indentation. -/
def renderMembers (depth : Nat) : List (List StringUnit × Value) → Text
  | [] => []
  | (key, v) :: rest =>
    ",".toList ++ newLine depth ++ renderString key ++ ": ".toList ++ v.renderAt depth ++ renderMembers depth rest

end

/-- A value as it is written. -/
def Value.render (v : Value) : Text := v.renderAt 0

end Json

end DevWorkflow
