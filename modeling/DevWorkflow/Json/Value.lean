import DevWorkflow.Text

/-!
# JSON values

A string is kept as the units in which it is written: characters, and code units that are written as four digits. Such a string
may stand for no text (half of a surrogate pair alone); `units?` reads it, and a value that nobody looks at is never read.
-/

namespace DevWorkflow

namespace Json

/-- A unit of a string as it is written. -/
inductive StringUnit where
  /-- A character, written as it is or as a short escape. -/
  | char (c : Char)
  /-- A UTF-16 code unit, written as four hexadecimal digits. -/
  | code (n : Nat)
deriving DecidableEq, Repr

/-- A value. A number is kept as it is written. -/
inductive Value where
  | null
  | bool (b : Bool)
  | number (literal : Text)
  | string (units : List StringUnit)
  | array (items : List Value)
  | object (members : List (List StringUnit × Value))
deriving Inhabited

/-- Whether a code unit is the first half of a pair. -/
def isHighSurrogate (n : Nat) : Bool := 0xD800 ≤ n && n ≤ 0xDBFF

/-- Whether a code unit is the second half of a pair. -/
def isLowSurrogate (n : Nat) : Bool := 0xDC00 ≤ n && n ≤ 0xDFFF

/-- The character that a pair of code units stands for. -/
def ofSurrogates (high low : Nat) : Char := Char.ofNat (0x10000 + (high - 0xD800) * 0x400 + (low - 0xDC00))

/-- The text that the units of a string stand for; none if half of a pair stands alone. -/
def textOfUnits? : List StringUnit → Option Text
  | [] => some []
  | .char c :: rest => (textOfUnits? rest).map (c :: ·)
  | .code n :: rest =>
    if isHighSurrogate n then
      match rest with
      | .code m :: rest' => if isLowSurrogate m then (textOfUnits? rest').map (ofSurrogates n m :: ·) else none
      | _ => none
    else if isLowSurrogate n then none
    else (textOfUnits? rest).map (Char.ofNat n :: ·)

/-- A text as a string in which every character stands for itself. -/
def unitsOfText (t : Text) : List StringUnit := t.map .char

namespace Value

/-- A text as a value. -/
def ofText (t : Text) : Value := .string (unitsOfText t)

/-- The text that a value is. -/
def text? : Value → Option Text
  | string units => textOfUnits? units
  | _ => none

/-- The truth value that a value is. -/
def bool? : Value → Option Bool
  | bool b => some b
  | _ => none

/-- The value of the member with the given name, if there is exactly one. -/
def onlyMember? (name : Text) (members : List (Text × Value)) : Option Value :=
  match members.filter fun m => m.1 = name with
  | [m] => some m.2
  | _ => none

/-- The values of a record's fields, in order. A record is an object that has each field once, and perhaps others, or an array of
the fields' values. -/
def fields? (names : List Text) : Value → Option (List Value)
  | array items => if items.length = names.length then some items else none
  | object members => do
    let read ← members.mapM fun m => (textOfUnits? m.1).map fun name => (name, m.2)
    names.mapM fun name => onlyMember? name read
  | _ => none

/-- A record as an object with the given fields. -/
def ofFields (fields : List (Text × Value)) : Value := .object (fields.map fun f => (unitsOfText f.1, f.2))

end Value

end Json

end DevWorkflow
