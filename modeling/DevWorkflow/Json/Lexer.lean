import DevWorkflow.Json.Value

/-!
# Reading JSON: tokens

The lexer makes one pass over the characters. Its state says where in a token it stands; a character moves it to the next state
and may complete tokens.
-/

namespace DevWorkflow

namespace Json

/-- A token. -/
inductive Token where
  | openBrace
  | closeBrace
  | openBracket
  | closeBracket
  | colon
  | comma
  | null
  | bool (b : Bool)
  | number (literal : Text)
  | string (units : List StringUnit)
deriving DecidableEq, Repr

/-- Where in a number the lexer stands. -/
inductive NumberPlace where
  /-- After the sign. -/
  | sign
  /-- After a leading zero. -/
  | zero
  /-- Among the digits of the whole part. -/
  | whole
  /-- After the point. -/
  | point
  /-- Among the digits after the point. -/
  | fraction
  /-- After the letter of the exponent. -/
  | exponent
  /-- After the sign of the exponent. -/
  | exponentSign
  /-- Among the digits of the exponent. -/
  | exponentDigits
deriving DecidableEq, Repr

namespace NumberPlace

/-- Whether a number may end here. -/
def mayEnd : NumberPlace → Bool
  | zero | whole | fraction | exponentDigits => true
  | sign | point | exponent | exponentSign => false

/-- The place after another character of the number, if it can go on with that character. -/
def next? (c : Char) : NumberPlace → Option NumberPlace
  | sign => if c = '0' then some zero else if c.isDigit then some whole else none
  | zero => afterWhole
  | whole => if c.isDigit then some whole else afterWhole
  | point => if c.isDigit then some fraction else none
  | fraction => if c.isDigit then some fraction else toExponent
  | exponent =>
    if c.isDigit then some exponentDigits else if c = '+' || c = '-' then some exponentSign else none
  | exponentSign => if c.isDigit then some exponentDigits else none
  | exponentDigits => if c.isDigit then some exponentDigits else none
where
  /-- What may follow the digits before the exponent. -/
  toExponent : Option NumberPlace := if c = 'e' || c = 'E' then some exponent else none
  /-- What may follow the whole part. -/
  afterWhole : Option NumberPlace := if c = '.' then some point else toExponent

end NumberPlace

/-- Where the lexer stands. What it has of an unfinished token is kept in reverse. -/
inductive LexState where
  /-- Between tokens. -/
  | between
  /-- In a word of which the given characters are still to come. -/
  | word (toCome : Text) (token : Token)
  /-- In a number. -/
  | number (place : NumberPlace) (soFar : Text)
  /-- In a string. -/
  | string (soFar : List StringUnit)
  /-- After the backslash of an escape. -/
  | escape (soFar : List StringUnit)
  /-- Among the digits of a code unit, of which some are still to come. -/
  | code (soFar : List StringUnit) (toCome : Nat) (value : Nat)
deriving DecidableEq, Repr

/-- The blanks between tokens. -/
def isSpace (c : Char) : Bool := c = ' ' || c = '\t' || c = '\n' || c = '\r'

/-- The value of a hexadecimal digit. -/
def hexValue? (c : Char) : Option Nat :=
  if '0' ≤ c && c ≤ '9' then some (c.toNat - '0'.toNat)
  else if 'a' ≤ c && c ≤ 'f' then some (c.toNat - 'a'.toNat + 10)
  else if 'A' ≤ c && c ≤ 'F' then some (c.toNat - 'A'.toNat + 10)
  else none

/-- The character that a short escape stands for. -/
def shortEscape? (c : Char) : Option Char :=
  if c = '"' || c = '\\' || c = '/' then some c
  else if c = 'b' then some '\x08'
  else if c = 'f' then some '\x0c'
  else if c = 'n' then some '\n'
  else if c = 'r' then some '\r'
  else if c = 't' then some '\t'
  else none

namespace LexState

/-- The first character of a token. -/
def start (c : Char) : Option (List Token × LexState) :=
  if isSpace c then some ([], between)
  else if c = '\x7b' then some ([.openBrace], between)
  else if c = '\x7d' then some ([.closeBrace], between)
  else if c = '[' then some ([.openBracket], between)
  else if c = ']' then some ([.closeBracket], between)
  else if c = ':' then some ([.colon], between)
  else if c = ',' then some ([.comma], between)
  else if c = '"' then some ([], string [])
  else if c = 't' then some ([], word "rue".toList (.bool true))
  else if c = 'f' then some ([], word "alse".toList (.bool false))
  else if c = 'n' then some ([], word "ull".toList .null)
  else if c = '-' then some ([], number .sign [c])
  else if c = '0' then some ([], number .zero [c])
  else if c.isDigit then some ([], number .whole [c])
  else none

/-- The tokens completed by a character and the state after it; none if the character cannot come here. -/
def step (c : Char) : LexState → Option (List Token × LexState)
  | between => start c
  | word [] _ => none
  | word (d :: toCome) token =>
    if c ≠ d then none else if toCome.isEmpty then some ([token], between) else some ([], word toCome token)
  | number place soFar =>
    match place.next? c with
    | some place' => some ([], number place' (c :: soFar))
    | none =>
      if place.mayEnd then (start c).map fun next => (.number soFar.reverse :: next.1, next.2) else none
  | string soFar =>
    if c = '"' then some ([.string soFar.reverse], between)
    else if c = '\\' then some ([], escape soFar)
    else if c.toNat < 0x20 then none
    else some ([], string (.char c :: soFar))
  | escape soFar =>
    if c = 'u' then some ([], code soFar 4 0)
    else (shortEscape? c).map fun d => ([], string (.char d :: soFar))
  | code _ 0 _ => none
  | code soFar (n + 1) value =>
    (hexValue? c).map fun digit =>
      let value' := value * 16 + digit
      ([], if n = 0 then string (.code value' :: soFar) else code soFar n value')

/-- The tokens completed by the end of the text; none if the text ends inside a token. -/
def finish : LexState → Option (List Token)
  | between => some []
  | number place soFar => if place.mayEnd then some [.number soFar.reverse] else none
  | _ => none

end LexState

/-- The tokens of a text, read on from a state. -/
def lexFrom (s : LexState) : Text → Option (List Token)
  | [] => s.finish
  | c :: rest =>
    match s.step c with
    | none => none
    | some (done, s') => (lexFrom s' rest).map (done ++ ·)

/-- The tokens of a text. -/
def lex (t : Text) : Option (List Token) := lexFrom .between t

example : lex "[1.5e3, true]".toList =
    some [.openBracket, .number "1.5e3".toList, .comma, .bool true, .closeBracket] := by decide

example : lex "-".toList = none ∧ lex "\"\\q\"".toList = none := by decide

end Json

end DevWorkflow
