import DevWorkflow.Text.Utf8

/-!
# Visible text

What a terminal shows of a text: control characters other than white space, and the control sequences that begin with an escape
character, are left out. Such a sequence is read as terminals read it, one character after another; a line break inside a sequence
for the cursor or for colours ends it and is shown.
-/

namespace DevWorkflow

namespace Text

/-- Where in a control sequence a terminal stands. -/
inductive ControlPlace where
  /-- In no sequence. -/
  | ground
  /-- After the escape character. -/
  | escape
  /-- After the escape character and others that only a final one can follow. -/
  | escapeTail
  /-- In a sequence for the cursor or for colours. -/
  | sequence
  /-- Before the text that a sequence sends to the device. -/
  | deviceHead
  /-- In a text that is passed over. -/
  | passedOver
  /-- In a text for the operating system, which a bell ends. -/
  | systemText
deriving DecidableEq, Repr

/-- Whether a character is white space among the control characters, or a space. -/
def isPlainSpace (c : Char) : Bool := c = ' ' || c = '\t' || c = '\n' || c = '\x0c' || c = '\r'

/-- Whether a character is shown outside sequences. -/
def isShown (c : Char) : Bool := isPlainSpace c || (0x20 ≤ c.toNat && c.toNat ≠ 0x7F)

/-- Whether the code points of a character lie between two bounds. -/
def isWithin (low high : Nat) (c : Char) : Bool := low ≤ c.toNat && c.toNat ≤ high

/-- Whether one of the bytes of a character ends a text that is passed over. -/
def endsPassedOver (c : Char) : Bool := 0x7F < c.toNat && (encode [c]).data.any (· = 0x9C)

/-- The place after the escape character and one more. -/
def afterEscape (c : Char) : ControlPlace :=
  if isWithin 0x20 0x2F c then .escapeTail
  else if c = '[' then .sequence
  else if c = ']' then .systemText
  else if c = 'P' then .deviceHead
  else if c = 'X' || c = '^' || c = '_' then .passedOver
  else if isWithin 0x30 0x7E c then .ground
  else .escape

/-- Whether a character is shown at a place, and the place after it. -/
def ControlPlace.step (place : ControlPlace) (c : Char) : Bool × ControlPlace :=
  if c = '\x1b' then (false, .escape)
  else if c = '\x18' || c = '\x1a' then (false, .ground)
  else
    match place with
    | ground => (isShown c, .ground)
    | escape => if isPlainSpace c && c ≠ ' ' then (true, .ground) else (false, afterEscape c)
    | escapeTail =>
      if isPlainSpace c && c ≠ ' ' then (true, .ground)
      else (false, if isWithin 0x30 0x7E c then .ground else .escapeTail)
    | sequence =>
      if isPlainSpace c && c ≠ ' ' then (true, .ground)
      else (false, if isWithin 0x40 0x7E c then .ground else .sequence)
    | deviceHead => (false, if isWithin 0x40 0x7E c then .passedOver else .deviceHead)
    | passedOver => (false, if endsPassedOver c then .ground else .passedOver)
    | systemText => (false, if c = '\x07' then .ground else .systemText)

/-- What a terminal at a place shows of a text. -/
def visibleFrom (place : ControlPlace) : Text → Text
  | [] => []
  | c :: rest =>
    let (shown, next) := place.step c
    if shown then c :: visibleFrom next rest else visibleFrom next rest

/-- What a terminal shows of a text. -/
def visible (t : Text) : Text := visibleFrom .ground t

example : visible "a\x1b[1;32mb\x1b[0m\x07c\n".toList = "abc\n".toList := by decide

end Text

end DevWorkflow
