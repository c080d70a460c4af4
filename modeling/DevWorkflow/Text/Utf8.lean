import DevWorkflow.Text

/-!
# Texts as bytes

UTF-8 in both directions. `decode?` accepts exactly what `encode` writes (`decode?_encode`, `eq_encode_of_decode?`). For bytes
that are not UTF-8, `damage?` says where the first ill-formed sequence begins and how long it is, and `decodeLossy` writes
U+FFFD for each ill-formed sequence.
-/

namespace DevWorkflow

namespace Text

/-- The bytes of a text. -/
def encode (t : Text) : ByteArray := (String.ofList t).toUTF8

/-- The text that the bytes stand for, if they are UTF-8. -/
def decode? (bytes : ByteArray) : Option Text := (String.fromUTF8? bytes).map String.toList

/-- The number of bytes in a sequence that starts with the given byte; zero if no sequence does. -/
def sequenceLength (first : UInt8) : Nat :=
  if first ≤ 0x7F then 1
  else if 0xC2 ≤ first && first ≤ 0xDF then 2
  else if 0xE0 ≤ first && first ≤ 0xEF then 3
  else if 0xF0 ≤ first && first ≤ 0xF4 then 4
  else 0

/-- Whether a byte continues a sequence. -/
def isContinuation (b : UInt8) : Bool := 0x80 ≤ b && b ≤ 0xBF

/-- Whether a second byte may follow the given first byte: this keeps out overlong forms, surrogates and code points above
U+10FFFF. -/
def mayFollow (first second : UInt8) : Bool :=
  if first = 0xE0 then 0xA0 ≤ second && second ≤ 0xBF
  else if first = 0xED then 0x80 ≤ second && second ≤ 0x9F
  else if first = 0xF0 then 0x90 ≤ second && second ≤ 0xBF
  else if first = 0xF4 then 0x80 ≤ second && second ≤ 0x8F
  else isContinuation second

/-- The leading bytes that continue a sequence with the given first byte. -/
def continuations (first : UInt8) : List UInt8 → List UInt8
  | [] => []
  | b :: rest => if mayFollow first b then b :: rest.takeWhile isContinuation else []

/-- The bits of the code point that the first byte of a sequence carries. -/
def leadBits (first : UInt8) : Nat :=
  if first ≤ 0x7F then first.toNat else first.toNat % (0x80 >>> sequenceLength first)

/-- What the front of a list of bytes is. -/
inductive Utf8Front where
  /-- A character, and how many bytes after the first belong to it. -/
  | char (c : Char) (more : Nat)
  /-- An ill-formed sequence, and how many bytes after the first belong to it. -/
  | illFormed (more : Nat)
  /-- The bytes end inside a sequence that was well-formed so far. -/
  | cutShort

/-- Reads the front of a non-empty list of bytes. -/
def utf8Front (first : UInt8) (rest : List UInt8) : Utf8Front :=
  let size := sequenceLength first
  let more := continuations first (rest.take (size - 1))
  if size = 0 then .illFormed 0
  else if more.length = size - 1 then
    .char (Char.ofNat (more.foldl (fun bits b => bits * 0x40 + b.toNat % 0x40) (leadBits first))) more.length
  else if more.length = rest.length then .cutShort
  else .illFormed more.length

/-- A place where bytes stop being UTF-8: how many bytes come before it, and the length of the ill-formed sequence, or
`none` if the bytes end inside a sequence. -/
structure Utf8Damage where
  offset : Nat
  length : Option Nat
deriving DecidableEq, Repr

/-- The first place, counted from `offset`, where bytes stop being UTF-8. -/
def damageFrom? (offset : Nat) : List UInt8 → Option Utf8Damage
  | [] => none
  | first :: rest =>
    match utf8Front first rest with
    | .char _ more => damageFrom? (offset + more + 1) (rest.drop more)
    | .illFormed more => some ⟨offset, some (more + 1)⟩
    | .cutShort => some ⟨offset, none⟩
termination_by bytes => bytes.length
decreasing_by simp only [List.length_drop, List.length_cons]; omega

/-- The first place where bytes stop being UTF-8. -/
def damage? (bytes : ByteArray) : Option Utf8Damage := damageFrom? 0 bytes.data.toList

/-- The characters of a list of bytes, with U+FFFD for each ill-formed sequence. -/
def decodeLossyList : List UInt8 → Text
  | [] => []
  | first :: rest =>
    match utf8Front first rest with
    | .char c more => c :: decodeLossyList (rest.drop more)
    | .illFormed more => '\uFFFD' :: decodeLossyList (rest.drop more)
    | .cutShort => ['\uFFFD']
termination_by bytes => bytes.length
decreasing_by all_goals simp only [List.length_drop, List.length_cons]; omega

/-- The text of some bytes, with U+FFFD for each ill-formed sequence. -/
def decodeLossy (bytes : ByteArray) : Text := decodeLossyList bytes.data.toList

/-- The digits of a number in base ten. -/
def decimal (n : Nat) : Text := Nat.toDigits 10 n

/-- What is wrong with bytes that are not UTF-8. -/
def Utf8Damage.message (d : Utf8Damage) : Text :=
  match d.length with
  | some n => "invalid utf-8 sequence of ".toList ++ decimal n ++ " bytes from index ".toList ++ decimal d.offset
  | none => "incomplete utf-8 byte sequence from index ".toList ++ decimal d.offset

/-- Reading the bytes of a text gives the text back. -/
@[simp] theorem decode?_encode (t : Text) : decode? (encode t) = some t := by
  have h : (String.ofList t).toUTF8.IsValidUTF8 := (String.ofList t).isValidUTF8
  rw [decode?, encode, String.fromUTF8?, dif_pos h, Option.map_some]
  exact congrArg some (String.toList_ofList)

/-- Bytes that can be read are the bytes of what is read. -/
theorem eq_encode_of_decode? {bytes : ByteArray} {t : Text} (h : decode? bytes = some t) : bytes = encode t := by
  unfold decode? String.fromUTF8? at h
  split at h
  · simp only [Option.map_some, Option.some.injEq] at h
    subst h
    simp [encode, String.fromUTF8]
  · simp at h

end Text

end DevWorkflow
