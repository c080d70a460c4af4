/-!
# Texts

A text is the list of its characters, so that every function on texts is a function on lists and can be reasoned about as
one. This module holds the operations that the rest of the library is built from: joining, splitting at a class of
characters, replacing a character, and looking for one text inside another.
-/

namespace DevWorkflow

/-- A text is the list of its characters. -/
abbrev Text := List Char

namespace Text

/-- The texts one after another, with `sep` between each two of them. -/
def join (sep : Text) : List Text → Text
  | [] => []
  | [t] => t
  | t :: u :: rest => t ++ sep ++ join sep (u :: rest)

/-- The pieces of a text between the characters of a class; there is always at least one piece, and empty pieces are
kept. -/
def splitAt (p : Char → Bool) : Text → List Text
  | [] => [[]]
  | c :: rest =>
    if p c then [] :: splitAt p rest
    else
      match splitAt p rest with
      | [] => [[c]]
      | piece :: pieces => (c :: piece) :: pieces

/-- Every occurrence of one character replaced by a text. -/
def replace (c : Char) (substitute : Text) (t : Text) : Text :=
  t.flatMap fun d => if d = c then substitute else [d]

/-- Whether `part` occurs in a text as consecutive characters. -/
def contains (part : Text) : Text → Bool
  | [] => part.isEmpty
  | c :: rest => part.isPrefixOf (c :: rest) || contains part rest

/-- What follows `start` in a text that begins with it. -/
def afterPrefix? : Text → Text → Option Text
  | [], t => some t
  | _ :: _, [] => none
  | c :: start, d :: t => if c = d then afterPrefix? start t else none

/-- A text without the characters of a class at its end. -/
def dropEndWhile (p : Char → Bool) (t : Text) : Text := (t.reverse.dropWhile p).reverse

/-- A text whose characters outside the ASCII letters and digits are replaced by underscores, so that it can stand in the
name of a shell function. -/
def identifier (t : Text) : Text := t.map fun c => if c.isAlphanum then c else '_'

@[simp] theorem join_nil (sep : Text) : join sep [] = [] := rfl

/-- No separator is written for one text. -/
@[simp] theorem join_singleton (sep t : Text) : join sep [t] = t := rfl

/-- A separator is written between two texts. -/
theorem join_cons_cons (sep t u : Text) (rest : List Text) :
    join sep (t :: u :: rest) = t ++ sep ++ join sep (u :: rest) := rfl

/-- There is always a first piece. -/
theorem splitAt_ne_nil (p : Char → Bool) (t : Text) : splitAt p t ≠ [] := by
  cases t with
  | nil => simp [splitAt]
  | cons c rest =>
    unfold splitAt
    split
    · simp
    · split <;> simp

end Text

end DevWorkflow
