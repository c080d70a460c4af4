import DevWorkflow.World

/-!
# Questions

What the keys typed at a question decide. A question of yes or no is decided by the first key that means yes, no or the default; a
selection moves up and down a list, around its ends, until an item is taken.
-/

namespace DevWorkflow

namespace Prompt

/-- What a key decides at a question of yes or no, of which no is the default. -/
def confirmKey? (key : Char) : Option Bool :=
  if key = 'y' || key = 'Y' then some true
  else if key = 'n' || key = 'N' || key = '\n' || key = '\r' then some false
  else none

/-- What some keys decide at a question of yes or no. -/
def confirmation? (keys : Text) : Option Bool := keys.findSome? confirmKey?

/-- The item that some keys take from a list of the given length, which has at least one item, with the pointer at an item. -/
def selection? (count : Nat) : Nat → Text → Option Nat
  | _, [] => none
  | pointer, key :: rest =>
    if key = 'j' then selection? count (if pointer + 1 = count then 0 else pointer + 1) rest
    else if key = 'k' then selection? count (if pointer = 0 then count - 1 else pointer - 1) rest
    else if key = ' ' || key = '\n' || key = '\r' then some pointer
    else selection? count pointer rest

/-- The answer that is typed at a terminal. -/
def answer {α : Type} (read : Text → Option α) : Terminal → Except IoFault α
  | .typing keys =>
    match read keys with
    | some a => .ok a
    | none => .error .notATerminal
  | _ => .error .notATerminal

end Prompt

end DevWorkflow
