import DevWorkflow.Json.Lexer

/-!
# Reading JSON: values

The parser makes one pass over the tokens and keeps a stack of the arrays and objects that it stands in.
-/

namespace DevWorkflow

namespace Json

/-- An array or object that the parser stands in. What is complete is kept in reverse. -/
inductive Frame where
  /-- In an array, after some items. -/
  | items (done : List Value)
  /-- In an object, after some members, at the value of another one. -/
  | members (done : List (List StringUnit × Value)) (key : List StringUnit)

/-- What may come next. -/
inductive Stage where
  /-- A value. -/
  | value
  /-- The first item of an array, or its end. -/
  | firstItem
  /-- The first member of an object, or its end. -/
  | firstMember
  /-- Another member of an object. -/
  | member (done : List (List StringUnit × Value))
  /-- The colon after a name. -/
  | colon (done : List (List StringUnit × Value)) (key : List StringUnit)
  /-- What goes on after a value. -/
  | after (v : Value)

/-- Where the parser stands. -/
structure ParseState where
  stack : List Frame
  stage : Stage

namespace ParseState

/-- A token where a value must come. -/
def startValue (stack : List Frame) : Token → Option ParseState
  | .null => some ⟨stack, .after .null⟩
  | .bool b => some ⟨stack, .after (.bool b)⟩
  | .number literal => some ⟨stack, .after (.number literal)⟩
  | .string units => some ⟨stack, .after (.string units)⟩
  | .openBracket => some ⟨stack, .firstItem⟩
  | .openBrace => some ⟨stack, .firstMember⟩
  | _ => none

/-- A token after a complete value. -/
def goOn (v : Value) : List Frame → Token → Option ParseState
  | .items done :: stack, .comma => some ⟨.items (v :: done) :: stack, .value⟩
  | .items done :: stack, .closeBracket => some ⟨stack, .after (.array (v :: done).reverse)⟩
  | .members done key :: stack, .comma => some ⟨stack, .member ((key, v) :: done)⟩
  | .members done key :: stack, .closeBrace => some ⟨stack, .after (.object ((key, v) :: done).reverse)⟩
  | _, _ => none

/-- The state after a token; none if the token cannot come here. -/
def step (s : ParseState) (t : Token) : Option ParseState :=
  match s.stage with
  | .value => startValue s.stack t
  | .firstItem =>
    if t = .closeBracket then some ⟨s.stack, .after (.array [])⟩ else startValue (.items [] :: s.stack) t
  | .firstMember =>
    match t with
    | .closeBrace => some ⟨s.stack, .after (.object [])⟩
    | .string key => some ⟨s.stack, .colon [] key⟩
    | _ => none
  | .member done =>
    match t with
    | .string key => some ⟨s.stack, .colon done key⟩
    | _ => none
  | .colon done key => if t = .colon then some ⟨.members done key :: s.stack, .value⟩ else none
  | .after v => goOn v s.stack t

/-- The value that is complete when the tokens end. -/
def finish? : ParseState → Option Value
  | ⟨[], .after v⟩ => some v
  | _ => none

/-- The state after some tokens. -/
def run (s : ParseState) : List Token → Option ParseState
  | [] => some s
  | t :: rest => (s.step t).bind fun s' => s'.run rest

end ParseState

/-- The value that some tokens stand for. -/
def parseTokens (ts : List Token) : Option Value := (ParseState.run ⟨[], .value⟩ ts).bind ParseState.finish?

/-- The value that a text stands for. -/
def parse (t : Text) : Option Value := (lex t).bind parseTokens

end Json

end DevWorkflow
