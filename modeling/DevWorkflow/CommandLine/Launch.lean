import DevWorkflow.Fault
import DevWorkflow.Text.ShellWords

/-!
# Programs to start

A configured command line, split into a program and its arguments.
-/

namespace DevWorkflow

/-- A program to start. -/
structure Launch where
  program : Text
  args : List Text
deriving DecidableEq, Repr

namespace Launch

/-- The program and its arguments as one list of words. -/
def words (l : Launch) : List Text := l.program :: l.args

/-- The program and its arguments as they are shown, with a space between each two. -/
def display (l : Launch) : Text := Text.join [' '] l.words

/-- The program that a configured command line starts. -/
def ofLine (line : Text) : Except Fault Launch :=
  match ShellWords.split line with
  | none => .error (.config ("Cannot parse command line: ".toList ++ line))
  | some [] => .error (.config "Command line is empty".toList)
  | some (program :: args) => .ok ⟨program, args⟩

/-- The program with more arguments at the end. -/
def extend (l : Launch) (more : List Text) : Launch := { l with args := l.args ++ more }

end Launch

end DevWorkflow
