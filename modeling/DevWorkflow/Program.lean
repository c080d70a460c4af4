import DevWorkflow.Text

/-!
# The program's names

The name under which the program is called, its short alias, and its version.
-/

namespace DevWorkflow

/-- The name of the program. -/
def programName : Text := "devx".toList

/-- The short name that shares the program's completions. -/
def aliasName : Text := "dx".toList

/-- The version of the program. -/
def programVersion : Text := "0.3.0".toList

end DevWorkflow
