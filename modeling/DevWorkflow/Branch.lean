import DevWorkflow.Text.Blank

/-!
# Branch names

Which names a new branch may have.
-/

namespace DevWorkflow

/-- Why a text is not the name of a branch. -/
inductive BranchDefect where
  | empty
  /-- It starts with a dash or ends with a slash. -/
  | edge
  /-- It has two dots or two slashes in a row, or a blank. -/
  | sequence
deriving DecidableEq, Repr

namespace BranchDefect

/-- The defect in words. -/
def message : BranchDefect → Text
  | empty => "Branch name cannot be empty".toList
  | edge => "Branch name cannot start with '-' or end with '/'".toList
  | sequence => "Branch name contains invalid character sequence".toList

end BranchDefect

/-- Why a text is not the name of a branch, if so. -/
def branchDefect? (name : Text) : Option BranchDefect :=
  if name.isEmpty then some .empty
  else if name.head? = some '-' || name.getLast? = some '/' then some .edge
  else if Text.contains "..".toList name || Text.contains "//".toList name || name.any Text.isBlank then some .sequence
  else none

end DevWorkflow
