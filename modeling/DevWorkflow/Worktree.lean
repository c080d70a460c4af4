import DevWorkflow.FilePath
import DevWorkflow.Text.Lines

/-!
# Worktrees

Where a branch's worktree is put if nothing is said, and where it is according to git's own list.
-/

namespace DevWorkflow

namespace Worktree

/-- The directory below a repository's root that holds its worktrees. -/
def directory : Text := ".worktrees".toList

/-- Where the worktree of a branch is put if nothing is said. -/
def defaultPath (root branch : Text) : Text := FilePath.join (FilePath.join root directory) branch

/-- The start of the line of a record that says where a worktree is. -/
def pathLabel : Text := "worktree ".toList

/-- The start of the line of a record that says which branch is checked out. -/
def branchLabel : Text := "branch ".toList

/-- The full name of a branch. -/
def reference (branch : Text) : Text := "refs/heads/".toList ++ branch

/-- The path of the first record, among lines of records, that has the given full name of a branch. `current` is the path of the
record at which the lines start; an empty line ends a record. -/
def findIn (wanted : Text) (current : Option Text) : List Text → Option Text
  | [] => none
  | line :: rest =>
    match Text.afterPrefix? pathLabel line with
    | some path => findIn wanted (some path) rest
    | none =>
      match Text.afterPrefix? branchLabel line with
      | some name => if name = wanted then current else findIn wanted current rest
      | none => findIn wanted (if line.isEmpty then none else current) rest

/-- Where the worktree of a branch is, according to git's list in records of lines. -/
def find? (listing branch : Text) : Option Text := findIn (reference branch) none (Text.lines listing)

end Worktree

end DevWorkflow
