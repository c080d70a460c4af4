import DevWorkflow.Branch
import DevWorkflow.Commit
import DevWorkflow.Completion.Validity

/-!
# Faults

What can go wrong while a command is carried out, as it is reported to the user. A fault has a class, which says what failed, and
its details in words.
-/

namespace DevWorkflow

/-- Why the system did not do what was asked. -/
inductive IoFault where
  | notFound
  | permissionDenied
  | alreadyExists
  | notADirectory
  | isADirectory
  | nameTooLong
  /-- A path has the character that ends a name for the system. -/
  | nulInPath
  /-- A word for a program has that character. -/
  | nulInWord
  /-- The contents of a file are not UTF-8. -/
  | notUtf8
  | notATerminal
  /-- Anything else, in the words of the system. -/
  | other (message : Text)
deriving DecidableEq, Repr

namespace IoFault

/-- The fault in the words of the system. -/
def message : IoFault → Text
  | notFound => "No such file or directory (os error 2)".toList
  | permissionDenied => "Permission denied (os error 13)".toList
  | alreadyExists => "File exists (os error 17)".toList
  | notADirectory => "Not a directory (os error 20)".toList
  | isADirectory => "Is a directory (os error 21)".toList
  | nameTooLong => "File name too long (os error 36)".toList
  | nulInPath => "file name contained an unexpected NUL byte".toList
  | nulInWord => "nul byte found in provided data".toList
  | notUtf8 => "stream did not contain valid UTF-8".toList
  | notATerminal => "not a terminal".toList
  | other message => message

/-- The fault as part of a report. -/
def report (f : IoFault) : Text := "IO error: ".toList ++ f.message

end IoFault

/-- What went wrong while a command was carried out. -/
inductive Fault where
  | git (message : Text)
  | config (message : Text)
  | unknownKey (key : Text)
  | invalidArgs (message : Text)
  | process (command message : Text)
  | invalidTree (message : Text)
  | fileNotFound (path : Text)
  | io (fault : IoFault)
  /-- A text is not the JSON that is expected. -/
  | json
deriving DecidableEq, Repr

namespace Fault

/-- The fault in words. -/
def message : Fault → Text
  | git message => "Git operation failed: ".toList ++ message
  | config message => "Configuration error: ".toList ++ message
  | unknownKey key => "Unknown configuration key: ".toList ++ key
  | invalidArgs message => "Invalid arguments: ".toList ++ message
  | process command message => "Command '".toList ++ command ++ "' failed: ".toList ++ message
  | invalidTree message => "Invalid command tree: ".toList ++ message
  | fileNotFound path => "File not found: ".toList ++ path
  | io fault => fault.report
  | json => "JSON error: ".toList

end Fault

/-- A tree that cannot be written as scripts. -/
def TreeDefect.toFault (d : TreeDefect) : Fault := .invalidTree d.message

/-- A commit that cannot be made as asked. -/
def CommitDefect.toFault (d : CommitDefect) : Fault := .invalidArgs d.message

/-- A name that a branch cannot have. -/
def BranchDefect.toFault (d : BranchDefect) : Fault := .invalidArgs d.message

/-- The fault of which there is one, if any. -/
def failOn {α : Type} (toFault : α → Fault) : Option α → Except Fault Unit
  | some a => .error (toFault a)
  | none => .ok ()

end DevWorkflow
