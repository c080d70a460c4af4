import DevWorkflow.Commit
import DevWorkflow.Completion.Script

/-!
# Commands

What the program can be asked to do. A command stands at the end of a path of command words (`Command.path`).
-/

namespace DevWorkflow

/-- What can be done with the settings. -/
inductive ConfigCommand where
  /-- Prints a value. -/
  | get (key : Text)
  /-- Changes a value. -/
  | set (key value : Text)
  /-- Prints every value. -/
  | list
  /-- Prints where the settings are kept. -/
  | path
  /-- Goes back to the defaults, without asking if `yes`. -/
  | reset (yes : Bool)
deriving DecidableEq, Repr

/-- What can be done with worktrees. -/
inductive WorktreeCommand where
  /-- Makes a worktree for a branch. -/
  | add (branch : Text) (path : Option Text)
  /-- Lists the worktrees. -/
  | list
  /-- Removes the worktree of a branch, with local changes if `force`. -/
  | remove (branch : Text) (force : Bool)
deriving DecidableEq, Repr

/-- What can be done with git. -/
inductive GitCommand where
  | commit (request : CommitRequest)
  /-- Makes a branch, or lists the branches. -/
  | branch (name : Option Text)
  | checkout (branch : Text)
  | push (remote : Option Text) (args : List Text)
  | pull (rebase : Bool)
  | worktree (command : WorktreeCommand)
deriving DecidableEq, Repr

/-- What the program can be asked to do. -/
inductive Command where
  /-- Writes the completion scripts and, unless `noRc`, hooks them into a shell's start-up file. -/
  | init (dir : Option Text) (shell : Option Shell) (noRc : Bool)
  | config (command : ConfigCommand)
  | git (command : GitCommand)
  /-- Updates the program, or says how if `check`. -/
  | update (check : Bool)
  /-- Starts the coding agent. -/
  | agent (args : List Text)
  /-- Prints a completion script, from the built-in tree if `builtIn`. -/
  | completion (shell : Shell) (builtIn : Bool)
deriving DecidableEq, Repr

namespace ConfigCommand

/-- The word that stands for the command. -/
def word : ConfigCommand → Text
  | get .. => "get".toList
  | set .. => "set".toList
  | list => "list".toList
  | path => "path".toList
  | reset _ => "reset".toList

end ConfigCommand

namespace WorktreeCommand

/-- The word that stands for the command. -/
def word : WorktreeCommand → Text
  | add .. => "add".toList
  | list => "list".toList
  | remove .. => "remove".toList

end WorktreeCommand

namespace GitCommand

/-- The words that stand for the command. -/
def path : GitCommand → List Text
  | commit _ => ["commit".toList]
  | branch _ => ["branch".toList]
  | checkout _ => ["checkout".toList]
  | push .. => ["push".toList]
  | pull _ => ["pull".toList]
  | worktree command => ["worktree".toList, command.word]

end GitCommand

namespace Command

/-- The words that stand for the command. -/
def path : Command → List Text
  | init .. => ["init".toList]
  | config command => ["config".toList, command.word]
  | git command => "git".toList :: command.path
  | update _ => ["update".toList]
  | agent _ => ["agent".toList]
  | completion .. => ["completion".toList]

end Command

/-- A command together with what holds for every command. -/
structure Invocation where
  /-- Whether debug messages are wanted. -/
  verbose : Bool
  command : Command
deriving DecidableEq, Repr

end DevWorkflow
