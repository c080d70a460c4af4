import DevWorkflow.Completion.Bash
import DevWorkflow.Completion.Fish
import DevWorkflow.Completion.Zsh

/-!
# Scripts for every shell

The shells that are served, the script for each of them, and the names of the files in which shells look for scripts.
-/

namespace DevWorkflow

/-- A shell that is served. -/
inductive Shell where
  | zsh
  | bash
  | fish
deriving DecidableEq, Repr

namespace Shell

/-- Every shell, in the order in which scripts are written. -/
def all : List Shell := [zsh, bash, fish]

/-- The name of the shell, as its program is called. -/
def name : Shell → Text
  | zsh => "zsh".toList
  | bash => "bash".toList
  | fish => "fish".toList

/-- The name of the shell as it is shown. -/
def title : Shell → Text
  | zsh => "Zsh".toList
  | bash => "Bash".toList
  | fish => "Fish".toList

/-- The shell of the given name. -/
def ofName? (name : Text) : Option Shell := all.find? fun s => s.name = name

/-- A shell is found by its name. -/
theorem ofName?_name (s : Shell) : ofName? s.name = some s := by cases s <;> decide

/-- The file that holds the script. -/
def scriptFile : Shell → Text
  | zsh => "_".toList ++ programName
  | bash => programName ++ ".bash".toList
  | fish => programName ++ ".fish".toList

/-- The script for a command tree. -/
def script : Shell → CommandTree → Text
  | zsh => Zsh.script
  | bash => Bash.script
  | fish => Fish.script

end Shell

/-- The file that completes the short alias in zsh, which finds scripts by the names of their files. -/
def aliasFile : Text := "_".toList ++ aliasName

/-- The script that hands the short alias over to the program's own function. -/
def aliasScript : Text := "#compdef ".toList ++ aliasName ++ "\n_".toList ++ programName ++ " \"$@\"\n".toList

/-- The files that serve every shell, with their contents, in the order in which they are written. -/
def scriptFiles (t : CommandTree) : List (Text × Text) :=
  Shell.all.map (fun s => (s.scriptFile, s.script t)) ++ [(aliasFile, aliasScript)]

end DevWorkflow
