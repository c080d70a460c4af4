import DevWorkflow.Completion.Script
import DevWorkflow.FileTree

/-!
# Installing the scripts

Writing every script into one directory, and the block of lines that hooks them into a shell's start-up file. The block stands
between two marks, by which it is found again.
-/

namespace DevWorkflow

namespace Install

/-- Writes files into a directory, one after another, until one cannot be written. -/
def writeFiles (directory : Text) : List (Text × Text) → FileAction IoFault Unit
  | [] => pure ()
  | (name, content) :: rest => do
    FileTree.writeText (FilePath.join directory name) content
    writeFiles directory rest

/-- The paths of the scripts in a directory. -/
def scriptPaths (directory : Text) (t : CommandTree) : List Text :=
  (scriptFiles t).map fun f => FilePath.join directory f.1

/-- Writes every script for a tree into a directory, which is made if it is missing. -/
def writeScripts (directory : Text) (t : CommandTree) : FileAction IoFault (List Text) := do
  FileTree.createDirectories directory
  writeFiles directory (scriptFiles t)
  pure (scriptPaths directory t)

/-- The line above the hook. -/
def startMark : Text := "# >>> devx completion >>>".toList

/-- The line below the hook. -/
def endMark : Text := "# <<< devx completion <<<".toList

/-- The lines that make a shell find the script in a directory. -/
def hookBody (directory : Text) : Shell → Text
  | .zsh => "fpath=(\"".toList ++ directory ++ "\" $fpath)\nautoload -Uz compinit && compinit -i\n".toList
  | .bash =>
    let path := directory ++ "/".toList ++ Shell.bash.scriptFile
    "[ -f \"".toList ++ path ++ "\" ] && source \"".toList ++ path ++ "\"\n".toList
  | .fish =>
    let path := directory ++ "/".toList ++ Shell.fish.scriptFile
    "test -f \"".toList ++ path ++ "\"; and source \"".toList ++ path ++ "\"\n".toList

/-- The block that hooks the scripts in a directory into a shell's start-up file. -/
def hookBlock (directory : Text) (shell : Shell) : Text :=
  "\n".toList ++ startMark ++ "\n# Managed by `".toList ++ programName ++ " init`\n".toList ++ hookBody directory shell
    ++ endMark ++ "\n".toList

/-- Whether a start-up file has the hook. -/
def isHooked (content : Text) : Bool := Text.contains startMark content

/-- A shell's start-up file, given the home directory. -/
def startupFile (home : Text) : Shell → Text
  | .bash => FilePath.join home ".bashrc".toList
  | .zsh => FilePath.join home ".zshrc".toList
  | .fish => FilePath.join (FilePath.join (FilePath.join home ".config".toList) "fish".toList) "config.fish".toList

/-- Whether the start-up file at a path has the hook; one that is not there has not. -/
def hasHook (path : Text) : FileAction IoFault Bool := fun t =>
  if t.pathExists path then ((t.readText path).map isHooked, t) else (.ok false, t)

/-- Copies a file to a new one beside it, whose name says when; none if there is nothing to copy. -/
def backUp (path timeStamp : Text) : FileAction Fault (Option Text) := fun t =>
  if !t.pathExists path then (.ok none, t)
  else
    match FilePath.fileName? path with
    | none => (.error (.fileNotFound path), t)
    | some name =>
      let backup := FilePath.withFileName path (name ++ ".devx-backup-".toList ++ timeStamp)
      match (t.readBytes path).bind (t.writeBytes backup) with
      | .ok t' => (.ok (some backup), t')
      | .error e => (.error (.io e), t)

/-- Adds the hook at the end of a shell's start-up file, which is made if it is missing. -/
def addHook (path directory : Text) (shell : Shell) : FileAction IoFault Unit := do
  FileTree.createParent path
  let content ← FileTree.look fun t => if t.pathExists path then t.readText path else .ok []
  FileTree.writeText path (content ++ hookBlock directory shell)

end Install

end DevWorkflow
