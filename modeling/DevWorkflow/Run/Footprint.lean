import DevWorkflow.CommandLine.Command
import DevWorkflow.Completion.Install
import DevWorkflow.World

/-!
# What a run looks at

The paths that a command may look at or write to, and the places that lie on the way to them. Nothing else in the file system
matters to the command, so these places can be copied into a file tree before the run.
-/

namespace DevWorkflow

namespace Footprint

/-- The paths of the files that installing the completions concerns. -/
def initPaths (s : Session) (dir : Option Text) : List Text :=
  let directory := dir.getD s.completionsDirectory
  directory :: ((Shell.all.map Shell.scriptFile ++ [aliasFile]).map (FilePath.join directory)
    ++ Shell.all.map (Install.startupFile s.home))

/-- The paths that a command may look at or write to, backups apart. -/
def paths (s : Session) : Command → List Text
  | .init dir _ _ => initPaths s dir
  | .completion .. => []
  | .config _ => [s.settingsPath]
  | .git _ => [s.settingsPath]
  | .update _ => [s.settingsPath]
  | .agent _ => [s.settingsPath]

/-- The places to which the parts of a path lead, one after another, from another place. -/
def placesFrom (place : List Text) : List Text → List (List Text)
  | [] => [place]
  | part :: rest =>
    place :: placesFrom (if part = ['.'] then place else if part = "..".toList then place.dropLast else place ++ [part]) rest

/-- The places on the way to a path, from the directory in which the program runs or from the root. -/
def placesOf (workingDirectory : List Text) (path : Text) : List (List Text) :=
  placesFrom (if FilePath.isAbsolute path then [] else workingDirectory) (FilePath.steps path)

/-- The places that a command concerns, and those above the directory in which the program runs. -/
def places (workingDirectory : List Text) (s : Session) (c : Command) : List (List Text) :=
  (placesFrom [] workingDirectory ++ (paths s c).flatMap (placesOf workingDirectory)).eraseDups

end Footprint

end DevWorkflow
