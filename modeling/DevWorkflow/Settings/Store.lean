import DevWorkflow.FileTree
import DevWorkflow.Settings.Format

/-!
# The settings file

Loading and saving settings. Nothing is written that would not be accepted when it is loaded.
-/

namespace DevWorkflow

namespace Settings

/-- The settings in a file of a tree. -/
def readFrom (t : FileTree) (path : Text) : Except SettingsError Settings :=
  match t.readText path with
  | .error e => .error (.io e)
  | .ok text => read text

/-- Loads the settings in a file. -/
def load (path : Text) : FileAction SettingsError Settings := fun t => (readFrom t path, t)

/-- Writes a text to a file and makes the directory for it. -/
def writeOut (path text : Text) : FileAction IoFault Unit := do
  FileTree.createParent path
  FileTree.writeText path text

/-- Writes settings to a file, if they are accepted, and makes the directory for it. -/
def save (s : Settings) (path : Text) : FileAction SettingsError Unit :=
  match s.defect? with
  | some d => throw (.ofDefect d)
  | none => ExceptT.adapt .io (writeOut path s.write)

/-- Loads the settings in a file, or writes the default settings to it if nothing is there. -/
def loadOrCreate (path : Text) : FileAction SettingsError Settings := fun t =>
  if t.pathExists path then load path t
  else
    (do
      save default path
      pure default : FileAction SettingsError Settings) t

end Settings

end DevWorkflow
