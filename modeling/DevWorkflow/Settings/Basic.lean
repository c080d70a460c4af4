import DevWorkflow.Commit
import DevWorkflow.Fault
import DevWorkflow.Settings.Key

/-!
# Settings

What the user can set, the defaults, which settings are accepted, and how single values are read and changed by their keys.
-/

namespace DevWorkflow

/-- Settings for git. -/
structure GitSettings where
  /-- What new branch names start with. -/
  branchPrefix : Text
  /-- Where branches are pushed to if nothing is said. -/
  defaultRemote : Text
  /-- Whether commits are signed. -/
  signCommits : Bool
deriving DecidableEq, Repr

/-- Settings for commits. -/
structure CommitSettings where
  /-- The type of a commit if nothing is said. -/
  defaultType : Text
  /-- Whether a commit needs a scope. -/
  requireScope : Bool
deriving DecidableEq, Repr

/-- Everything that the user can set. -/
structure Settings where
  git : GitSettings
  commit : CommitSettings
  /-- The command line that starts the coding agent. -/
  agentCommand : Text
  /-- The command line that updates the program. -/
  updateCommand : Text
deriving DecidableEq, Repr

/-- A value of the settings. -/
inductive SettingValue where
  | text (t : Text)
  | flag (b : Bool)
deriving DecidableEq, Repr

namespace SettingValue

/-- A value as it is printed. -/
def render : SettingValue → Text
  | text t => t
  | flag true => "true".toList
  | flag false => "false".toList

/-- The texts that stand for yes. -/
def trueWords : List Text := ["true".toList, "yes".toList, "on".toList, "1".toList]

/-- The texts that stand for no. -/
def falseWords : List Text := ["false".toList, "no".toList, "off".toList, "0".toList]

/-- The truth value that a text stands for. -/
def flagOf? (raw : Text) : Option Bool :=
  if trueWords.contains raw then some true
  else if falseWords.contains raw then some false
  else none

end SettingValue

/-- Why settings are not accepted. -/
inductive SettingsDefect where
  | emptyRemote
  | blankInRemote (remote : Text)
  | badPrefix (branchPrefix : Text)
  | unknownType (type : Text)
  | emptyCommand (key : SettingKey)
  /-- A text that stands for no truth value is given for a value that is one. -/
  | notAFlag (key : SettingKey) (raw : Text)
deriving DecidableEq, Repr

namespace SettingsDefect

/-- The defect in words. -/
def message : SettingsDefect → Text
  | emptyRemote => "Default remote cannot be empty".toList
  | blankInRemote remote =>
    "Invalid remote name '".toList ++ remote ++ "'. Remote names cannot contain whitespace".toList
  | badPrefix branchPrefix => "Invalid branch prefix '".toList ++ branchPrefix ++ "'".toList
  | unknownType type =>
    "Invalid default commit type '".toList ++ type ++ "'. Expected one of: ".toList
      ++ Text.join ", ".toList commitTypes
  | emptyCommand key => key.name ++ " cannot be empty".toList
  | notAFlag key raw => key.name ++ " expects a boolean, got '".toList ++ raw ++ "'".toList

end SettingsDefect

/-- What goes wrong with settings. -/
inductive SettingsError where
  | io (fault : IoFault)
  /-- The file is not the JSON that is expected. -/
  | json
  | invalid (message : Text)
  | unknownKey (key : Text)
deriving DecidableEq, Repr

namespace SettingsError

/-- The error of a defect. -/
def ofDefect (d : SettingsDefect) : SettingsError := invalid d.message

/-- The error in words. -/
def message : SettingsError → Text
  | io fault => fault.report
  | json => "JSON error: ".toList
  | invalid message => "Validation error: ".toList ++ message
  | unknownKey key => "Unknown configuration key: ".toList ++ key

/-- The error as a fault of a command. -/
def toFault : SettingsError → Fault
  | io fault => .io fault
  | json => .json
  | invalid message => .config message
  | unknownKey key => .unknownKey key

end SettingsError

namespace Settings

/-- The settings of a user who has set nothing. -/
def default : Settings where
  git := { branchPrefix := [], defaultRemote := "origin".toList, signCommits := false }
  commit := { defaultType := "feat".toList, requireScope := false }
  agentCommand := "claude".toList
  updateCommand := "cargo install devx --locked --force".toList

/-- Why settings for git are not accepted, if so. -/
def gitDefect? (g : GitSettings) : Option SettingsDefect :=
  if (Text.trim g.defaultRemote).isEmpty then some .emptyRemote
  else if g.defaultRemote.any Text.isBlank then some (.blankInRemote g.defaultRemote)
  else if Text.contains "..".toList g.branchPrefix || g.branchPrefix.head? = some '-' then
    some (.badPrefix g.branchPrefix)
  else none

/-- Why settings for commits are not accepted, if so. -/
def commitDefect? (c : CommitSettings) : Option SettingsDefect :=
  if commitTypes.contains c.defaultType then none else some (.unknownType c.defaultType)

/-- Why a command line is not accepted as the value of a key, if so. -/
def commandDefect? (key : SettingKey) (command : Text) : Option SettingsDefect :=
  if (Text.trim command).isEmpty then some (.emptyCommand key) else none

/-- Why settings are not accepted, if so. -/
def defect? (s : Settings) : Option SettingsDefect :=
  (gitDefect? s.git).or ((commitDefect? s.commit).or
    ((commandDefect? .agentCommand s.agentCommand).or (commandDefect? .updateCommand s.updateCommand)))

/-- Settings if they are accepted. -/
def accept (s : Settings) : Except SettingsError Settings :=
  match s.defect? with
  | some d => .error (.ofDefect d)
  | none => .ok s

/-- The value of a key. -/
def get (s : Settings) : SettingKey → SettingValue
  | .agentCommand => .text s.agentCommand
  | .commitDefaultType => .text s.commit.defaultType
  | .commitRequireScope => .flag s.commit.requireScope
  | .gitBranchPrefix => .text s.git.branchPrefix
  | .gitDefaultRemote => .text s.git.defaultRemote
  | .gitSignCommits => .flag s.git.signCommits
  | .updateCommand => .text s.updateCommand

/-- The settings with the value of a key given as a text; a truth value has to be one that the text stands for. -/
def replace (s : Settings) (key : SettingKey) (raw : Text) : Except SettingsDefect Settings :=
  match key with
  | .agentCommand => .ok { s with agentCommand := raw }
  | .commitDefaultType => .ok { s with commit.defaultType := raw }
  | .commitRequireScope =>
    match SettingValue.flagOf? raw with
    | some b => .ok { s with commit.requireScope := b }
    | none => .error (.notAFlag key raw)
  | .gitBranchPrefix => .ok { s with git.branchPrefix := raw }
  | .gitDefaultRemote => .ok { s with git.defaultRemote := raw }
  | .gitSignCommits =>
    match SettingValue.flagOf? raw with
    | some b => .ok { s with git.signCommits := b }
    | none => .error (.notAFlag key raw)
  | .updateCommand => .ok { s with updateCommand := raw }

/-- The value of the key with the given name. -/
def getValue (s : Settings) (key : Text) : Except SettingsError SettingValue :=
  match SettingKey.ofName? key with
  | some k => .ok (s.get k)
  | none => .error (.unknownKey key)

/-- The settings with another value for the key with the given name, if they are accepted. -/
def setValue (s : Settings) (key raw : Text) : Except SettingsError Settings :=
  match SettingKey.ofName? key with
  | none => .error (.unknownKey key)
  | some k =>
    match s.replace k raw with
    | .error d => .error (.ofDefect d)
    | .ok s' => s'.accept

/-- What new branch names start with, without slashes at its end; none if nothing is left. -/
def branchPrefix? (s : Settings) : Option Text :=
  let trimmed := Text.dropEndWhile (· = '/') s.git.branchPrefix
  if trimmed.isEmpty then none else some trimmed

/-- The name of a new branch. -/
def prefixedBranch (s : Settings) (name : Text) : Text :=
  match s.branchPrefix? with
  | some start => start ++ '/' :: name
  | none => name

/-- The default settings are accepted. -/
theorem defect?_default : default.defect? = none := by decide

end Settings

end DevWorkflow
