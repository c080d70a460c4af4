import DevWorkflow.Text

/-!
# Keys of the settings

Each value of the settings has a dotted key, by which it is read and changed.
-/

namespace DevWorkflow

/-- A value of the settings. -/
inductive SettingKey where
  | agentCommand
  | commitDefaultType
  | commitRequireScope
  | gitBranchPrefix
  | gitDefaultRemote
  | gitSignCommits
  | updateCommand
deriving DecidableEq, Repr

namespace SettingKey

/-- Every key, in alphabetical order of the names. -/
def all : List SettingKey :=
  [agentCommand, commitDefaultType, commitRequireScope, gitBranchPrefix, gitDefaultRemote, gitSignCommits, updateCommand]

/-- The dotted name of the key. -/
def name : SettingKey → Text
  | agentCommand => "agent.command".toList
  | commitDefaultType => "commit.default_type".toList
  | commitRequireScope => "commit.require_scope".toList
  | gitBranchPrefix => "git.branch_prefix".toList
  | gitDefaultRemote => "git.default_remote".toList
  | gitSignCommits => "git.sign_commits".toList
  | updateCommand => "update.command".toList

/-- The key of the given name. -/
def ofName? (name : Text) : Option SettingKey := all.find? fun k => k.name = name

/-- Every key is listed. -/
theorem mem_all (k : SettingKey) : k ∈ all := by cases k <;> decide

/-- A key is found by its name. -/
theorem ofName?_name (k : SettingKey) : ofName? k.name = some k := by cases k <;> decide

end SettingKey

/-- The dotted names of all keys, in alphabetical order. -/
def settingKeys : List Text := SettingKey.all.map SettingKey.name

end DevWorkflow
