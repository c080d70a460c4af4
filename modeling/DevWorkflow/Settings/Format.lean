import DevWorkflow.Json.Parser
import DevWorkflow.Json.Printer
import DevWorkflow.Settings.Basic

/-!
# Settings as JSON

How settings are written, and what is read as settings: records for the four sections, in any order and with other members
besides, where each section's fields stand exactly once.
-/

namespace DevWorkflow

namespace Settings

/-- The names of the sections. -/
def sectionNames : List Text := ["git".toList, "commit".toList, "agent".toList, "update".toList]

/-- The names of the fields for git. -/
def gitFields : List Text := ["branch_prefix".toList, "default_remote".toList, "sign_commits".toList]

/-- The names of the fields for commits. -/
def commitFields : List Text := ["default_type".toList, "require_scope".toList]

/-- The name of the field of a section that holds a command line. -/
def commandFields : List Text := ["command".toList]

/-- The settings for git that a value holds. -/
def gitOfJson? (v : Json.Value) : Option GitSettings :=
  match v.fields? gitFields with
  | some [a, b, c] => do some { branchPrefix := ← a.text?, defaultRemote := ← b.text?, signCommits := ← c.bool? }
  | _ => none

/-- The settings for commits that a value holds. -/
def commitOfJson? (v : Json.Value) : Option CommitSettings :=
  match v.fields? commitFields with
  | some [a, b] => do some { defaultType := ← a.text?, requireScope := ← b.bool? }
  | _ => none

/-- The command line that a section holds. -/
def commandOfJson? (v : Json.Value) : Option Text :=
  match v.fields? commandFields with
  | some [a] => a.text?
  | _ => none

/-- The settings that a value holds. -/
def ofJson? (v : Json.Value) : Option Settings :=
  match v.fields? sectionNames with
  | some [git, commit, agent, update] => do
    some
      { git := ← gitOfJson? git, commit := ← commitOfJson? commit, agentCommand := ← commandOfJson? agent
        updateCommand := ← commandOfJson? update }
  | _ => none

/-- Settings as a value. -/
def toJson (s : Settings) : Json.Value :=
  .ofFields
    [("git".toList,
        .ofFields
          [("branch_prefix".toList, .ofText s.git.branchPrefix), ("default_remote".toList, .ofText s.git.defaultRemote),
            ("sign_commits".toList, .bool s.git.signCommits)]),
      ("commit".toList,
        .ofFields
          [("default_type".toList, .ofText s.commit.defaultType), ("require_scope".toList, .bool s.commit.requireScope)]),
      ("agent".toList, .ofFields [("command".toList, .ofText s.agentCommand)]),
      ("update".toList, .ofFields [("command".toList, .ofText s.updateCommand)])]

/-- Settings as they are written. -/
def write (s : Settings) : Text := s.toJson.render

/-- The accepted settings that a text holds. -/
def read (t : Text) : Except SettingsError Settings :=
  match (Json.parse t).bind ofJson? with
  | some s => s.accept
  | none => .error .json

end Settings

end DevWorkflow
