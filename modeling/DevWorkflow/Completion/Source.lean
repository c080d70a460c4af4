import DevWorkflow.Commit
import DevWorkflow.Completion.Tree
import DevWorkflow.Settings.Key

/-!
# Where candidates come from

The candidates for a positional argument are either computed by the shell when they are asked for, or listed, or free text.
`ArgumentEntry.source` decides which, from the argument and the name of its command, for all shells alike.
-/

namespace DevWorkflow

/-- Candidates that the shell computes when they are asked for. -/
structure DynamicSource where
  name : Text
  /-- The name of the helper function in every script. -/
  function : Text
  /-- The shell command that prints one candidate on each line. -/
  command : Text
  /-- What the candidates are. -/
  description : Text
deriving DecidableEq, Repr

namespace DynamicSource

/-- The branches of the repository. -/
def branches : DynamicSource where
  name := "branches".toList
  function := "__devx_branches".toList
  command := "git branch --format='%(refname:short)' 2>/dev/null".toList
  description := "git branches".toList

/-- The remotes of the repository. -/
def remotes : DynamicSource where
  name := "remotes".toList
  function := "__devx_remotes".toList
  command := "git remote 2>/dev/null".toList
  description := "git remotes".toList

/-- Every source of this kind, in the order in which the scripts define the helpers. -/
def all : List DynamicSource := [branches, remotes]

/-- The source of the given name. -/
def ofName? (name : Text) : Option DynamicSource := all.find? fun s => s.name = name

end DynamicSource

/-- How an argument is completed. -/
inductive ArgumentSource where
  /-- The shell computes the candidates. -/
  | dynamic (source : DynamicSource)
  /-- The candidates are listed. -/
  | choices (candidates : List Text)
  /-- The candidates are the keys of the settings. -/
  | settingKeys
  /-- Free text up to the end of the line. -/
  | rest
  /-- Free text for one word. -/
  | positional
deriving DecidableEq, Repr

/-- The commands whose argument `name` is a branch. -/
def branchNameParents : List Text :=
  ["checkout".toList, "switch".toList, "branch".toList, "merge".toList, "rebase".toList]

/-- The commands whose argument `key` is a key of the settings. -/
def settingKeyParents : List Text := ["get".toList, "set".toList, "unset".toList]

/-- How an argument of the command called `parent` is completed. -/
def ArgumentEntry.source (a : ArgumentEntry) (parent : Text) : ArgumentSource :=
  if a.name = "branch".toList || (a.name = "name".toList && branchNameParents.contains parent) then .dynamic .branches
  else if a.name = "remote".toList then .dynamic .remotes
  else
    match a.choiceList with
    | some candidates => .choices candidates
    | none =>
      if a.name = "key".toList && settingKeyParents.contains parent then .settingKeys
      else if a.variadic then .rest
      else .positional

end DevWorkflow
