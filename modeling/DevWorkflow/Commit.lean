import DevWorkflow.Text.Blank

/-!
# Conventional commits

The types of a commit, what is asked for when a commit is made, and the message that is written for it:
`type(scope)!: summary`.
-/

namespace DevWorkflow

/-- The type of a commit. -/
inductive CommitType where
  | feat
  | fix
  | docs
  | style
  | refactor
  | perf
  | test
  | build
  | ci
  | chore
  | revert
deriving DecidableEq, Repr

namespace CommitType

/-- Every type, in the order in which they are offered. -/
def all : List CommitType := [feat, fix, docs, style, refactor, perf, test, build, ci, chore, revert]

/-- The name of the type. -/
def name : CommitType → Text
  | feat => "feat".toList
  | fix => "fix".toList
  | docs => "docs".toList
  | style => "style".toList
  | refactor => "refactor".toList
  | perf => "perf".toList
  | test => "test".toList
  | build => "build".toList
  | ci => "ci".toList
  | chore => "chore".toList
  | revert => "revert".toList

/-- The type of the given name. -/
def ofName? (name : Text) : Option CommitType := all.find? fun t => t.name = name

/-- Every type is listed. -/
theorem mem_all (t : CommitType) : t ∈ all := by cases t <;> decide

/-- A type is found by its name. -/
theorem ofName?_name (t : CommitType) : ofName? t.name = some t := by cases t <;> decide

end CommitType

/-- The names of the types of a commit. -/
def commitTypes : List Text := CommitType.all.map CommitType.name

/-- What is asked for when a commit is made. -/
structure CommitRequest where
  /-- The type; the settings say which one is meant if there is none. -/
  type : Option CommitType := none
  /-- The part of the program that changes. -/
  scope : Option Text := none
  /-- What changes. -/
  summary : Text
  /-- Whether the change breaks something. -/
  breaking : Bool := false
  /-- Whether changes to tracked files are staged first. -/
  all : Bool := false
deriving DecidableEq, Repr

/-- Why a commit cannot be made as asked. -/
inductive CommitDefect where
  /-- The summary is blank. -/
  | emptySummary
  /-- The scope is blank or has a character that the message uses around it. -/
  | badScope (scope : Text)
deriving DecidableEq, Repr

namespace CommitDefect

/-- The defect in words. -/
def message : CommitDefect → Text
  | emptySummary => "Commit message cannot be empty".toList
  | badScope scope => "Invalid commit scope '".toList ++ scope ++ "'".toList

end CommitDefect

/-- Whether a text can stand as a scope. -/
def isScope (scope : Text) : Bool :=
  !(Text.trim scope).isEmpty && !scope.any fun c => c = '(' || c = ')' || c = ':'

namespace CommitRequest

/-- Why the commit cannot be made as asked, if so. -/
def defect? (r : CommitRequest) : Option CommitDefect :=
  if (Text.trim r.summary).isEmpty then some .emptySummary
  else
    match r.scope with
    | some scope => if isScope scope then none else some (.badScope scope)
    | none => none

end CommitRequest

/-- The message of a commit. -/
def commitMessage (type : Text) (scope : Option Text) (breaking : Bool) (summary : Text) : Text :=
  type ++ (match scope with
    | some s => "(".toList ++ s ++ ")".toList
    | none => [])
  ++ (if breaking then "!".toList else []) ++ ": ".toList ++ Text.trim summary

example : commitMessage "feat".toList (some "api".toList) true " drop v1 ".toList = "feat(api)!: drop v1".toList := by
  decide

end DevWorkflow
