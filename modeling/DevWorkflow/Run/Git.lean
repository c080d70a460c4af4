import DevWorkflow.CommandLine.Command
import DevWorkflow.World
import DevWorkflow.Worktree

/-!
# Commands that run git
-/

namespace DevWorkflow

open WorldAction

namespace Run

/-- The name under which git is started. -/
def gitProgram : Text := "git".toList

/-- The fault of a git that could not be started. -/
def gitNotStarted (e : IoFault) : Fault := .git ("Failed to run git command: ".toList ++ e.message)

/-- Runs git; its output is printed. -/
def runGit (args : List Text) : WorldAction Unit := do
  match ← startPrinting gitProgram args with
  | .error e => throw (gitNotStarted e)
  | .ok exit =>
    if exit.isSuccess then pure ()
    else
      throw (.git ("git ".toList ++ Text.join [' '] args ++ " exited with status ".toList ++ exit.render))

/-- What git prints, without the blanks around it. -/
def gitOutput (args : List Text) : WorldAction Text := do
  match ← start gitProgram args with
  | .error e => throw (gitNotStarted e)
  | .ok r =>
    if !r.exit.isSuccess then
      throw (.git ("Git command failed: ".toList ++ Text.trim (Text.decodeLossy r.stderr)))
    else
      match Text.damage? r.stdout with
      | some d => throw (.git ("Invalid git output: ".toList ++ d.message))
      | none => pure (Text.trim (Text.decodeLossy r.stdout))

/-- The arguments with which git makes a commit. -/
def commitArgs (sign : Bool) (message : Text) : List Text :=
  ["commit".toList] ++ (if sign then ["-S".toList] else []) ++ ["-m".toList, message]

/-- Makes a commit. -/
def commit (settings : Settings) (r : CommitRequest) : WorldAction Unit := do
  require (failOn CommitDefect.toFault r.defect?)
  if settings.commit.requireScope && r.scope.isNone then
    throw (.invalidArgs "A commit scope is required (commit.require_scope). Pass --scope".toList)
  let type := (r.type.map CommitType.name).getD settings.commit.defaultType
  if r.all then runGit ["add".toList, "--update".toList]
  runGit (commitArgs settings.git.signCommits (commitMessage type r.scope r.breaking r.summary))

/-- Makes a branch. -/
def createBranch (settings : Settings) (name : Text) : WorldAction Unit := do
  require (failOn BranchDefect.toFault (branchDefect? name))
  let branch := settings.prefixedBranch name
  runGit ["branch".toList, branch]
  printLine ("Created branch ".toList ++ branch)

/-- Makes a worktree for a branch. -/
def addWorktree (branch : Text) (path : Option Text) : WorldAction Unit := do
  require (failOn BranchDefect.toFault (branchDefect? branch))
  let path ←
    match path with
    | some path => pure path
    | none => do
      let root ← gitOutput ["rev-parse".toList, "--show-toplevel".toList]
      pure (Worktree.defaultPath root branch)
  runGit ["worktree".toList, "add".toList, path, branch]
  printLine ("Worktree for ".toList ++ branch ++ " at ".toList ++ path)

/-- Removes the worktree of a branch. -/
def removeWorktree (branch : Text) (force : Bool) : WorldAction Unit := do
  let listing ← gitOutput ["worktree".toList, "list".toList, "--porcelain".toList]
  match Worktree.find? listing branch with
  | none => throw (.git ("No worktree is checked out on '".toList ++ branch ++ "'".toList))
  | some path =>
    runGit (["worktree".toList, "remove".toList] ++ (if force then ["--force".toList] else []) ++ [path])

/-- Carries out a command on worktrees. -/
def worktree : WorktreeCommand → WorldAction Unit
  | .add branch path => addWorktree branch path
  | .list => runGit ["worktree".toList, "list".toList]
  | .remove branch force => removeWorktree branch force

/-- Carries out a command that runs git. -/
def git (settings : Settings) : GitCommand → WorldAction Unit
  | .commit request => commit settings request
  | .branch none => runGit ["branch".toList, "--list".toList]
  | .branch (some name) => createBranch settings name
  | .checkout branch => runGit ["checkout".toList, branch]
  | .push remote args => runGit ("push".toList :: remote.getD settings.git.defaultRemote :: args)
  | .pull rebase => runGit ("pull".toList :: if rebase then ["--rebase".toList] else [])
  | .worktree command => worktree command

end Run

end DevWorkflow
