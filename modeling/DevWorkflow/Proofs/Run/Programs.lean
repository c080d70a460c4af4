import DevWorkflow.Proofs.World.Actions

/-!
# Commands that start programs

Once the settings are there, commands that start programs or print scripts leave the files as they are.
-/

namespace DevWorkflow

namespace Run

open WorldAction

theorem keepsFiles_runGit (args : List Text) : KeepsFiles (runGit args) := by
  refine (keepsFiles_startPrinting gitProgram args).bind fun result => ?_
  cases result with
  | error e => exact keepsFiles_throw _
  | ok exit =>
    simp only
    split
    · exact keepsFiles_pure ()
    · exact keepsFiles_throw _

theorem keepsFiles_gitOutput (args : List Text) : KeepsFiles (gitOutput args) := by
  refine (keepsFiles_start gitProgram args).bind fun result => ?_
  cases result with
  | error e => exact keepsFiles_throw _
  | ok r =>
    simp only
    split
    · exact keepsFiles_throw _
    · split
      · exact keepsFiles_throw _
      · exact keepsFiles_pure _

theorem keepsFiles_commit (settings : Settings) (r : CommitRequest) : KeepsFiles (commit settings r) := by
  have hmake : ∀ message, KeepsFiles (do
      if r.all then runGit ["add".toList, "--update".toList]
      runGit (commitArgs settings.git.signCommits message)) := by
    intro message
    dsimp only
    split
    · exact (keepsFiles_runGit _).bind fun _ => keepsFiles_runGit _
    · exact keepsFiles_runGit _
  refine (keepsFiles_require _).bind fun _ => ?_
  dsimp only
  split
  · exact (keepsFiles_throw _).bind fun _ => hmake _
  · exact hmake _

theorem keepsFiles_addWorktree (branch : Text) (path : Option Text) : KeepsFiles (addWorktree branch path) := by
  have hadd : ∀ path, KeepsFiles (runGit ["worktree".toList, "add".toList, path, branch] >>= fun _ =>
      printLine ("Worktree for ".toList ++ branch ++ " at ".toList ++ path)) :=
    fun path => (keepsFiles_runGit _).bind fun _ => keepsFiles_printLine _
  refine (keepsFiles_require _).bind fun _ => ?_
  dsimp only
  cases path with
  | some path => exact hadd path
  | none => exact (keepsFiles_gitOutput _).bind fun root => hadd _

theorem keepsFiles_worktree (c : WorktreeCommand) : KeepsFiles (worktree c) := by
  cases c with
  | add branch path => exact keepsFiles_addWorktree branch path
  | list => exact keepsFiles_runGit _
  | remove branch force =>
    refine (keepsFiles_gitOutput _).bind fun listing => ?_
    cases Worktree.find? listing branch with
    | none => exact keepsFiles_throw _
    | some path => exact keepsFiles_runGit _

/-- Running git leaves the files as they are. -/
theorem keepsFiles_git (settings : Settings) (c : GitCommand) : KeepsFiles (git settings c) := by
  cases c with
  | commit request => exact keepsFiles_commit settings request
  | branch name =>
    cases name with
    | none => exact keepsFiles_runGit _
    | some name =>
      exact (keepsFiles_require _).bind fun _ => (keepsFiles_runGit _).bind fun _ => keepsFiles_printLine _
  | checkout branch => exact keepsFiles_runGit _
  | push remote args => exact keepsFiles_runGit _
  | pull rebase => exact keepsFiles_runGit _
  | worktree c => exact keepsFiles_worktree c

theorem keepsFiles_launch (l : Launch) : KeepsFiles (launch l) := by
  refine (keepsFiles_startPrinting l.program l.args).bind fun result => ?_
  cases result with
  | error e => exact keepsFiles_throw _
  | ok exit =>
    simp only
    split
    · exact keepsFiles_pure ()
    · exact keepsFiles_throw _

/-- Starting the coding agent leaves the files as they are. -/
theorem keepsFiles_agent (settings : Settings) (args : List Text) : KeepsFiles (agent settings args) :=
  (keepsFiles_require _).bind keepsFiles_launch

/-- Updating the program leaves the files as they are. -/
theorem keepsFiles_update (settings : Settings) (check : Bool) : KeepsFiles (update settings check) := by
  refine (keepsFiles_require _).bind fun l => ?_
  cases check with
  | true => exact (keepsFiles_printLine _).bind fun _ => keepsFiles_printLine _
  | false => exact (keepsFiles_launch l).bind fun _ => keepsFiles_printLine _

/-- Printing a script leaves the files as they are. -/
theorem keepsFiles_completion (shell : Shell) (builtIn : Bool) : KeepsFiles (completion shell builtIn) :=
  (keepsFiles_require _).bind fun _ => keepsFiles_print _

end Run

end DevWorkflow
