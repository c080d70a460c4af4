import DevWorkflow.Proofs.Run.Settings
import DevWorkflow.Proofs.World.Attempts

/-!
# What commands start

A command that starts programs has a plan (`Command.plan`), and something may be wrong with it before any program is started
(`Command.refusal?`). A run tries nothing unless the settings are loaded and nothing is wrong; otherwise it follows the plan, never
goes on after a program that did not end well, and succeeds exactly if the whole plan was carried out (`Run.attempts_follow_plan`).
-/

namespace DevWorkflow

/-! ## Plans -/

/-- The programs that a command on git starts, in order. A command on a worktree whose place is not given is about the one at
`place`. -/
def GitCommand.plan (settings : Settings) (place : Text) : GitCommand → List (List Text)
  | .commit r =>
    (if r.all then [["git".toList, "add".toList, "--update".toList]] else [])
      ++ [["git".toList, "commit".toList] ++ (if settings.git.signCommits then ["-S".toList] else [])
        ++ ["-m".toList, commitMessage ((r.type.map CommitType.name).getD settings.commit.defaultType) r.scope r.breaking r.summary]]
  | .branch none => [["git".toList, "branch".toList, "--list".toList]]
  | .branch (some name) => [["git".toList, "branch".toList, settings.prefixedBranch name]]
  | .checkout name => [["git".toList, "checkout".toList, name]]
  | .push remote args => [["git".toList, "push".toList, remote.getD settings.git.defaultRemote] ++ args]
  | .pull rebase => [["git".toList, "pull".toList] ++ if rebase then ["--rebase".toList] else []]
  | .worktree (.add name (some path)) => [["git".toList, "worktree".toList, "add".toList, path, name]]
  | .worktree (.add name none) =>
    [["git".toList, "rev-parse".toList, "--show-toplevel".toList],
      ["git".toList, "worktree".toList, "add".toList, place, name]]
  | .worktree .list => [["git".toList, "worktree".toList, "list".toList]]
  | .worktree (.remove _ force) =>
    [["git".toList, "worktree".toList, "list".toList, "--porcelain".toList],
      ["git".toList, "worktree".toList, "remove".toList] ++ (if force then ["--force".toList] else []) ++ [place]]

/-- What is wrong with a configured command line. -/
def Launch.fault? (line : Text) : Option Fault :=
  match ofLine line with
  | .error fault => some fault
  | .ok _ => none

namespace Command

/-- Whether the command is one of those that start programs. -/
def startsPrograms : Command → Bool
  | git _ | update _ | agent _ => true
  | init .. | config _ | completion .. => false

/-- The programs that a command starts, in order. -/
def plan (settings : Settings) (place : Text) : Command → List (List Text)
  | git c => c.plan settings place
  | update true => []
  | update false => [(ShellWords.split settings.updateCommand).getD []]
  | agent args => [(ShellWords.split settings.agentCommand).getD [] ++ args]
  | init .. | config _ | completion .. => []

/-- What is wrong with a command before any program is started: a commit cannot be made as asked or has no scope where one is
required, a branch cannot have the name, or a configured command line cannot be split. -/
def refusal? (settings : Settings) : Command → Option Fault
  | git (.commit r) =>
    match r.defect? with
    | some d => some d.toFault
    | none =>
      if settings.commit.requireScope && r.scope.isNone then
        some (.invalidArgs "A commit scope is required (commit.require_scope). Pass --scope".toList)
      else none
  | git (.branch (some name)) => (branchDefect? name).map BranchDefect.toFault
  | git (.worktree (.add branch _)) => (branchDefect? branch).map BranchDefect.toFault
  | update _ => Launch.fault? settings.updateCommand
  | agent _ => Launch.fault? settings.agentCommand
  | _ => none

/-- Whether a place is the one that a command on a worktree is about, after what git answered first. -/
def IsAbout (place answer : Text) : Command → Prop
  | git (.worktree (.add branch none)) => place = Worktree.defaultPath answer branch
  | git (.worktree (.remove branch _)) => Worktree.find? answer branch = some place
  | _ => True

/-- How some attempts carry out a command: they follow its plan, of which the programs that were started are the beginning, and
what comes after git's first answer is about the place that the answer gives. -/
def Follows (settings : Settings) (c : Command) (attempts : List Attempt) (done : Prop) : Prop :=
  ∃ place, FollowsPlan (c.plan settings place) attempts done ∧ Attempt.started attempts <+: c.plan settings place ∧
    ∀ first rest, attempts = first :: rest → rest ≠ [] → c.IsAbout place first.answer

theorem Follows.congr {settings : Settings} {c : Command} {attempts : List Attempt} {done done' : Prop}
    (h : c.Follows settings attempts done) (hdone : done' ↔ done) : c.Follows settings attempts done' := by
  obtain ⟨place, hfollows, hrest⟩ := h
  exact ⟨place, hfollows.congr hdone, hrest⟩

end Command

namespace Run

open WorldAction

/-! ## Single programs -/

theorem realizes_runGit (args : List Text) : Realizes (runGit args) [gitProgram :: args] := by
  refine realizes_startPrinting_bind rfl (fun e => ⟨_, rfl⟩) ?_
  intro exit hexit
  simp only [hexit]
  exact ⟨_, rfl⟩

theorem realizes_launch (l : Launch) : Realizes (launch l) [l.words] := by
  refine realizes_startPrinting_bind rfl (fun e => ⟨_, rfl⟩) ?_
  intro exit hexit
  simp only [hexit]
  exact ⟨_, rfl⟩

/-- Asking git is one attempt; an answer is given only if git ended well, and it is what git printed. -/
theorem exists_attempt_gitOutput (args : List Text) (w : World) :
    ∃ a : Attempt, a.words = gitProgram :: args ∧ World.Tries w [a] ((gitOutput args).runOn w).2 ∧
      ∀ answer, ((gitOutput args).runOn w).1 = .ok answer → a.Succeeded ∧ answer = a.answer := by
  obtain ⟨result, w₁, hstart, -⟩ := exists_of_start gitProgram args w
  refine ⟨⟨gitProgram :: args, result⟩, rfl, ?_⟩
  rw [gitOutput, runOn_bind, hstart]
  cases result with
  | error e => exact ⟨.start hstart (.refl _), nofun⟩
  | ok r =>
    cases hexit : r.exit.isSuccess with
    | false =>
      simp only [hexit]
      exact ⟨.start hstart (.refl _), nofun⟩
    | true =>
      simp only [hexit]
      cases Text.damage? r.stdout with
      | some d => exact ⟨.start hstart (.refl _), nofun⟩
      | none =>
        refine ⟨.start hstart (.refl _), ?_⟩
        intro answer hanswer
        exact ⟨⟨r, rfl, of_decide_eq_true hexit⟩, (Except.ok.inj hanswer).symm⟩

/-- A command without a place to be found follows its plan. -/
theorem follows_of_realizes {settings : Settings} (c : Command) (habout : ∀ place answer, c.IsAbout place answer)
    {plan : List (List Text)} (hplan : ∀ place, c.plan settings place = plan) {action : WorldAction Unit}
    (h : Realizes action plan) (w : World) :
    ∃ attempts, World.Tries w attempts (action.runOn w).2 ∧ c.Follows settings attempts ((action.runOn w).1.isOk = true) := by
  obtain ⟨attempts, htries, hfollows⟩ := h w
  rw [← hplan []] at hfollows
  exact ⟨attempts, htries, [], hfollows, hfollows.started_prefix, fun _ _ _ _ => habout _ _⟩

/-- A command that asks git for a place, and then starts git for it if there is one, follows its plan. -/
theorem follows_of_gitOutput {settings : Settings} (c : Command) {args : List Text} (words : Text → List Text)
    (hplan : ∀ place, c.plan settings place = [gitProgram :: args, words place]) {next : Text → WorldAction Unit}
    (hnext : ∀ answer, (∃ place, c.IsAbout place answer ∧ Realizes (next answer) [words place]) ∨
      ∃ fault, next answer = throw fault) (w : World) :
    ∃ attempts, World.Tries w attempts ((gitOutput args >>= next).runOn w).2 ∧
      c.Follows settings attempts (((gitOutput args >>= next).runOn w).1.isOk = true) := by
  obtain ⟨a, hwords, htries, hanswer⟩ := exists_attempt_gitOutput args w
  rcases hrun : (gitOutput args).runOn w with ⟨result, w₁⟩
  rw [hrun] at htries hanswer
  -- Where it is given up after the first program, the second one is not tried.
  have hgivenUp : c.Follows settings [a] (false = true) := by
    have hfollows := (FollowsPlan.first_of_several a (List.cons_ne_nil (words []) [])).congr
      (iff_of_false Bool.false_ne_true not_false)
    rw [hwords, ← hplan] at hfollows
    refine ⟨[], hfollows, hfollows.started_prefix, ?_⟩
    intro first rest heq hrest
    exact absurd (List.cons.inj heq).2.symm hrest
  cases result with
  | error fault =>
    rw [runOn_bind, hrun]
    exact ⟨[a], htries, hgivenUp⟩
  | ok answer =>
    obtain ⟨hsucceeded, rfl⟩ := hanswer answer rfl
    rcases hnext a.answer with ⟨place, habout, hrealizes⟩ | ⟨fault, hfault⟩
    · obtain ⟨later, hlater, hfollows⟩ := exists_attempts_of_bind hrun htries (.single (iff_of_true trivial hsucceeded)) hrealizes
      rw [hwords, List.singleton_append, ← hplan] at hfollows
      refine ⟨_, hlater, place, hfollows, hfollows.started_prefix, ?_⟩
      intro first rest heq _
      obtain ⟨rfl, -⟩ := List.cons.inj heq
      exact habout
    · rw [runOn_bind, hrun]
      simp only [hfault]
      exact ⟨[a], htries, hgivenUp⟩

/-! ## Commands -/

/-- Carries out a command that starts programs. -/
def perform (settings : Settings) : Command → WorldAction Unit
  | .git c => git settings c
  | .update check => update settings check
  | .agent args => agent settings args
  | .init .. | .config _ | .completion .. => pure ()

/-- A command that starts programs is carried out with the settings of the session. -/
theorem command_eq {c : Command} (h : c.startsPrograms = true) (s : Session) :
    command s c = sessionSettings s >>= fun settings => perform settings c := by
  cases c with
  | git c => rfl
  | update check => rfl
  | agent args => rfl
  | init dir shell noRc => exact absurd h Bool.false_ne_true
  | config c => exact absurd h Bool.false_ne_true
  | completion shell builtIn => exact absurd h Bool.false_ne_true

/-- A commit that nothing is wrong with. -/
theorem commit_eq {settings : Settings} {r : CommitRequest} (h : (Command.git (.commit r)).refusal? settings = none) :
    commit settings r = (if r.all then runGit ["add".toList, "--update".toList] else pure ()) >>= fun _ =>
      runGit (commitArgs settings.git.signCommits
        (commitMessage ((r.type.map CommitType.name).getD settings.commit.defaultType) r.scope r.breaking r.summary)) := by
  unfold Command.refusal? at h
  cases hdefect : r.defect? with
  | some d => simp [hdefect] at h
  | none =>
    simp only [hdefect] at h
    have hscope : (settings.commit.requireScope && r.scope.isNone) = false := by
      cases hscope : settings.commit.requireScope && r.scope.isNone with
      | false => rfl
      | true => simp [hscope] at h
    unfold commit
    rw [hdefect, failOn, require_ok_bind]
    simp only [hscope]
    cases r.all <;> rfl

/-- If something is wrong with a command, it fails at once. -/
theorem perform_of_refusal {settings : Settings} {c : Command} {fault : Fault} (h : c.refusal? settings = some fault) :
    perform settings c = throw fault := by
  have hline : ∀ {line : Text}, Launch.fault? line = some fault → Launch.ofLine line = .error fault := by
    intro line hline
    unfold Launch.fault? at hline
    cases hl : Launch.ofLine line with
    | error fault' => simpa [hl] using hline
    | ok l => simp [hl] at hline
  have hbranch : ∀ {name : Text}, (branchDefect? name).map BranchDefect.toFault = some fault →
      failOn BranchDefect.toFault (branchDefect? name) = .error fault := by
    intro name hname
    obtain ⟨d, hd, rfl⟩ := Option.map_eq_some_iff.1 hname
    rw [hd, failOn]
  cases c with
  | update check => rw [perform, update, hline h, require_error_bind]
  | agent args => rw [perform, agent, agentLaunch, hline h, Except.map, require_error_bind]
  | init dir shell noRc => exact nomatch h
  | config c => exact nomatch h
  | completion shell builtIn => exact nomatch h
  | git c =>
    rw [perform]
    cases c with
    | checkout branch => exact nomatch h
    | push remote args => exact nomatch h
    | pull rebase => exact nomatch h
    | branch name =>
      cases name with
      | none => exact nomatch h
      | some name => rw [git, createBranch, hbranch h, require_error_bind]
    | worktree c =>
      cases c with
      | list => exact nomatch h
      | remove branch force => exact nomatch h
      | add branch path => rw [git, worktree, addWorktree, hbranch h, require_error_bind]
    | commit r =>
      rw [git, commit]
      unfold Command.refusal? at h
      cases hdefect : r.defect? with
      | some d =>
        obtain rfl : d.toFault = fault := by simpa [hdefect] using h
        rw [failOn, require_error_bind]
      | none =>
        simp only [hdefect] at h
        cases hscope : settings.commit.requireScope && r.scope.isNone with
        | false => simp [hscope] at h
        | true =>
          simp only [hscope, if_true, Option.some.injEq] at h
          subst h
          rw [failOn, require_ok_bind]
          rfl

/-- A command on worktrees that nothing is wrong with follows its plan. -/
theorem follows_worktree {settings : Settings} {c : WorktreeCommand}
    (h : (Command.git (.worktree c)).refusal? settings = none) (w : World) :
    ∃ attempts, World.Tries w attempts ((worktree c).runOn w).2 ∧
      (Command.git (.worktree c)).Follows settings attempts (((worktree c).runOn w).1.isOk = true) := by
  cases c with
  | list => exact follows_of_realizes (.git (.worktree .list)) (fun _ _ => trivial) (fun _ => rfl) (realizes_runGit _) w
  | add branch path =>
    have hbranch : branchDefect? branch = none := Option.map_eq_none_iff.1 h
    have hadd : ∀ path, Realizes (runGit ["worktree".toList, "add".toList, path, branch] >>= fun _ =>
        printLine ("Worktree for ".toList ++ branch ++ " at ".toList ++ path))
        [["git".toList, "worktree".toList, "add".toList, path, branch]] :=
      fun path => (realizes_runGit _).bind fun _ => realizes_printLine _
    rw [worktree, addWorktree, hbranch, failOn, require_ok_bind]
    cases path with
    | some path =>
      exact follows_of_realizes (.git (.worktree (.add branch (some path)))) (fun _ _ => trivial) (fun _ => rfl) (hadd path) w
    | none =>
      refine follows_of_gitOutput _ (fun place => ["git".toList, "worktree".toList, "add".toList, place, branch]) (fun _ => rfl)
        ?_ w
      exact fun answer => .inl ⟨_, rfl, hadd (Worktree.defaultPath answer branch)⟩
  | remove branch force =>
    rw [worktree, removeWorktree]
    refine follows_of_gitOutput _
      (fun place => ["git".toList, "worktree".toList, "remove".toList] ++ (if force then ["--force".toList] else []) ++ [place])
      (fun _ => rfl) ?_ w
    intro answer
    cases hfound : Worktree.find? answer branch with
    | none => exact .inr ⟨_, rfl⟩
    | some place => exact .inl ⟨place, hfound, realizes_runGit _⟩

/-- A command on git that nothing is wrong with follows its plan. -/
theorem follows_git {settings : Settings} {c : GitCommand} (h : (Command.git c).refusal? settings = none) (w : World) :
    ∃ attempts, World.Tries w attempts ((git settings c).runOn w).2 ∧
      (Command.git c).Follows settings attempts (((git settings c).runOn w).1.isOk = true) := by
  cases c with
  | worktree c => exact follows_worktree h w
  | checkout name => exact follows_of_realizes (.git (.checkout name)) (fun _ _ => trivial) (fun _ => rfl) (realizes_runGit _) w
  | push remote args => exact follows_of_realizes (.git (.push remote args)) (fun _ _ => trivial) (fun _ => rfl) (realizes_runGit _) w
  | pull rebase => exact follows_of_realizes (.git (.pull rebase)) (fun _ _ => trivial) (fun _ => rfl) (realizes_runGit _) w
  | branch name =>
    cases name with
    | none => exact follows_of_realizes (.git (.branch none)) (fun _ _ => trivial) (fun _ => rfl) (realizes_runGit _) w
    | some name =>
      have hbranch : branchDefect? name = none := Option.map_eq_none_iff.1 h
      have hmake := (realizes_runGit ["branch".toList, settings.prefixedBranch name]).bind fun _ =>
        realizes_printLine ("Created branch ".toList ++ settings.prefixedBranch name)
      rw [git, createBranch, hbranch, failOn, require_ok_bind]
      exact follows_of_realizes (.git (.branch (some name))) (fun _ _ => trivial) (fun _ => rfl) hmake w
  | commit r =>
    have hstage : Realizes (if r.all then runGit ["add".toList, "--update".toList] else pure ())
        (if r.all then [["git".toList, "add".toList, "--update".toList]] else []) := by
      cases r.all with
      | true => exact realizes_runGit _
      | false => exact realizes_pure ()
    rw [git, commit_eq h]
    exact follows_of_realizes (.git (.commit r)) (fun _ _ => trivial) (fun _ => rfl) (hstage.bind fun _ => realizes_runGit _) w

/-- A configured command line that nothing is wrong with gives the words of a program to start. -/
theorem exists_launch {line : Text} (h : Launch.fault? line = none) :
    ∃ l, Launch.ofLine line = .ok l ∧ ShellWords.split line = some l.words := by
  unfold Launch.fault? Launch.ofLine at h
  unfold Launch.ofLine
  cases hsplit : ShellWords.split line with
  | none => simp [hsplit] at h
  | some words =>
    cases words with
    | nil => simp [hsplit] at h
    | cons program args => exact ⟨⟨program, args⟩, rfl, rfl⟩

/-- A command that nothing is wrong with follows its plan. -/
theorem follows_perform {settings : Settings} {c : Command} (hstarts : c.startsPrograms = true)
    (h : c.refusal? settings = none) (w : World) :
    ∃ attempts, World.Tries w attempts ((perform settings c).runOn w).2 ∧
      c.Follows settings attempts (((perform settings c).runOn w).1.isOk = true) := by
  cases c with
  | init dir shell noRc => exact absurd hstarts Bool.false_ne_true
  | config c => exact absurd hstarts Bool.false_ne_true
  | completion shell builtIn => exact absurd hstarts Bool.false_ne_true
  | git c => exact follows_git h w
  | agent args =>
    obtain ⟨l, hl, hsplit⟩ := exists_launch h
    rw [perform, agent, agentLaunch, hl, Except.map, require_ok_bind]
    refine follows_of_realizes (.agent args) (fun _ _ => trivial) (fun _ => ?_) (realizes_launch (l.extend args)) w
    rw [Command.plan, hsplit]
    rfl
  | update check =>
    obtain ⟨l, hl, hsplit⟩ := exists_launch h
    rw [perform, update, hl, require_ok_bind]
    cases check with
    | true =>
      have hsay := (realizes_printLine (programName ++ " ".toList ++ programVersion)).bind fun _ =>
        realizes_printLine ("Update command: ".toList ++ settings.updateCommand)
      exact follows_of_realizes (.update true) (fun _ _ => trivial) (fun _ => rfl) hsay w
    | false =>
      have hupdate := (realizes_launch l).bind fun _ => realizes_printLine ("✅ ".toList ++ programName ++ " updated".toList)
      refine follows_of_realizes (.update false) (fun _ _ => trivial) (fun _ => ?_) hupdate w
      rw [Command.plan, hsplit]
      rfl

/-! ## Runs -/

/-- Loading the settings starts no program. -/
theorem quiet_sessionSettings (s : Session) (w : World) :
    ((sessionSettings s).runOn w).2.started = w.started ∧ ((sessionSettings s).runOn w).2.programs = w.programs := by
  unfold sessionSettings
  split
  · exact ⟨rfl, rfl⟩
  · exact ⟨rfl, rfl⟩

/-- What a run tries. If the command line cannot be read, the settings are not loaded or something is wrong with the command,
it fails and nothing is tried. Otherwise it follows the plan of the command: programs are tried in its order, none of them after
one that could not be started or did not end well, and the run succeeds exactly if the whole plan was tried and every program
ended well. The programs that were started are those recorded. -/
theorem attempts_follow_plan (s : Session) (argv : List Text) (w : World)
    (h : ∀ i, Invocation.parse argv = .ok i → i.command.startsPrograms = true) :
    ∃ attempts, World.Tries w attempts (run s argv w).2 ∧
      (run s argv w).2.started = w.started ++ Attempt.started attempts ∧
      match Invocation.parse argv with
      | .error e => attempts = [] ∧ (run s argv w).1 = .usage e
      | .ok i =>
        match ((sessionSettings s).runOn w).1 with
        | .error fault => attempts = [] ∧ (run s argv w).1 = .failed fault
        | .ok settings =>
          match i.command.refusal? settings with
          | some fault => attempts = [] ∧ (run s argv w).1 = .failed fault
          | none => i.command.Follows settings attempts ((run s argv w).1 = .done) := by
  cases hi : Invocation.parse argv with
  | error e =>
    rw [run, hi]
    exact ⟨[], .refl w, (List.append_nil _).symm, rfl, rfl⟩
  | ok i =>
    obtain ⟨hstarted, hprograms⟩ := quiet_sessionSettings s w
    rw [run_of_parse hi, command_eq (h i hi), runOn_bind]
    rcases hload : (sessionSettings s).runOn w with ⟨result, w₁⟩
    rw [hload] at hstarted hprograms
    have hnothing : w₁.started = w.started ++ Attempt.started [] := hstarted.trans (List.append_nil _).symm
    cases result with
    | error fault => exact ⟨[], .of_quiet hstarted hprograms, hnothing, rfl, rfl⟩
    | ok settings =>
      dsimp only
      cases hrefusal : i.command.refusal? settings with
      | some fault =>
        rw [perform_of_refusal hrefusal]
        exact ⟨[], .of_quiet hstarted hprograms, hnothing, rfl, rfl⟩
      | none =>
        obtain ⟨attempts, htries, hfollows⟩ := follows_perform (h i hi) hrefusal w₁
        rcases hrun : (perform settings i.command).runOn w₁ with ⟨result, w'⟩
        rw [hrun] at htries hfollows
        have htries' := htries.quiet hstarted hprograms
        cases result with
        | error fault => exact ⟨attempts, htries', htries'.started_eq, hfollows.congr (iff_of_false (by simp) Bool.false_ne_true)⟩
        | ok _ => exact ⟨attempts, htries', htries'.started_eq, hfollows.congr (iff_of_true rfl rfl)⟩

/-- The removal of the worktree of a branch. -/
def removeTopic : Command := .git (.worktree (.remove "topic".toList false))

/-- The command line that asks for it. -/
def removeTopicLine : List Text := "devx".toList :: removeTopic.words

/-- A session with the default settings. -/
def defaultSession : Session := { settings := some Settings.default }

/-- A world in which git lists the worktree of the branch but does not remove it. -/
def topicWorld : World :=
  { programs := [⟨gitProgram, [{ stdout := Text.encode "worktree /work/topic\nbranch refs/heads/topic\n".toList },
      { exit := .code 128 }]⟩] }

/-- Git is asked for the worktree and then told to remove it. It refuses, so that the run fails, with all of the plan started but
not done. -/
theorem attempts_follow_plan_removal :
    ∃ attempts place, World.Tries topicWorld attempts (run defaultSession removeTopicLine topicWorld).2 ∧
      Attempt.started attempts = [["git".toList, "worktree".toList, "list".toList, "--porcelain".toList],
        ["git".toList, "worktree".toList, "remove".toList, "/work/topic".toList]] ∧
      FollowsPlan (removeTopic.plan Settings.default place) attempts False := by
  have hparse : Invocation.parse removeTopicLine = .ok ⟨false, removeTopic⟩ :=
    Command.parse_command "devx".toList (c := removeTopic) trivial
  have hstarted : (run defaultSession removeTopicLine topicWorld).2.started =
      [["git".toList, "worktree".toList, "list".toList, "--porcelain".toList],
        ["git".toList, "worktree".toList, "remove".toList, "/work/topic".toList]] := by
    decide +kernel
  have hundone : (run defaultSession removeTopicLine topicWorld).1 ≠ .done := by decide +kernel
  obtain ⟨attempts, htries, hrecorded, hrun⟩ := attempts_follow_plan defaultSession removeTopicLine topicWorld (by
    intro i hi
    rw [hparse] at hi
    obtain rfl := Except.ok.inj hi
    rfl)
  rw [hparse] at hrun
  obtain ⟨place, hfollows, -, -⟩ := hrun
  exact ⟨attempts, place, htries, hrecorded.symm.trans hstarted, hfollows.congr (iff_of_false not_false hundone)⟩

end Run

end DevWorkflow
