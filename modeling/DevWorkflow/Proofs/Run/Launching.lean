import DevWorkflow.Proofs.Text.CommandLines
import DevWorkflow.Proofs.Text.Splitting
import DevWorkflow.Proofs.World.Attempts

/-!
# Which configured command lines start programs

Of a configured command line it is only asked that it is not blank; whether it has words is found out when it is used. So there are
accepted settings with which no program can be started: just those with a command line that leaves something open at its end or that
has comments only, and then the commands that use it say so (`Run.refused_iff`).
-/

namespace DevWorkflow

open ShellWords

/-! ## Accepted command lines -/

/-- The blanks between words are blanks. -/
theorem ShellWords.isBlank_of_isSeparator {c : Char} (h : isSeparator c = true) : Text.isBlank c = true := by
  simp only [isSeparator, Bool.or_eq_true, decide_eq_true_eq] at h
  rcases h with (rfl | rfl) | rfl <;> decide

namespace Settings

theorem exists_of_commandDefect? {key : SettingKey} {line : Text} (h : commandDefect? key line = none) :
    ∃ c ∈ line, isSeparator c = false := by
  by_contra hnone
  have hblank : ∀ c ∈ line, Text.isBlank c = true := by
    intro c hc
    cases hc' : isSeparator c with
    | true => exact isBlank_of_isSeparator hc'
    | false => exact absurd ⟨c, hc, hc'⟩ hnone
  rw [commandDefect?, Text.trim_of_forall hblank] at h
  nomatch h

/-- The command lines of accepted settings have more than the blanks that stand between words. -/
theorem exists_of_accepted {s : Settings} (hs : s.defect? = none) {line : Text} (hline : line ∈ [s.agentCommand, s.updateCommand]) :
    ∃ c ∈ line, isSeparator c = false := by
  obtain ⟨-, hs⟩ := Option.or_eq_none_iff.1 hs
  obtain ⟨-, hs⟩ := Option.or_eq_none_iff.1 hs
  obtain ⟨hagent, hupdate⟩ := Option.or_eq_none_iff.1 hs
  rcases List.mem_pair.1 hline with rfl | rfl
  · exact exists_of_commandDefect? hagent
  · exact exists_of_commandDefect? hupdate

end Settings

/-! ## Programs that are started -/

namespace Launch

/-- Why a command line that is not blank starts no program, as it is said: something is left open at its end, or it has comments and
no words. -/
inductive Refuses (line : Text) : Text → Prop where
  | leftOpen (h : Reads line none) : Refuses line ("Cannot parse command line: ".toList ++ line)
  | onlyComments (h : Reads line (some [])) (hcomment : '#' ∈ line) : Refuses line "Command line is empty".toList

theorem ofLine_eq_ok_iff {line : Text} {l : Launch} : ofLine line = .ok l ↔ Reads line (some l.words) := by
  rw [← split_eq_iff_reads]
  unfold ofLine words
  cases split line with
  | none => simp
  | some words =>
    cases words with
    | nil => simp
    | cons program args =>
      obtain ⟨program', args'⟩ := l
      simp

theorem ofLine_eq_error_iff {line : Text} (hline : ∃ c ∈ line, isSeparator c = false) {fault : Fault} :
    ofLine line = .error fault ↔ ∃ message, fault = .config message ∧ Refuses line message := by
  constructor
  · intro h
    unfold ofLine at h
    cases hsplit : split line with
    | none =>
      rw [hsplit] at h
      obtain rfl := Except.error.inj h
      exact ⟨_, rfl, .leftOpen (split_eq_iff_reads.1 hsplit)⟩
    | some words =>
      cases words with
      | nil =>
        rw [hsplit] at h
        obtain rfl := Except.error.inj h
        have hreads : Reads line (some []) := split_eq_iff_reads.1 hsplit
        exact ⟨_, rfl, .onlyComments hreads (hreads.comment_of_nil hline)⟩
      | cons program args => simp [hsplit] at h
  · rintro ⟨message, rfl, hrefuses⟩
    cases hrefuses with
    | leftOpen h => rw [ofLine, split_eq_iff_reads.2 h]
    | onlyComments h _ => rw [ofLine, split_eq_iff_reads.2 h]

end Launch

namespace Run

open WorldAction

/-- What goes wrong when a program is started is no fault of the settings. -/
theorem launch_ne_config (l : Launch) (w : World) (message : Text) : ((launch l).runOn w).1 ≠ .error (.config message) := by
  obtain ⟨result, w₁, hstart, -⟩ := exists_of_startPrinting l.program l.args w
  rw [launch, runOn_bind, hstart]
  cases result with
  | error e => exact nofun
  | ok r =>
    simp only [Except.map]
    split <;> exact nofun

/-- The coding agent fails for its settings just if their command line starts no program. -/
theorem agent_eq_config_iff {s : Settings} {args : List Text} {w : World} {message : Text} :
    ((agent s args).runOn w).1 = .error (.config message) ↔ Launch.ofLine s.agentCommand = .error (.config message) := by
  have hline : agentLaunch s args = .error (.config message) ↔ Launch.ofLine s.agentCommand = .error (.config message) := by
    rw [agentLaunch]
    cases Launch.ofLine s.agentCommand <;> simp [Except.map]
  rw [agent, require_bind_eq_error_iff fun l w => launch_ne_config l w message, hline]

/-- Updating fails for its settings just if their command line starts no program. -/
theorem update_eq_config_iff {s : Settings} {check : Bool} {w : World} {message : Text} :
    ((update s check).runOn w).1 = .error (.config message) ↔ Launch.ofLine s.updateCommand = .error (.config message) := by
  rw [update]
  refine require_bind_eq_error_iff (fun l w => ?_) w
  cases check with
  | true => exact nofun
  | false =>
    rw [if_neg Bool.false_ne_true, runOn_bind]
    have hlaunch := launch_ne_config l w message
    rcases hrun : (launch l).runOn w with ⟨result, w'⟩
    rw [hrun] at hlaunch
    cases result with
    | error fault => exact hlaunch
    | ok _ => exact nofun

/-- With accepted settings, the words of a configured command line are a program and its arguments, unless the line leaves something
open at its end or has comments only. Just then is there a fault of the settings when the coding agent is started or the program is
updated, and it says which of the two it is. -/
theorem refused_iff {s : Settings} (hs : s.defect? = none) :
    (∀ line ∈ [s.agentCommand, s.updateCommand],
      (∀ l, Launch.ofLine line = .ok l ↔ Reads line (some l.words)) ∧
        ∀ fault, Launch.ofLine line = .error fault ↔ ∃ message, fault = .config message ∧ Launch.Refuses line message) ∧
      (∀ args w message, ((agent s args).runOn w).1 = .error (.config message) ↔ Launch.Refuses s.agentCommand message) ∧
        ∀ check w message, ((update s check).runOn w).1 = .error (.config message) ↔ Launch.Refuses s.updateCommand message := by
  have herror : ∀ line ∈ [s.agentCommand, s.updateCommand], ∀ fault,
      Launch.ofLine line = .error fault ↔ ∃ message, fault = .config message ∧ Launch.Refuses line message :=
    fun line hline fault => Launch.ofLine_eq_error_iff (Settings.exists_of_accepted hs hline)
  have hconfig : ∀ line ∈ [s.agentCommand, s.updateCommand], ∀ message,
      Launch.ofLine line = .error (.config message) ↔ Launch.Refuses line message := by
    intro line hline message
    rw [herror line hline]
    simp
  refine ⟨fun line hline => ⟨fun l => Launch.ofLine_eq_ok_iff, herror line hline⟩, fun args w message => ?_,
    fun check w message => ?_⟩
  · exact agent_eq_config_iff.trans (hconfig _ (by simp) message)
  · exact update_eq_config_iff.trans (hconfig _ (by simp) message)

/-- Settings with comments on the agent and in place of a command for updates. -/
def remarkSettings : Settings :=
  { Settings.default with agentCommand := "claude --model 'opus large' # not haiku".toList, updateCommand := "# by hand".toList }

/-- The agent has its words, but there are none for updates. -/
theorem refused_iff_remark :
    remarkSettings.defect? = none ∧
      Reads remarkSettings.agentCommand (some ["claude".toList, "--model".toList, "opus large".toList]) ∧
      ∀ check w, ((update remarkSettings check).runOn w).1 = .error (.config "Command line is empty".toList) := by
  have hs : remarkSettings.defect? = none := by decide
  have hagent : Launch.ofLine remarkSettings.agentCommand = .ok ⟨"claude".toList, ["--model".toList, "opus large".toList]⟩ := by
    decide
  have hupdate : split remarkSettings.updateCommand = some [] := by decide
  obtain ⟨hlines, -, hfails⟩ := refused_iff hs
  refine ⟨hs, ((hlines _ (by simp)).1 _).1 hagent, fun check w => (hfails check w _).2 ?_⟩
  exact .onlyComments (split_eq_iff_reads.1 hupdate) (by decide)

/-- A command line that leaves a quote open is accepted, and starts no program. -/
theorem refused_unterminated :
    let s : Settings := { Settings.default with agentCommand := "claude 'unterminated".toList }
    s.defect? = none ∧
      Launch.ofLine s.agentCommand = .error (.config "Cannot parse command line: claude 'unterminated".toList) := by
  decide

end Run

end DevWorkflow
