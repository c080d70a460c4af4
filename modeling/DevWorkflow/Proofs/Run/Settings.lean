import DevWorkflow.Proofs.CommandLine.Rendering
import DevWorkflow.Proofs.Settings.Creation
import DevWorkflow.Proofs.World.Actions

/-!
# Getting what was set

A run that sets a value loads the settings, changes the one value and saves them (`Run.exists_of_configSet`), and a run that gets
a value prints the one that is loaded (`Run.runOn_configGet`). Saved settings are loaded as they were, so that the second run finds
what the first one left in the file (`Run.get_after_set`).
-/

namespace DevWorkflow

/-! ## Single values -/

/-- What is printed for a key that was set to a text: the text itself, or the truth value for which it stands. -/
def SettingKey.shown? : SettingKey → Text → Option Text
  | commitRequireScope, raw | gitSignCommits, raw => (SettingValue.flagOf? raw).map fun b => (SettingValue.flag b).render
  | agentCommand, raw | commitDefaultType, raw | gitBranchPrefix, raw | gitDefaultRemote, raw | updateCommand, raw => some raw

namespace Settings

/-- Replacing the value of a key by a text changes this value into what is shown for the text, and no other one. -/
theorem get_of_replace {s s' : Settings} {key : SettingKey} {raw : Text} (h : s.replace key raw = .ok s') :
    key.shown? raw = some (s'.get key).render ∧ ∀ other, other ≠ key → s'.get other = s.get other := by
  cases key
  case commitRequireScope | gitSignCommits =>
    simp only [replace] at h
    cases hflag : SettingValue.flagOf? raw with
    | none => simp [hflag] at h
    | some b =>
      simp only [hflag, Except.ok.injEq] at h
      subst h
      refine ⟨by simp [SettingKey.shown?, hflag, get], fun other hother => ?_⟩
      cases other <;> first | rfl | exact absurd rfl hother
  all_goals
    simp only [replace, Except.ok.injEq] at h
    subst h
    refine ⟨rfl, fun other hother => ?_⟩
    cases other <;> first | rfl | exact absurd rfl hother

/-- Settings with another value for a key are those with the value replaced, and they are accepted. -/
theorem replace_of_setValue {s s' : Settings} {key : SettingKey} {raw : Text} (h : s.setValue key.name raw = .ok s') :
    s.replace key raw = .ok s' ∧ s'.defect? = none := by
  rw [setValue, SettingKey.ofName?_name] at h
  simp only at h
  cases hreplace : s.replace key raw with
  | error d =>
    rw [hreplace] at h
    nomatch h
  | ok replaced =>
    rw [hreplace] at h
    obtain ⟨hdefect, rfl⟩ := accept_eq_ok_iff.1 h
    exact ⟨rfl, hdefect⟩

/-- What leads to a file of settings leads to something, so that the settings are loaded and not created. -/
theorem loadOrCreate_of_load {s : Settings} {t : FileTree} {path : Text} (h : (load path).runOn t = (.ok s, t)) :
    (loadOrCreate path).runOn t = (.ok s, t) := by
  obtain ⟨content, hread⟩ := exists_readBytes_of_readFrom (Prod.mk.inj h).1
  rw [runOn_loadOrCreate, if_pos (FileTree.pathExists_of_readBytes hread)]
  exact h

end Settings

/-! ## Runs on the settings -/

/-- The words that ask for a command ask for it without debug messages. -/
theorem Command.parse_command (program : Text) {c : Command} (h : c.IsWritable) :
    Invocation.parse (program :: c.words) = .ok ⟨false, c⟩ := by
  have hcommand := command?_given h (Invocation.verboseOccurrences false)
  have hverbose : (c.given (Invocation.verboseOccurrences false)).hasAnywhere "verbose".toList = false := by
    have hlast : (c.given (Invocation.verboseOccurrences false)).has "verbose".toList = false :=
      has_given_flag h _ (a := Interface.verboseOption) (b := false) c.givenFor_verbose
    rw [Given.hasAnywhere, hlast]
    rfl
  have hcheck := Invocation.check_words (i := ⟨false, c⟩) h
  rw [Invocation.parse, List.tail_cons, Invocation.ofWords]
  rw [show Invocation.words ⟨false, c⟩ = c.words from rfl] at hcheck
  simp only [hcheck, hcommand, hverbose]

namespace Run

open WorldAction Settings

/-- A run on the settings ends well if what is asked for can be done. -/
theorem run_config_eq_done_iff {s : Session} {program : Text} {c : ConfigCommand} {w w' : World} :
    run s (program :: (Command.config c).words) w = (.done, w') ↔ (config s c).runOn w = (.ok (), w') := by
  rw [run_of_parse (Command.parse_command program (c := .config c) trivial)]
  simp only [command]
  rcases (config s c).runOn w with ⟨result, w''⟩
  cases result <;> simp

/-- A run on the settings fails if what is asked for cannot be done. -/
theorem run_config_of_error {s : Session} {c : ConfigCommand} {w w' : World} {fault : Fault}
    (h : (config s c).runOn w = (.error fault, w')) (program : Text) :
    run s (program :: (Command.config c).words) w = (.failed fault, w') := by
  rw [run_of_parse (Command.parse_command program (c := .config c) trivial)]
  simp only [command, h]

/-- A run that gets a value prints it as it is loaded. -/
theorem runOn_configGet {s : Session} {settings : Settings} {w : World} {t : FileTree}
    (h : (loadOrCreate s.settingsPath).runOn w.files = (.ok settings, t)) (key : SettingKey) :
    (configGet s key.name).runOn w =
      (.ok (), World.printing { w with files := t } ((settings.get key).render ++ ['\n'])) := by
  rw [configGet, loadSettings, runOn_onFiles_bind, h]
  simp only
  rw [runOn_bind, runOn_require, getValue, SettingKey.ofName?_name]
  rfl

/-- A run that sets a value and succeeds has loaded the settings, changed the value and saved them. -/
theorem exists_of_configSet {s : Session} {key raw : Text} {w w' : World} (h : (configSet s key raw).runOn w = (.ok (), w')) :
    ∃ old new t, (loadOrCreate s.settingsPath).runOn w.files = (.ok old, t) ∧ old.setValue key raw = .ok new ∧
      (new.save s.settingsPath).runOn t = (.ok (), w'.files) := by
  unfold configSet loadSettings saveSettings at h
  obtain ⟨old, w₁, hloading, h⟩ := exists_of_runOn_bind h
  obtain ⟨t, hload, rfl⟩ := exists_of_runOn_onFiles hloading
  obtain ⟨new, w₂, hsetting, h⟩ := exists_of_runOn_bind h
  obtain ⟨hset, rfl⟩ := of_runOn_require hsetting
  obtain ⟨u, w₃, hsaving, h⟩ := exists_of_runOn_bind h
  obtain ⟨t', hsave, rfl⟩ := exists_of_runOn_onFiles hsaving
  obtain ⟨-, rfl⟩ := Prod.mk.inj h
  exact ⟨old, new, t, hload, hset, hsave⟩

/-- Whether a run that gets the value of a key ends well and prints a text. -/
def Prints (s : Session) (program : Text) (key : SettingKey) (w : World) (text : Text) : Prop :=
  ∃ w', run s [program, "config".toList, "get".toList, "--".toList, key.name] w = (.done, w') ∧
    w'.printed = w.printed ++ Text.encode (text ++ ['\n'])

/-- The value that is loaded is printed. -/
theorem prints_of_loadOrCreate {s : Session} {settings : Settings} {w : World} {t : FileTree}
    (h : (loadOrCreate s.settingsPath).runOn w.files = (.ok settings, t)) (program : Text) (key : SettingKey) :
    Prints s program key w (settings.get key).render :=
  ⟨_, (run_config_eq_done_iff (c := .get key.name)).2 (runOn_configGet h key), rfl⟩

/-- If a run sets a key to a value, then a run that gets the key prints the value, or the truth value for which it stands; and for
every other key a run prints the same as it would have before. -/
theorem get_after_set (s s' : Session) (hpath : s'.settingsPath = s.settingsPath) (program : Text) (key : SettingKey) (value : Text)
    (w w' : World) (h : run s [program, "config".toList, "set".toList, "--".toList, key.name, value] w = (.done, w')) :
    (∃ text, key.shown? value = some text ∧ Prints s' program key w' text) ∧
      ∀ other, other ≠ key → ∃ text, Prints s' program other w text ∧ Prints s' program other w' text := by
  obtain ⟨old, new, t, hload, hset, hsave⟩ := exists_of_configSet ((run_config_eq_done_iff (c := .set key.name value)).1 h)
  obtain ⟨hreplace, haccepted⟩ := replace_of_setValue hset
  obtain ⟨hshown, hothers⟩ := get_of_replace hreplace
  have hloadAfter := loadOrCreate_of_load (load_of_save haccepted hsave)
  rw [← hpath] at hload hloadAfter
  refine ⟨⟨_, hshown, prints_of_loadOrCreate hloadAfter program key⟩, fun other hother => ?_⟩
  have hafter := prints_of_loadOrCreate hloadAfter program other
  rw [hothers other hother] at hafter
  exact ⟨_, prints_of_loadOrCreate hload program other, hafter⟩

/-- A session with the settings in a hand-written file. -/
def handSession : Session := { environment := [("DEVX_CONFIG_PATH".toList, "hand.json".toList)] }

/-- The command line that turns signing off. -/
def unsignLine : List Text :=
  ["devx".toList, "config".toList, "set".toList, "--".toList, SettingKey.gitSignCommits.name, "off".toList]

/-- A world with the hand-written file. -/
def handWorld : World := { files := bellTree }

/-- Signing is turned off in the settings whose command line rings a bell, and the command line stays as it is. -/
theorem get_after_set_bell :
    ∃ w', run handSession unsignLine handWorld = (.done, w') ∧
      Prints handSession "devx".toList .gitSignCommits w' "false".toList ∧
      ∃ text, Prints handSession "devx".toList .agentCommand handWorld text ∧
        Prints handSession "devx".toList .agentCommand w' text := by
  have hdone : (run handSession unsignLine handWorld).1 = .done := by decide +kernel
  rcases hrun : run handSession unsignLine handWorld with ⟨outcome, w'⟩
  rw [hrun] at hdone
  obtain rfl : outcome = .done := hdone
  obtain ⟨⟨text, hshown, hprints⟩, hothers⟩ :=
    get_after_set handSession handSession rfl "devx".toList .gitSignCommits "off".toList handWorld w' hrun
  obtain rfl : "false".toList = text := Option.some.inj hshown
  exact ⟨w', rfl, hprints, hothers .agentCommand nofun⟩

end Run

end DevWorkflow
