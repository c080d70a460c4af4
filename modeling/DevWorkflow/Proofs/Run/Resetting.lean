import DevWorkflow.Proofs.Run.History
import DevWorkflow.Proofs.Settings.Creation

/-!
# Going back to the default settings

Resetting throws away whatever the settings file holds, so it has to be agreed to (`Run.Agrees`): on the command line, or at a
terminal, by the first of the typed keys that decides anything. Without agreement every file stays as it is. With it the run looks
at nothing that the file holds, so that it also gets rid of a file that is no settings file (`Run.reset_agreed`).
-/

namespace DevWorkflow

namespace Prompt

/-- The keys that decide a question of yes or no. All others are passed over. -/
def decidingKeys : Text := "yYnN\n\r".toList

/-- Whether the first of some keys that decides says yes. -/
def SaysYes (keys : Text) : Prop :=
  ∃ before key after, keys = before ++ key :: after ∧ (∀ c ∈ before, c ∉ decidingKeys) ∧ (key = 'y' ∨ key = 'Y')

theorem confirmKey?_eq_none_iff (key : Char) : confirmKey? key = none ↔ key ∉ decidingKeys := by
  simp only [confirmKey?, decidingKeys]
  grind

theorem confirmKey?_eq_some_true_iff (key : Char) : confirmKey? key = some true ↔ key = 'y' ∨ key = 'Y' := by
  simp only [confirmKey?]
  grind

/-- A question is answered with yes just if the first key that decides says so. -/
theorem confirmation?_eq_some_true_iff (keys : Text) : confirmation? keys = some true ↔ SaysYes keys := by
  rw [confirmation?, List.findSome?_eq_some_iff, SaysYes]
  simp only [confirmKey?_eq_none_iff, confirmKey?_eq_some_true_iff]
  constructor
  · rintro ⟨before, key, after, hkeys, hyes, hbefore⟩
    exact ⟨before, key, after, hkeys, hbefore, hyes⟩
  · rintro ⟨before, key, after, hkeys, hbefore, hyes⟩
    exact ⟨before, key, after, hkeys, hyes, hbefore⟩

end Prompt

namespace Run

open WorldAction Settings FileTree

/-- Whether the user agrees to throw the settings away: on the command line if `yes`, or else at a terminal that can show the
question, in a session that is not marked as one without a user. -/
def Agrees (s : Session) (yes : Bool) : Prop :=
  yes = true ∨ s.valueOf? "CI".toList = none ∧ s.valueOf? "DEVX_NON_INTERACTIVE".toList = none ∧
    ∃ keys, s.terminal = .typing keys ∧ Prompt.SaysYes keys

/-- A user can be asked just if the session is not marked as one without and standard input is a terminal. -/
theorem isNonInteractive_eq_false_iff (s : Session) :
    s.isNonInteractive = false ↔
      s.valueOf? "CI".toList = none ∧ s.valueOf? "DEVX_NON_INTERACTIVE".toList = none ∧ s.terminal ≠ .none := by
  simp only [Session.isNonInteractive, Bool.or_eq_false_iff, decide_eq_false_iff_not, Option.isSome_eq_false_iff,
    Option.isNone_iff_eq_none]
  tauto

/-- The answer at a terminal is yes just if questions can be shown and the keys say so. -/
theorem answer_eq_ok_true_iff (terminal : Terminal) :
    Prompt.answer Prompt.confirmation? terminal = .ok true ↔ ∃ keys, terminal = .typing keys ∧ Prompt.SaysYes keys := by
  cases terminal with
  | none => exact iff_of_false nofun nofun
  | mute => exact iff_of_false nofun nofun
  | typing keys =>
    simp only [Terminal.typing.injEq, exists_eq_left', ← Prompt.confirmation?_eq_some_true_iff, Prompt.answer]
    cases Prompt.confirmation? keys <;> simp

/-- With agreement the default settings are restored. -/
theorem configReset_of_agrees {s : Session} {yes : Bool} (h : Agrees s yes) : configReset s yes = configRestore s := by
  rw [configReset]
  rcases h with rfl | ⟨hci, hmarked, keys, hterminal, hkeys⟩
  · rfl
  · have hasked : s.isNonInteractive = false :=
      (isNonInteractive_eq_false_iff s).2 ⟨hci, hmarked, by rw [hterminal]; exact nofun⟩
    have hanswer := (answer_eq_ok_true_iff s.terminal).2 ⟨keys, hterminal, hkeys⟩
    simp only [hasked, hanswer]
    split <;> rfl

/-- Without agreement the files stay as they are. -/
theorem keepsFiles_configReset {s : Session} {yes : Bool} (h : ¬Agrees s yes) : KeepsFiles (configReset s yes) := by
  obtain rfl : yes = false := Bool.eq_false_iff.2 fun hyes => h (.inl hyes)
  rw [configReset, if_neg Bool.false_ne_true]
  split
  · exact keepsFiles_throw _
  · rename_i hasked
    obtain ⟨hci, hmarked, -⟩ := (isNonInteractive_eq_false_iff s).1 (Bool.eq_false_iff.2 hasked)
    split
    · exact keepsFiles_throw _
    · rename_i hanswer
      exact absurd (.inr ⟨hci, hmarked, (answer_eq_ok_true_iff s.terminal).1 hanswer⟩) h
    · exact keepsFiles_printLine _

/-- Restoring the default settings saves them, whatever is there. -/
theorem runOn_configRestore (s : Session) (w : World) :
    (configRestore s).runOn w =
      match (Settings.default.save s.settingsPath).runOn w.files with
      | (.ok _, t) => (.ok (), ({ w with files := t } : World).printing ("✅ Configuration reset to defaults".toList ++ ['\n']))
      | (.error e, t) => (.error e.toFault, { w with files := t }) := by
  refine (runOn_onFiles_bind SettingsError.toFault (Settings.default.save s.settingsPath) _ w).trans ?_
  rcases (Settings.default.save s.settingsPath).runOn w.files with ⟨result, t⟩
  cases result <;> rfl

/-- A run that is asked to reset the settings leaves every file as it is unless the user agrees. If the user agrees, the run
changes the settings file and no other one. Wherever that file can be written it succeeds, whatever was there before, and the
default settings are loaded from the file; anywhere else it fails and no file is changed. -/
theorem reset_agreed {s : Session} {argv : List Text} {verbose yes : Bool}
    (hparse : Invocation.parse argv = .ok ⟨verbose, .config (.reset yes)⟩) (w : World) :
    let after := run s argv w
    (¬Agrees s yes → after.2.files = w.files) ∧
      (Agrees s yes →
        ChangesOnly [w.files.placeOf s.settingsPath] w.files after.2.files ∧
        (w.files.CanHoldFile s.settingsPath →
          after.1 = .done ∧ (load s.settingsPath).runOn after.2.files = (.ok .default, after.2.files)) ∧
        (¬w.files.CanHoldFile s.settingsPath → after.1 ≠ .done ∧ ChangesOnly [] w.files after.2.files)) := by
  rw [run_of_parse hparse, show command s (.config (.reset yes)) = configReset s yes from rfl]
  refine ⟨fun hnot => ?_, fun hagrees => ?_⟩
  · have hkept := keepsFiles_configReset hnot w
    rcases hrun : (configReset s yes).runOn w with ⟨result, w'⟩
    rw [hrun] at hkept
    cases result <;> exact hkept
  · rw [configReset_of_agrees hagrees, runOn_configRestore]
    have hholds := exists_save_iff defect?_default w.files s.settingsPath
    rcases hsave : (Settings.default.save s.settingsPath).runOn w.files with ⟨result, t⟩
    obtain ⟨honly, hfailed⟩ := changesOnly_save defect?_default hsave
    rw [hsave] at hholds
    cases result with
    | ok u =>
      have hhold : w.files.CanHoldFile s.settingsPath := hholds.1 ⟨t, rfl⟩
      exact ⟨honly, fun _ => ⟨rfl, load_of_save defect?_default hsave⟩, fun hnot => absurd hhold hnot⟩
    | error e =>
      have hnot : ¬w.files.CanHoldFile s.settingsPath := fun hhold => by
        obtain ⟨t', ht'⟩ := hholds.2 hhold
        nomatch (Prod.mk.inj ht').1
      exact ⟨honly, fun hhold => absurd hhold hnot, fun _ => ⟨nofun, hfailed nofun⟩⟩

/-- A session at a terminal at which some keys are typed. -/
def typingSession (keys : Text) : Session := { handSession with terminal := .typing keys }

/-- A working directory in which the settings file holds no settings. -/
def spoiltWorld : World := { files := { entries := [(["hand.json".toList], .file (Text.encode "[[1,".toList))] } }

/-- The spoilt settings are thrown away if `y` is typed after a key that decides nothing, and they stay if `n` comes before it. -/
theorem reset_agreed_spoilt :
    let line := ["dx".toList, "config".toList, "reset".toList]
    let kept := run (typingSession "xny".toList) line spoiltWorld
    let reset := run (typingSession "xyn".toList) line spoiltWorld
    kept.2.files = spoiltWorld.files ∧
      reset.1 = .done ∧ (load "hand.json".toList).runOn reset.2.files = (.ok .default, reset.2.files) := by
  have hparse : Invocation.parse ["dx".toList, "config".toList, "reset".toList] = .ok ⟨false, .config (.reset false)⟩ := by
    decide
  have hhold : spoiltWorld.files.CanHoldFile "hand.json".toList := ⟨_, rfl, _, rfl, by decide⟩
  have hyes : Agrees (typingSession "xyn".toList) false :=
    .inr ⟨rfl, rfl, _, rfl, (Prompt.confirmation?_eq_some_true_iff _).1 (by decide)⟩
  have hno : ¬Agrees (typingSession "xny".toList) false := by
    rintro (hfalse | ⟨-, -, keys, hterminal, hkeys⟩)
    · nomatch hfalse
    · obtain rfl : "xny".toList = keys := Terminal.typing.inj hterminal
      have hanswer := (Prompt.confirmation?_eq_some_true_iff _).2 hkeys
      exact absurd hanswer (by decide)
  refine ⟨(reset_agreed hparse spoiltWorld).1 hno, ?_⟩
  exact ((reset_agreed hparse spoiltWorld).2 hyes).2.1 hhold

end Run

end DevWorkflow
