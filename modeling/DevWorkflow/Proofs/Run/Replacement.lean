import DevWorkflow.Proofs.Run.Settings
import DevWorkflow.Proofs.Settings.Values

/-!
# Setting a value in the file that is there

A run that sets a value writes nothing before the settings are loaded and the new ones are accepted, and where a file was loaded one
can be saved (`Run.configSet_cases`). So, if the path of the settings leads to something, the run either fails and leaves every file
as it is, or it succeeds and the one file holds the text of the settings with the one value changed (`Run.configSet_replaces`).
-/

namespace DevWorkflow

namespace Run

open WorldAction Settings FileTree

/-- Setting a value where the path of the settings leads to something goes one of two ways: it fails, since no settings are loaded or
the value cannot be set, and nothing is done; or the settings with the value take the place of what the file held. -/
theorem configSet_cases {s : Session} {w : World} (h : w.files.pathExists s.settingsPath = true) (key value : Text) :
    (∃ fault, (configSet s key value).runOn w = (.error fault, w) ∧
      ∀ old, readFrom w.files s.settingsPath = .ok old → ¬CanSet key value) ∨
    ∃ old new w', readFrom w.files s.settingsPath = .ok old ∧ old.setValue key value = .ok new ∧
      (configSet s key value).runOn w = (.ok (), w') ∧
      w'.files = w.files.put (w.files.placeOf s.settingsPath) (.file (Text.encode new.write)) := by
  have hload : (loadOrCreate s.settingsPath).runOn w.files = (readFrom w.files s.settingsPath, w.files) := by
    rw [runOn_loadOrCreate, if_pos h]
  unfold configSet loadSettings
  rw [runOn_onFiles_bind, hload]
  cases hread : readFrom w.files s.settingsPath with
  | error e => exact .inl ⟨_, rfl, nofun⟩
  | ok old =>
    have hold := accepted_of_readFrom hread
    simp only
    rw [runOn_bind, runOn_require]
    cases hset : old.setValue key value with
    | error e =>
      refine .inl ⟨_, rfl, fun old' hold' hcan => ?_⟩
      obtain ⟨new, hnew⟩ := (exists_setValue_iff hold key value).2 hcan
      nomatch hset.symm.trans hnew
    | ok new =>
      obtain ⟨content, hbytes⟩ := exists_readBytes_of_readFrom hread
      have hsave := runOn_save_of_readBytes (accepted_of_setValue hset) hbytes
      simp only [Except.mapError]
      unfold saveSettings
      rw [runOn_onFiles_bind, hsave]
      exact .inr ⟨old, new, _, rfl, hset, rfl, rfl⟩

/-- If the path of the settings leads to something, whatever it holds, then a run that sets a value leaves every file as it is unless
it succeeds. It succeeds just if settings are loaded from the file and the value can be set. Then the file holds the text of these
settings with the one value changed, and everything else is as it was. -/
theorem configSet_replaces (s : Session) (program key value : Text) (w : World)
    (h : w.files.pathExists s.settingsPath = true) :
    let after := run s [program, "config".toList, "set".toList, "--".toList, key, value] w
    (after.1 ≠ .done → after.2.files = w.files) ∧
    (after.1 = .done → ∃ old k v new, readFrom w.files s.settingsPath = .ok old ∧ SettingKey.name k = key ∧
      k.valueOf? value = some v ∧ old.IsWith k v new ∧ after.2.files.readBytes s.settingsPath = .ok (Text.encode new.write) ∧
      ∀ place, place ≠ w.files.placeOf s.settingsPath → after.2.files.lookup place = w.files.lookup place) ∧
    (after.1 = .done ↔ (∃ old, readFrom w.files s.settingsPath = .ok old) ∧ CanSet key value) := by
  rcases configSet_cases h key value with ⟨fault, hfailed, hcannot⟩ | ⟨old, new, w', hload, hset, hdone, hfiles⟩
  · have hrun : run s [program, "config".toList, "set".toList, "--".toList, key, value] w = (.failed fault, w) :=
      run_config_of_error (c := .set key value) hfailed program
    rw [hrun]
    refine ⟨fun _ => rfl, fun hdone => ?_, fun hdone => ?_, ?_⟩
    · cases hdone
    · cases hdone
    · rintro ⟨⟨old, hload⟩, hcan⟩
      exact absurd hcan (hcannot old hload)
  · have hrun : run s [program, "config".toList, "set".toList, "--".toList, key, value] w = (.done, w') :=
      (run_config_eq_done_iff (c := .set key value)).2 hdone
    rw [hrun]
    obtain ⟨k, v, hname, hvalue, hwith, haccepted⟩ := setValue_eq_ok_iff.1 hset
    have hcan : CanSet key value := (exists_setValue_iff (accepted_of_readFrom hload) key value).1 ⟨new, hset⟩
    obtain ⟨content, hbytes⟩ := exists_readBytes_of_readFrom hload
    have hwritten := readBytes_of_save haccepted (runOn_save_of_readBytes haccepted hbytes)
    rw [← hfiles] at hwritten
    refine ⟨fun hnot => absurd rfl hnot, fun _ => ⟨old, k, v, new, hload, hname, hvalue, hwith, hwritten, ?_⟩, ?_⟩
    · intro place hplace
      rw [hfiles, lookup_put_of_ne _ hplace]
    · exact ⟨fun _ => ⟨⟨old, hload⟩, hcan⟩, fun _ => rfl⟩

/-- Signing is turned off in the hand-written settings, and the file holds the text of the settings with this value; a key that is
not known is refused, and the file stays as it is. -/
theorem configSet_replaces_hand :
    handWorld.files.pathExists handSession.settingsPath = true ∧
    (∃ new, bellSettings.IsWith .gitSignCommits (.flag false) new ∧
      (run handSession unsignLine handWorld).2.files.readBytes handSession.settingsPath = .ok (Text.encode new.write)) ∧
    (run handSession ["devx".toList, "config".toList, "set".toList, "--".toList, "git.sign".toList, "off".toList] handWorld).2.files =
      handWorld.files := by
  unfold unsignLine
  have hthere : handWorld.files.pathExists handSession.settingsPath = true := rfl
  have hload : readFrom handWorld.files handSession.settingsPath = .ok bellSettings := readFrom_bellTree
  obtain ⟨-, hreplaced, hdone⟩ :=
    configSet_replaces handSession "devx".toList SettingKey.gitSignCommits.name "off".toList handWorld hthere
  obtain ⟨hkept, -, hrefused⟩ := configSet_replaces handSession "devx".toList "git.sign".toList "off".toList handWorld hthere
  refine ⟨hthere, ?_, hkept fun hsucceeds => ?_⟩
  · have hcan : CanSet SettingKey.gitSignCommits.name "off".toList := ⟨.gitSignCommits, .flag false, rfl, rfl, trivial⟩
    obtain ⟨old, k, v, new, hold, hname, hvalue, hwith, hbytes, -⟩ := hreplaced (hdone.2 ⟨⟨_, hload⟩, hcan⟩)
    obtain rfl : old = bellSettings := Except.ok.inj (hold.symm.trans hload)
    obtain rfl : k = .gitSignCommits := by
      have hk := SettingKey.ofName?_eq_some_iff.2 hname
      rw [SettingKey.ofName?_name] at hk
      exact (Option.some.inj hk).symm
    obtain rfl : SettingValue.flag false = v := Option.some.inj hvalue
    exact ⟨new, hwith, hbytes⟩
  · obtain ⟨-, k, v, hname, -⟩ := hrefused.1 hsucceeds
    have hunknown : SettingKey.ofName? "git.sign".toList = none := by decide
    nomatch hunknown.symm.trans (SettingKey.ofName?_eq_some_iff.2 hname)

end Run

end DevWorkflow
