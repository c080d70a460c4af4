import DevWorkflow.Proofs.FileTree.Writing
import DevWorkflow.Proofs.Settings.Format
import DevWorkflow.Settings.Store

/-!
# Saving and loading settings

Saving writes the text of the settings, and loading reads it back. So loading and saving normalises a settings file: whatever
text is accepted with some settings, saving writes the one text of these settings, and saving again changes nothing.
-/

namespace DevWorkflow

namespace Settings

open FileTree

/-- Writing out a text makes the directory and then writes the file. -/
theorem runOn_writeOut_eq_ok_iff {t t' : FileTree} {path text : Text} :
    (writeOut path text).runOn t = (.ok (), t') ↔
      ∃ t₁, (createParent path).runOn t = (.ok (), t₁) ∧ t₁.writeBytes path (Text.encode text) = .ok t' := by
  rw [writeOut, FileAction.runOn_bind]
  rcases (createParent path).runOn t with ⟨result, t₁⟩
  cases result with
  | error e => simp
  | ok u =>
    simp only [writeText, runOn_writeFile]
    cases hw : t₁.writeBytes path (Text.encode text) <;> simp [hw]

/-- Saving accepted settings writes out their text, and so it goes. -/
theorem runOn_save {s : Settings} (hs : s.defect? = none) (path : Text) (t : FileTree) :
    (save s path).runOn t = (((writeOut path s.write).runOn t).1.mapError .io, ((writeOut path s.write).runOn t).2) := by
  have hsave : save s path = ExceptT.adapt .io (writeOut path s.write) := by simp only [save, hs]
  rw [hsave, FileAction.runOn_adapt]

/-- Saving accepted settings writes out their text. -/
theorem runOn_save_eq_ok_iff {s : Settings} (hs : s.defect? = none) {t t' : FileTree} {path : Text} :
    (save s path).runOn t = (.ok (), t') ↔ (writeOut path s.write).runOn t = (.ok (), t') := by
  rw [runOn_save hs]
  rcases (writeOut path s.write).runOn t with ⟨result, t₁⟩
  cases result with
  | ok u =>
    show (Except.ok u, t₁) = (Except.ok (), t') ↔ _
    simp
  | error e => exact iff_of_false nofun nofun

/-- Accepted settings can be saved exactly where a file can be put. -/
theorem exists_save_iff {s : Settings} (hs : s.defect? = none) (t : FileTree) (path : Text) :
    (∃ t', (save s path).runOn t = (.ok (), t')) ↔ t.CanHoldFile path := by
  constructor
  · rintro ⟨t', h⟩
    obtain ⟨t₁, hparent, hwrite⟩ := runOn_writeOut_eq_ok_iff.1 ((runOn_save_eq_ok_iff hs).1 h)
    obtain ⟨place, hl, hp, -⟩ := writeBytes_eq_ok_iff.1 hwrite
    exact ⟨t₁, hparent, place, hl, hp⟩
  · rintro ⟨t₁, hparent, place, hl, hp⟩
    refine ⟨t₁.put place (.file (Text.encode s.write)), (runOn_save_eq_ok_iff hs).2 (runOn_writeOut_eq_ok_iff.2 ?_)⟩
    exact ⟨t₁, hparent, writeBytes_eq_ok_iff.2 ⟨place, hl, hp, rfl⟩⟩

/-- Saving the same settings again changes nothing. -/
theorem save_again {s : Settings} (hs : s.defect? = none) {t t' : FileTree} {path : Text}
    (h : (save s path).runOn t = (.ok (), t')) : (save s path).runOn t' = (.ok (), t') := by
  obtain ⟨t₁, hparent, hwrite⟩ := runOn_writeOut_eq_ok_iff.1 ((runOn_save_eq_ok_iff hs).1 h)
  have hparent' := createParent_again hparent (keepsDirectories_writeBytes hwrite)
  exact (runOn_save_eq_ok_iff hs).2 (runOn_writeOut_eq_ok_iff.2 ⟨t', hparent', writeBytes_again hwrite⟩)

/-- Saved settings stand in the file as they are written. -/
theorem readBytes_of_save {s : Settings} (hs : s.defect? = none) {t t' : FileTree} {path : Text}
    (h : (save s path).runOn t = (.ok (), t')) : t'.readBytes path = .ok (Text.encode s.write) := by
  obtain ⟨t₁, -, hwrite⟩ := runOn_writeOut_eq_ok_iff.1 ((runOn_save_eq_ok_iff hs).1 h)
  exact readBytes_of_writeBytes hwrite

/-- Loading settings reads them and changes nothing. -/
theorem runOn_load (path : Text) (t : FileTree) : (load path).runOn t = (readFrom t path, t) := rfl

/-- Where a path leads to something the settings are loaded from it, and else the default settings are saved. -/
theorem runOn_loadOrCreate (path : Text) (t : FileTree) :
    (loadOrCreate path).runOn t =
      if t.pathExists path then (readFrom t path, t)
      else (((default.save path).runOn t).1.map fun _ => default, ((default.save path).runOn t).2) := by
  show (if t.pathExists path then _ else _) = _
  split
  · rfl
  · have hcreate : (default.save path >>= fun _ => pure default : FileAction SettingsError Settings).runOn t =
        (((default.save path).runOn t).1.map fun _ => default, ((default.save path).runOn t).2) := by
      rw [FileAction.runOn_bind]
      rcases (default.save path).runOn t with ⟨result, t'⟩
      cases result <;> rfl
    exact hcreate

/-- Accepted settings are read from a file that holds their text. -/
theorem readFrom_of_readBytes {s : Settings} (hs : s.defect? = none) {t : FileTree} {path : Text}
    (h : t.readBytes path = .ok (Text.encode s.write)) : readFrom t path = .ok s := by
  simp only [readFrom, readText, h, Text.decode?_encode]
  exact read_write hs

/-- Saved settings are loaded as they were. -/
theorem load_of_save {s : Settings} (hs : s.defect? = none) {t t' : FileTree} {path : Text}
    (h : (save s path).runOn t = (.ok (), t')) : (load path).runOn t' = (.ok s, t') := by
  rw [runOn_load, readFrom_of_readBytes hs (readBytes_of_save hs h)]

/-- Settings that are read from a file are accepted. -/
theorem accepted_of_readFrom {s : Settings} {t : FileTree} {path : Text} (h : readFrom t path = .ok s) : s.defect? = none := by
  unfold readFrom at h
  split at h
  · simp at h
  · exact accepted_of_read h

/-- Loaded settings are accepted. -/
theorem accepted_of_load {s : Settings} {t t' : FileTree} {path : Text} (h : (load path).runOn t = (.ok s, t')) :
    s.defect? = none :=
  accepted_of_readFrom (Prod.mk.inj h).1

/-- Wherever a file can be put, accepted settings can be saved and are then loaded as they were. So whatever file settings were
loaded from, saving them writes the one text that they have: they are loaded from it again, and saving them again changes
nothing. -/
theorem load_after_save (t : FileTree) (path : Text) (h : t.CanHoldFile path) :
    (∀ s : Settings, s.defect? = none →
      ∃ t', (save s path).runOn t = (.ok (), t') ∧ (load path).runOn t' = (.ok s, t')) ∧
    (∀ (source : Text) (s : Settings), (load source).runOn t = (.ok s, t) →
      ∃ t', (save s path).runOn t = (.ok (), t') ∧ (load path).runOn t' = (.ok s, t') ∧
        t'.readBytes path = .ok (Text.encode s.write) ∧ (save s path).runOn t' = (.ok (), t')) := by
  constructor
  · intro s hs
    obtain ⟨t', hsave⟩ := (exists_save_iff hs t path).2 h
    exact ⟨t', hsave, load_of_save hs hsave⟩
  · intro source s hload
    have hs := accepted_of_load hload
    obtain ⟨t', hsave⟩ := (exists_save_iff hs t path).2 h
    exact ⟨t', hsave, load_of_save hs hsave, readBytes_of_save hs hsave, save_again hs hsave⟩

/-- Settings whose command line rings a bell. -/
def bellSettings : Settings where
  git := { branchPrefix := [], defaultRemote := "origin".toList, signCommits := true }
  commit := { defaultType := "fix".toList, requireScope := false }
  agentCommand := "say \"\x07\"".toList
  updateCommand := "up".toList

/-- A text with these settings that the program would not write: the records are arrays. -/
def bellText : Text := "[[\"\",\"origin\",true], [\"fix\",false],[\"say \\\"\\u0007\\\"\"],[\"up\"]]".toList

/-- A working directory with this text in a file. -/
def bellTree : FileTree := { entries := [(["hand.json".toList], .file (Text.encode bellText))] }

theorem read_bellText : read bellText = .ok bellSettings := by
  have h : (read bellText).toOption = some bellSettings := by decide +kernel
  cases hr : read bellText with
  | error e => simp [hr, Except.toOption] at h
  | ok s =>
    rw [hr, Except.toOption, Option.some.injEq] at h
    rw [h]

/-- The settings in the hand-written file are read. -/
theorem readFrom_bellTree : readFrom bellTree "hand.json".toList = .ok bellSettings := by
  have hbytes : bellTree.readBytes "hand.json".toList = .ok (Text.encode bellText) := rfl
  simp only [readFrom, readText, hbytes, Text.decode?_encode]
  exact read_bellText

/-- The settings in the hand-written file are saved below a directory that is not there yet, and come back. -/
theorem load_after_save_bell :
    bellTree.CanHoldFile "new/config.json".toList ∧ (load "hand.json".toList).runOn bellTree = (.ok bellSettings, bellTree) ∧
    ∃ t', (save bellSettings "new/config.json".toList).runOn bellTree = (.ok (), t') ∧
      (load "new/config.json".toList).runOn t' = (.ok bellSettings, t') ∧
      t'.readBytes "new/config.json".toList = .ok (Text.encode bellSettings.write) ∧
      (save bellSettings "new/config.json".toList).runOn t' = (.ok (), t') := by
  have hhold : bellTree.CanHoldFile "new/config.json".toList := ⟨_, rfl, _, rfl, by decide⟩
  have hload : (load "hand.json".toList).runOn bellTree = (.ok bellSettings, bellTree) := by
    rw [runOn_load, readFrom_bellTree]
  exact ⟨hhold, hload, (load_after_save bellTree _ hhold).2 _ _ hload⟩

end Settings

end DevWorkflow
