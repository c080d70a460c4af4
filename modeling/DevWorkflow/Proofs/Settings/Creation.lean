import DevWorkflow.Proofs.FileTree.Parents
import DevWorkflow.Proofs.FileTree.Rooted
import DevWorkflow.Proofs.Settings.Store

/-!
# Settings where there are none

Where a path leads to nothing, the default settings are written to a file, and this is the only file that is changed; loading a
second time finds what was written (`Settings.created_once`). Whether the path leads to something is asked before the directories
above the file are made. In a rooted tree the file is new unless the path goes up. If it goes up out of a directory that is not there,
then it leads to nothing at first and past the new directory afterwards, where a file may be: that one is replaced
(`Settings.replaced_by_defaults`).
-/

namespace DevWorkflow

namespace Settings

open FileTree

/-! ## What saving changes -/

/-- Writing out a text changes no file if it fails, and writes the file after the directory was made if it succeeds. -/
theorem writeOut_cases {t t' : FileTree} {path text : Text} {result : Except IoFault Unit}
    (h : (writeOut path text).runOn t = (result, t')) :
    ∃ t₁, ChangesOnly [] t t₁ ∧
      ((∃ e, result = .error e) ∧ t' = t₁ ∨ result = .ok () ∧ t₁.writeBytes path (Text.encode text) = .ok t') := by
  rw [writeOut, FileAction.runOn_bind] at h
  rcases hparent : (createParent path).runOn t with ⟨made, t₁⟩
  rw [hparent] at h
  refine ⟨t₁, changesOnly_createParent hparent, ?_⟩
  cases made with
  | error e =>
    obtain ⟨rfl, rfl⟩ := Prod.mk.inj h
    exact .inl ⟨⟨e, rfl⟩, rfl⟩
  | ok u =>
    simp only [writeText, runOn_writeFile] at h
    cases hwrite : t₁.writeBytes path (Text.encode text) with
    | error e =>
      rw [hwrite] at h
      obtain ⟨rfl, rfl⟩ := Prod.mk.inj h
      exact .inl ⟨⟨e, rfl⟩, rfl⟩
    | ok t₂ =>
      rw [hwrite] at h
      obtain ⟨rfl, rfl⟩ := Prod.mk.inj h
      exact .inr ⟨rfl, rfl⟩

/-- Saving changes the one file at most, and none if it fails. -/
theorem changesOnly_save {s : Settings} (hs : s.defect? = none) {t t' : FileTree} {path : Text}
    {result : Except SettingsError Unit} (h : (save s path).runOn t = (result, t')) :
    ChangesOnly [t.placeOf path] t t' ∧ (result ≠ .ok () → ChangesOnly [] t t') := by
  rw [runOn_save hs] at h
  rcases hout : (writeOut path s.write).runOn t with ⟨written, t''⟩
  rw [hout] at h
  obtain ⟨rfl, rfl⟩ := Prod.mk.inj h
  obtain ⟨t₁, honly, ⟨-, rfl⟩ | ⟨rfl, hwrite⟩⟩ := writeOut_cases hout
  · exact ⟨honly.mono (List.nil_subset _), fun _ => honly⟩
  · have hfile := changesOnly_writeBytes hwrite
    rw [honly.keeps.placeOf] at hfile
    exact ⟨(honly.mono (List.nil_subset _)).trans hfile, fun hnot => absurd rfl hnot⟩

/-- A file that was saved stands at the place of its path. -/
theorem lookup_of_save {s : Settings} (hs : s.defect? = none) {t t' : FileTree} {path : Text}
    (h : (save s path).runOn t = (.ok (), t')) :
    t'.locateFile path = .ok (t.placeOf path) ∧ t'.lookup (t.placeOf path) = some (.file (Text.encode s.write)) := by
  have hkeeps := (changesOnly_save hs h).1.keeps
  obtain ⟨place, hl, hfile⟩ := readBytes_eq_ok_iff.1 (readBytes_of_save hs h)
  obtain rfl : t.placeOf path = place := by
    rw [← hkeeps.placeOf]
    exact placeOf_of_locate (locateFile_eq_ok_iff.1 hl).2
  exact ⟨hl, hfile⟩

/-- Settings are read from a file that can be read. -/
theorem exists_readBytes_of_readFrom {s : Settings} {t : FileTree} {path : Text} (h : readFrom t path = .ok s) :
    ∃ content, t.readBytes path = .ok content := by
  unfold readFrom at h
  cases htext : t.readText path with
  | error e =>
    rw [htext] at h
    nomatch h
  | ok text => exact ⟨_, readText_eq_ok_iff.1 htext⟩

/-- Where a file can be read, accepted settings can be saved: their text takes the place of what the file held. -/
theorem runOn_save_of_readBytes {s : Settings} (hs : s.defect? = none) {t : FileTree} {path : Text} {content : ByteArray}
    (h : t.readBytes path = .ok content) :
    (save s path).runOn t = (.ok (), t.put (t.placeOf path) (.file (Text.encode s.write))) := by
  obtain ⟨place, hl, hfile⟩ := readBytes_eq_ok_iff.1 h
  have hlocate := (locateFile_eq_ok_iff.1 hl).2
  rw [placeOf_of_locate hlocate]
  refine (runOn_save_eq_ok_iff hs).2 (runOn_writeOut_eq_ok_iff.2 ⟨t, runOn_createParent_of_locate hlocate, ?_⟩)
  exact writeBytes_eq_ok_iff.2 ⟨place, hl, by simp [hfile], rfl⟩

/-! ## Loading or creating -/

/-- Where a path leads to nothing, either the default settings are saved, or no file can be put there and none is changed. -/
theorem loadOrCreate_cases {t : FileTree} {path : Text} (h : t.pathExists path = false) :
    (∃ t', (loadOrCreate path).runOn t = (.ok default, t') ∧ (default.save path).runOn t = (.ok (), t')) ∨
      ¬t.CanHoldFile path ∧ ∃ e t', (loadOrCreate path).runOn t = (.error e, t') ∧ ChangesOnly [] t t' := by
  rw [runOn_loadOrCreate, if_neg (by simp [h])]
  rcases hsave : (default.save path).runOn t with ⟨result, t'⟩
  cases result with
  | ok u => exact .inl ⟨t', rfl, rfl⟩
  | error e =>
    refine .inr ⟨fun hhold => ?_, e, t', rfl, (changesOnly_save defect?_default hsave).2 nofun⟩
    obtain ⟨t'', hsaved⟩ := (exists_save_iff defect?_default t path).2 hhold
    rw [hsave] at hsaved
    nomatch (Prod.mk.inj hsaved).1

/-- Settings that are loaded or created are loaded the next time. -/
theorem loadOrCreate_again {s : Settings} {t t' : FileTree} {path : Text} (h : (loadOrCreate path).runOn t = (.ok s, t')) :
    (loadOrCreate path).runOn t' = (.ok s, t') := by
  cases hexists : t.pathExists path with
  | true =>
    have hload := h
    rw [runOn_loadOrCreate, if_pos hexists] at hload
    obtain ⟨-, rfl⟩ := Prod.mk.inj hload
    exact h
  | false =>
    rcases loadOrCreate_cases hexists with ⟨t₁, hcreate, hsave⟩ | ⟨-, e, t₁, hfailed, -⟩
    · obtain ⟨hs, rfl⟩ := Prod.mk.inj (hcreate.symm.trans h)
      obtain rfl := Except.ok.inj hs
      have hload := load_of_save defect?_default hsave
      have hthere := pathExists_of_readBytes (readBytes_of_save defect?_default hsave)
      rw [runOn_loadOrCreate, if_pos hthere]
      exact hload
    · nomatch (Prod.mk.inj (hfailed.symm.trans h)).1

/-- Settings that are loaded or created are loaded the next time, and nothing is changed by it. Where a path leads to something, the
settings are loaded from it and nothing is changed, whether this can be done or not. Where it leads to nothing, the default settings
are saved if a file can be put there, and no other file is changed; if none can be put there, no file is changed at all. The file is
a new one if the tree is rooted and the path does not go up. -/
theorem created_once (t : FileTree) (path : Text) :
    (∀ s t', (loadOrCreate path).runOn t = (.ok s, t') → (loadOrCreate path).runOn t' = (.ok s, t')) ∧
    (t.pathExists path = true → (loadOrCreate path).runOn t = (readFrom t path, t)) ∧
    (t.pathExists path = false →
      match (loadOrCreate path).runOn t with
      | (.ok s, t') =>
        s = default ∧ t.CanHoldFile path ∧ t'.readBytes path = .ok (Text.encode default.write) ∧
          ChangesOnly [t.placeOf path] t t' ∧
          (t.IsRooted → "..".toList ∉ FilePath.steps path → t.lookup (t.placeOf path) = none)
      | (.error _, t') => ¬t.CanHoldFile path ∧ ChangesOnly [] t t') := by
  refine ⟨fun s t' => loadOrCreate_again, fun hexists => ?_, fun hnot => ?_⟩
  · rw [runOn_loadOrCreate, if_pos hexists]
  · rcases loadOrCreate_cases hnot with ⟨t', hcreate, hsave⟩ | ⟨hhold, e, t', hfailed, honly⟩
    · rw [hcreate]
      have honly := (changesOnly_save defect?_default hsave).1
      obtain ⟨hl, hfile⟩ := lookup_of_save defect?_default hsave
      refine ⟨rfl, (exists_save_iff defect?_default t path).1 ⟨t', hsave⟩, readBytes_of_save defect?_default hsave, honly, ?_⟩
      intro hrooted hup
      exact hrooted.lookup_of_not_pathExists honly.keeps hnot hup hl (by simp [hfile])
    · rw [hfailed]
      exact ⟨hhold, honly⟩

/-- The hand-written settings are loaded; below a directory that is not there yet the default settings are created, in a file where
nothing was, and they are loaded the next time. -/
theorem created_once_bell :
    (loadOrCreate "hand.json".toList).runOn bellTree = (readFrom bellTree "hand.json".toList, bellTree) ∧
    ∃ t', (loadOrCreate "new/config.json".toList).runOn bellTree = (.ok default, t') ∧
      (loadOrCreate "new/config.json".toList).runOn t' = (.ok default, t') ∧
      ChangesOnly [["new".toList, "config.json".toList]] bellTree t' ∧
      bellTree.lookup ["new".toList, "config.json".toList] = none := by
  have hthere : bellTree.pathExists "hand.json".toList = true := by decide
  have hnot : bellTree.pathExists "new/config.json".toList = false := by decide
  have hplace : bellTree.placeOf "new/config.json".toList = ["new".toList, "config.json".toList] := by decide
  obtain ⟨-, hloaded, -⟩ := created_once bellTree "hand.json".toList
  obtain ⟨hagain, -, hcreated⟩ := created_once bellTree "new/config.json".toList
  refine ⟨hloaded hthere, ?_⟩
  replace hcreated := hcreated hnot
  have hhold : bellTree.CanHoldFile "new/config.json".toList := ⟨_, rfl, _, rfl, by decide⟩
  rcases hrun : (loadOrCreate "new/config.json".toList).runOn bellTree with ⟨result, t'⟩
  rw [hrun] at hcreated
  cases result with
  | error e => exact absurd hhold hcreated.1
  | ok s =>
    obtain ⟨rfl, -, -, honly, hnew⟩ := hcreated
    rw [hplace] at honly hnew
    exact ⟨t', rfl, hagain _ _ hrun, honly, hnew (by decide) (by decide)⟩

/-- A path that goes up out of a directory that is not there leads to nothing, although it leads to the hand-written settings as soon
as the directory is there. It is made before the default settings are saved: they stand in the file afterwards. -/
theorem replaced_by_defaults :
    bellTree.IsRooted ∧ bellTree.pathExists "missing/../hand.json".toList = false ∧
    readFrom bellTree "hand.json".toList = .ok bellSettings ∧
    ∃ t', (loadOrCreate "missing/../hand.json".toList).runOn bellTree = (.ok default, t') ∧
      t'.readBytes "hand.json".toList = .ok (Text.encode default.write) ∧ readFrom t' "hand.json".toList = .ok default := by
  have hhold : bellTree.CanHoldFile "missing/../hand.json".toList := ⟨_, rfl, _, rfl, by decide⟩
  have hnot : bellTree.pathExists "missing/../hand.json".toList = false := by decide
  refine ⟨by decide, hnot, readFrom_bellTree, ?_⟩
  rcases loadOrCreate_cases hnot with ⟨t', hcreate, hsave⟩ | ⟨hno, -⟩
  · -- The file has the same place by either path.
    have hplace : bellTree.placeOf "missing/../hand.json".toList = ["hand.json".toList] := by decide
    obtain ⟨-, hfile⟩ := lookup_of_save defect?_default hsave
    have hl : t'.locateFile "hand.json".toList = .ok ["hand.json".toList] :=
      (changesOnly_save defect?_default hsave).1.keeps.locateFile rfl
    rw [hplace] at hfile
    have hread := readBytes_eq_ok_iff.2 ⟨_, hl, hfile⟩
    exact ⟨t', hcreate, hread, readFrom_of_readBytes defect?_default hread⟩
  · exact absurd hhold hno

end Settings

end DevWorkflow
