import DevWorkflow.Completion.Install
import DevWorkflow.Proofs.FileTree.Places

/-!
# Writing the scripts

Files are written into a directory one after another, up to the first one that cannot be written. So the files that were written are
always the first ones of the list, each of them as a whole, and no other file is changed (`Install.runOn_writeFiles`). The scripts
for all shells are such files, with the directory made before them (`Install.written_by_writeScripts`).
-/

namespace DevWorkflow

namespace Install

open FileTree

/-- The places of files in a directory. -/
def placesIn (t : FileTree) (directory : Text) (files : List (Text × Text)) : List (List Text) :=
  files.map fun f => t.placeOf (FilePath.join directory f.1)

/-- Files were written into a directory: each of them holds what it should, and no other file is changed. -/
structure Wrote (directory : Text) (files : List (Text × Text)) (t t' : FileTree) : Prop where
  holds : ∀ f ∈ files, t'.readBytes (FilePath.join directory f.1) = .ok (Text.encode f.2)
  only : ChangesOnly (placesIn t directory files) t t'

/-- Whether files can stand side by side in a directory: their names are names, and all different. -/
structure AreSiblings (files : List (Text × Text)) : Prop where
  names : ∀ f ∈ files, FilePath.IsName f.1
  nodup : (files.map (·.1)).Nodup

theorem AreSiblings.tail {f : Text × Text} {rest : List (Text × Text)} (h : AreSiblings (f :: rest)) : AreSiblings rest :=
  ⟨fun g hg => h.names g (List.mem_cons_of_mem f hg), (List.nodup_cons.1 h.nodup).2⟩

/-- A file has a place of its own among its siblings. -/
theorem AreSiblings.placeOf_not_mem {f : Text × Text} {rest : List (Text × Text)} (h : AreSiblings (f :: rest))
    (t : FileTree) (directory : Text) :
    t.placeOf (FilePath.join directory f.1) ∉ placesIn t directory rest := by
  intro hmem
  obtain ⟨g, hg, hplace⟩ := List.mem_map.1 hmem
  rw [placeOf_join (h.names g (List.mem_cons_of_mem f hg)), placeOf_join (h.names f List.mem_cons_self)] at hplace
  have hname : g.1 = f.1 := List.singleton_inj.1 (List.append_cancel_left hplace)
  exact (List.nodup_cons.1 h.nodup).1 (List.mem_map.2 ⟨g, hg, hname⟩)

/-- The places of files are the same as long as directories stay. -/
theorem placesIn_of_keepsDirectories {t t' : FileTree} (h : KeepsDirectories t t') (directory : Text)
    (files : List (Text × Text)) : placesIn t' directory files = placesIn t directory files := by
  simp only [placesIn, h.placeOf]

/-- A file that is written before its siblings. -/
theorem Wrote.cons {directory : Text} {f : Text × Text} {rest : List (Text × Text)} {t t₁ t' : FileTree}
    (hplace : t.placeOf (FilePath.join directory f.1) ∉ placesIn t directory rest)
    (hfirst : t.writeBytes (FilePath.join directory f.1) (Text.encode f.2) = .ok t₁) (hrest : Wrote directory rest t₁ t') :
    Wrote directory (f :: rest) t t' := by
  have honly := hrest.only
  rw [placesIn_of_keepsDirectories (keepsDirectories_writeBytes hfirst)] at honly
  constructor
  · refine List.forall_mem_cons.2 ⟨?_, hrest.holds⟩
    exact honly.readBytes_written hfirst hplace
  · refine .trans ((changesOnly_writeBytes hfirst).mono ?_) (honly.mono (List.subset_cons_self _ _))
    exact List.cons_subset.2 ⟨List.mem_cons_self, List.nil_subset _⟩

/-- Whatever happens, the files that are written are the first ones of the list. -/
theorem runOn_writeFiles (directory : Text) {files : List (Text × Text)} (h : AreSiblings files) (t : FileTree) :
    match (writeFiles directory files).runOn t with
    | (.ok (), t') => Wrote directory files t t'
    | (.error _, t') => ∃ k < files.length, Wrote directory (files.take k) t t' := by
  induction files generalizing t with
  | nil => exact ⟨List.forall_mem_nil _, .refl _ t⟩
  | cons f rest ih =>
    rw [writeFiles, FileAction.runOn_bind, writeText, runOn_writeFile]
    cases hfirst : t.writeBytes (FilePath.join directory f.1) (Text.encode f.2) with
    | error e => exact ⟨0, by simp, List.forall_mem_nil _, .refl _ t⟩
    | ok t₁ =>
      have hplace := h.placeOf_not_mem t directory
      have hrest := ih h.tail t₁
      simp only
      rcases hrun : (writeFiles directory rest).runOn t₁ with ⟨result, t'⟩
      rw [hrun] at hrest
      cases result with
      | ok u => exact .cons hplace hfirst hrest
      | error e =>
        obtain ⟨k, hk, hwrote⟩ := hrest
        have hsome : t.placeOf (FilePath.join directory f.1) ∉ placesIn t directory (rest.take k) := by
          intro hmem
          rw [placesIn, List.map_take] at hmem
          exact hplace (List.mem_of_mem_take hmem)
        exact ⟨k + 1, by simpa using hk, .cons hsome hfirst hwrote⟩

/-- Files that hold what they should are not changed by writing them. -/
theorem runOn_writeFiles_again {directory : Text} {files : List (Text × Text)} {t : FileTree}
    (h : ∀ f ∈ files, t.readBytes (FilePath.join directory f.1) = .ok (Text.encode f.2)) :
    (writeFiles directory files).runOn t = (.ok (), t) := by
  induction files with
  | nil => rfl
  | cons f rest ih =>
    obtain ⟨hfirst, hrest⟩ := List.forall_mem_cons.1 h
    rw [writeFiles, FileAction.runOn_bind, writeText, runOn_writeFile, writeBytes_of_readBytes hfirst]
    exact ih hrest

/-! ## The scripts -/

/-- The scripts can stand side by side. -/
theorem areSiblings_scriptFiles (tree : CommandTree) : AreSiblings (scriptFiles tree) := by
  have hnames : ∀ name ∈ Shell.all.map Shell.scriptFile ++ [aliasFile], FilePath.IsName name := by decide
  have hnodup : (Shell.all.map Shell.scriptFile ++ [aliasFile]).Nodup := by decide
  exact ⟨fun f hf => hnames f.1 (List.mem_map_of_mem hf), hnodup⟩

/-- Writing the scripts makes the directory and then writes the files. -/
theorem runOn_writeScripts (directory : Text) (tree : CommandTree) (t : FileTree) :
    (writeScripts directory tree).runOn t =
      match (createDirectories directory).runOn t with
      | (.error e, t₁) => (.error e, t₁)
      | (.ok (), t₁) =>
        match (writeFiles directory (scriptFiles tree)).runOn t₁ with
        | (.error e, t') => (.error e, t')
        | (.ok (), t') => (.ok (scriptPaths directory tree), t') := by
  rw [writeScripts, FileAction.runOn_bind]
  rcases (createDirectories directory).runOn t with ⟨result, t₁⟩
  cases result with
  | error e => rfl
  | ok u =>
    simp only [FileAction.runOn_bind]
    rcases (writeFiles directory (scriptFiles tree)).runOn t₁ with ⟨result, t'⟩
    cases result <;> rfl

/-- Making the directory before files are written changes no file. -/
theorem Wrote.after_createDirectories {directory : Text} {files : List (Text × Text)} {t t₁ t' : FileTree}
    {result : Except IoFault Unit} (hmake : (createDirectories directory).runOn t = (result, t₁))
    (h : Wrote directory files t₁ t') : Wrote directory files t t' := by
  have hmade := changesOnly_createDirectories hmake
  have honly := h.only
  rw [placesIn_of_keepsDirectories hmade.keeps] at honly
  exact ⟨h.holds, (hmade.mono (List.nil_subset _)).trans honly⟩

/-- Writing the scripts, whether it can be done or not, changes no other file. -/
theorem changesOnly_writeScripts {directory : Text} {tree : CommandTree} {t t' : FileTree}
    {result : Except IoFault (List Text)} (h : (writeScripts directory tree).runOn t = (result, t')) :
    ChangesOnly (placesIn t directory (scriptFiles tree)) t t' := by
  rw [runOn_writeScripts] at h
  rcases hmake : (createDirectories directory).runOn t with ⟨made, t₁⟩
  rw [hmake] at h
  cases made with
  | error e =>
    obtain ⟨-, rfl⟩ := Prod.mk.inj h
    exact (changesOnly_createDirectories hmake).mono (List.nil_subset _)
  | ok u =>
    have hfiles := runOn_writeFiles directory (areSiblings_scriptFiles tree) t₁
    simp only at h
    rcases hrun : (writeFiles directory (scriptFiles tree)).runOn t₁ with ⟨wrote, t₂⟩
    rw [hrun] at hfiles h
    cases wrote with
    | ok u =>
      obtain ⟨-, rfl⟩ := Prod.mk.inj h
      exact (Wrote.after_createDirectories hmake hfiles).only
    | error e =>
      obtain ⟨-, rfl⟩ := Prod.mk.inj h
      obtain ⟨k, -, hwrote⟩ := hfiles
      refine (hwrote.after_createDirectories hmake).only.mono ?_
      exact List.map_subset _ (List.take_subset k _)

/-- The tree after the scripts were written, whether it could be done or not, has the other files unchanged. -/
theorem changesOnly_written (directory : Text) (tree : CommandTree) (t : FileTree) :
    ChangesOnly (placesIn t directory (scriptFiles tree)) t ((writeScripts directory tree).runOn t).2 :=
  changesOnly_writeScripts rfl

/-- If the scripts can be written into a directory, then afterwards the four files hold the scripts, no other file is changed, and
writing them again changes nothing. If not, then the files that were written are the first of the four, none if the directory cannot
be made: they hold their scripts as a whole, and no other file is changed. -/
theorem written_by_writeScripts (directory : Text) (tree : CommandTree) (t : FileTree) :
    let files : List (Text × Text) :=
      [("_devx".toList, Zsh.script tree), ("devx.bash".toList, Bash.script tree), ("devx.fish".toList, Fish.script tree),
        ("_dx".toList, "#compdef dx\n_devx \"$@\"\n".toList)]
    match (writeScripts directory tree).runOn t with
    | (.ok written, t') =>
      written = files.map (fun f => FilePath.join directory f.1) ∧ Wrote directory files t t' ∧
        (writeScripts directory tree).runOn t' = (.ok written, t')
    | (.error _, t') =>
      ∃ k < 4, Wrote directory (files.take k) t t' ∧
        ((∀ t₁, (createDirectories directory).runOn t ≠ (.ok (), t₁)) → k = 0) := by
  show match (writeScripts directory tree).runOn t with
    | (.ok written, t') =>
      written = scriptPaths directory tree ∧ Wrote directory (scriptFiles tree) t t' ∧
        (writeScripts directory tree).runOn t' = (.ok written, t')
    | (.error _, t') =>
      ∃ k < (scriptFiles tree).length, Wrote directory ((scriptFiles tree).take k) t t' ∧
        ((∀ t₁, (createDirectories directory).runOn t ≠ (.ok (), t₁)) → k = 0)
  rw [runOn_writeScripts]
  rcases hmake : (createDirectories directory).runOn t with ⟨result, t₁⟩
  cases result with
  | error e => exact ⟨0, Nat.zero_lt_succ 3, .after_createDirectories hmake ⟨List.forall_mem_nil _, .refl _ t₁⟩, fun _ => rfl⟩
  | ok u =>
    have hfiles := runOn_writeFiles directory (areSiblings_scriptFiles tree) t₁
    simp only
    rcases hrun : (writeFiles directory (scriptFiles tree)).runOn t₁ with ⟨result, t'⟩
    rw [hrun] at hfiles
    cases result with
    | ok u =>
      have hmake' := createDirectories_again hmake hfiles.only.keeps
      refine ⟨rfl, .after_createDirectories hmake hfiles, ?_⟩
      rw [runOn_writeScripts, hmake']
      simp only [runOn_writeFiles_again hfiles.holds]
    | error e =>
      obtain ⟨k, hk, hwrote⟩ := hfiles
      exact ⟨k, hk, .after_createDirectories hmake hwrote, fun hnot => absurd rfl (hnot t₁)⟩

end Install

end DevWorkflow
