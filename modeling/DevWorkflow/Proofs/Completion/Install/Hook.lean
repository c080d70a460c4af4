import DevWorkflow.Proofs.Completion.Install.Scripts

/-!
# The hook in a start-up file

What looking for the hook, backing up and adding the hook do to the files. A start-up file keeps its content when it is backed up
(`Install.contentAt?_of_backUp`), and adding the hook writes the block behind its text, or is no change of any file
(`Install.addHook_cases`). The block is a hook that is found (`Install.isHooked_append`).
-/

namespace DevWorkflow

namespace Install

open FileTree

/-! ## Start-up files -/

/-- The name of a shell's start-up file. -/
def startupName : Shell → Text
  | .bash => ".bashrc".toList
  | .zsh => ".zshrc".toList
  | .fish => "config.fish".toList

/-- What a backup of a file is called. -/
def backupName (name timeStamp : Text) : Text := name ++ ".devx-backup-".toList ++ timeStamp

/-- A start-up file stands in a directory under its name. -/
theorem exists_placeOf_startupFile (t : FileTree) (home : Text) (shell : Shell) :
    ∃ folder, t.placeOf (startupFile home shell) = folder ++ [startupName shell] := by
  have hname : FilePath.IsName (startupName shell) := by cases shell <;> decide
  cases shell with
  | bash => exact ⟨_, placeOf_join hname t _⟩
  | zsh => exact ⟨_, placeOf_join hname t _⟩
  | fish => exact ⟨_, placeOf_join hname t _⟩

/-- A file that has another name than the scripts is none of them. -/
theorem not_mem_placesIn_scriptFiles {name : Text} (h : name ∉ Shell.all.map Shell.scriptFile ++ [aliasFile])
    (t : FileTree) (directory : Text) (tree : CommandTree) (folder : List Text) :
    folder ++ [name] ∉ placesIn t directory (scriptFiles tree) := by
  intro hmem
  obtain ⟨f, hf, hplace⟩ := List.mem_map.1 hmem
  rw [placeOf_join ((areSiblings_scriptFiles tree).names f hf)] at hplace
  have hnames : f.1 ∈ Shell.all.map Shell.scriptFile ++ [aliasFile] := List.mem_map_of_mem (f := (·.1)) hf
  obtain ⟨-, hname⟩ := List.append_inj' hplace rfl
  exact h (List.singleton_inj.1 hname ▸ hnames)

/-- No script is called like a start-up file. -/
theorem startupName_not_mem (shell : Shell) : startupName shell ∉ Shell.all.map Shell.scriptFile ++ [aliasFile] := by
  cases shell <;> decide

/-- The start-up file is none of the scripts. -/
theorem placeOf_startupFile_not_mem (t t₁ : FileTree) (home : Text) (shell : Shell) (directory : Text) (tree : CommandTree) :
    t.placeOf (startupFile home shell) ∉ placesIn t₁ directory (scriptFiles tree) := by
  obtain ⟨folder, hplace⟩ := exists_placeOf_startupFile t home shell
  rw [hplace]
  exact not_mem_placesIn_scriptFiles (startupName_not_mem shell) t₁ directory tree folder

/-- No script is called like a backup of a start-up file. -/
theorem backupName_not_mem (shell : Shell) (timeStamp : Text) :
    backupName (startupName shell) timeStamp ∉ Shell.all.map Shell.scriptFile ++ [aliasFile] := by
  have hhead : ∀ name ∈ Shell.all.map Shell.scriptFile ++ [aliasFile], name.head? ≠ (startupName shell).head? := by
    cases shell <;> decide
  intro hmem
  refine hhead _ hmem ?_
  cases shell <;> rfl

/-! ## Finding the hook -/

/-- Whether the file at a path has the hook. -/
def IsHookedAt (t : FileTree) (path : Text) : Prop := ∃ text, t.readText path = .ok text ∧ isHooked text = true

/-- The hook is found where it is. -/
theorem runOn_hasHook_eq_true_iff {t : FileTree} {path : Text} :
    (hasHook path).runOn t = (.ok true, t) ↔ IsHookedAt t path := by
  show (if t.pathExists path then ((t.readText path).map isHooked, t) else (.ok false, t)) = (Except.ok true, t) ↔ _
  unfold IsHookedAt
  cases hread : t.readText path with
  | error e => split <;> simp [Except.map]
  | ok text =>
    have hexists := pathExists_of_readBytes (readText_eq_ok_iff.1 hread)
    simp [hexists, Except.map]

/-- Looking for the hook changes nothing. -/
theorem runOn_hasHook_snd (path : Text) (t : FileTree) : ((hasHook path).runOn t).2 = t := by
  show (if t.pathExists path then ((t.readText path).map isHooked, t) else (.ok false, t)).2 = t
  split <;> rfl

/-- The hook stays as long as the file does. -/
theorem IsHookedAt.of_changesOnly {t t' : FileTree} {path : Text} {places : List (List Text)} (h : IsHookedAt t path)
    (honly : ChangesOnly places t t') (hp : t.placeOf path ∉ places) : IsHookedAt t' path := by
  obtain ⟨text, hread, hhooked⟩ := h
  exact ⟨text, readText_eq_ok_iff.2 (honly.readBytes (readText_eq_ok_iff.1 hread) hp), hhooked⟩

/-- The block is a hook. -/
theorem isHooked_append (text directory : Text) (shell : Shell) : isHooked (text ++ hookBlock directory shell) = true := by
  have hblock : text ++ hookBlock directory shell = text ++ "\n".toList ++ startMark ++ ("\n# Managed by `".toList ++ programName
      ++ " init`\n".toList ++ hookBody directory shell ++ endMark ++ "\n".toList) := by
    simp only [hookBlock, List.append_assoc]
  rw [hblock]
  exact Text.contains_append _ startMark _

/-! ## Backing up -/

/-- Backing up does nothing, since it fails or nothing is found at the path; or it writes what the file holds to a file beside it. -/
theorem backUp_cases {t t' : FileTree} {path timeStamp : Text} {result : Except Fault (Option Text)}
    (h : (backUp path timeStamp).runOn t = (result, t')) :
    t' = t ∧ ((∃ fault, result = .error fault) ∨ result = .ok none ∧ t.pathExists path = false) ∨
      ∃ name content, FilePath.fileName? path = some name ∧
        result = .ok (some (FilePath.withFileName path (backupName name timeStamp))) ∧ t.pathExists path = true ∧
        t.readBytes path = .ok content ∧
        t.writeBytes (FilePath.withFileName path (backupName name timeStamp)) content = .ok t' := by
  unfold FileAction.runOn backUp at h
  change (if !t.pathExists path then _ else _) = (result, t') at h
  split at h
  · next hnot =>
    obtain ⟨rfl, rfl⟩ := Prod.mk.inj h
    exact .inl ⟨rfl, .inr ⟨rfl, by simpa using hnot⟩⟩
  · next hexists =>
    split at h
    · obtain ⟨rfl, rfl⟩ := Prod.mk.inj h
      exact .inl ⟨rfl, .inl ⟨_, rfl⟩⟩
    · next name hname =>
      dsimp only at h
      cases hread : t.readBytes path with
      | error e =>
        rw [hread] at h
        obtain ⟨rfl, rfl⟩ := Prod.mk.inj h
        exact .inl ⟨rfl, .inl ⟨_, rfl⟩⟩
      | ok content =>
        rw [hread] at h
        simp only [Except.bind] at h
        split at h
        · next t₁ hwrite =>
          obtain ⟨rfl, rfl⟩ := Prod.mk.inj h
          exact .inr ⟨name, content, hname, rfl, by simpa using hexists, rfl, hwrite⟩
        · obtain ⟨rfl, rfl⟩ := Prod.mk.inj h
          exact .inl ⟨rfl, .inl ⟨_, rfl⟩⟩

/-- Backing up a file keeps its content. -/
theorem contentAt?_of_backUp {t t' : FileTree} {path timeStamp : Text} {result : Except Fault (Option Text)}
    (h : (backUp path timeStamp).runOn t = (result, t')) :
    KeepsDirectories t t' ∧ t'.contentAt? (t.placeOf path) = t.contentAt? (t.placeOf path) := by
  rcases backUp_cases h with ⟨rfl, -⟩ | ⟨name, content, -, -, -, hread, hwrite⟩
  · exact ⟨.refl t', rfl⟩
  · let backup := FilePath.withFileName path (backupName name timeStamp)
    refine ⟨keepsDirectories_writeBytes hwrite, ?_⟩
    by_cases hplace : t.placeOf path = t.placeOf backup
    · -- A backup in the place of the file itself holds what the file held.
      have hbackup := contentAt?_of_readBytes (readBytes_of_writeBytes hwrite)
      rw [(keepsDirectories_writeBytes hwrite).placeOf, ← hplace] at hbackup
      rw [hbackup, contentAt?_of_readBytes hread]
    · exact (changesOnly_writeBytes hwrite).contentAt? (by simpa using hplace)

/-! ## Adding the hook -/

/-- Adding the hook makes the directory, looks at the text that is there and writes it with the block. -/
theorem runOn_addHook (path directory : Text) (shell : Shell) (t : FileTree) :
    (addHook path directory shell).runOn t =
      match (createParent path).runOn t with
      | (.error e, t₁) => (.error e, t₁)
      | (.ok (), t₁) =>
        match (if t₁.pathExists path then t₁.readText path else .ok []) with
        | .error e => (.error e, t₁)
        | .ok text =>
          match t₁.writeBytes path (Text.encode (text ++ hookBlock directory shell)) with
          | .error e => (.error e, t₁)
          | .ok t' => (.ok (), t') := by
  rw [addHook, FileAction.runOn_bind]
  rcases (createParent path).runOn t with ⟨result, t₁⟩
  cases result with
  | error e => rfl
  | ok u =>
    have hlook : (look fun t => if t.pathExists path then t.readText path else .ok []).runOn t₁ =
        (if t₁.pathExists path then t₁.readText path else .ok [], t₁) := rfl
    simp only [FileAction.runOn_bind, hlook]
    cases (if t₁.pathExists path then t₁.readText path else Except.ok []) with
    | error e => rfl
    | ok text =>
      simp only [writeText, runOn_writeFile]
      cases t₁.writeBytes path (Text.encode (text ++ hookBlock directory shell)) <;> rfl

/-- What is looked at before a file is written is the text that its place holds. -/
theorem holdsText_of_look {t t' : FileTree} {path text : Text} {content : ByteArray}
    (hread : (if t.pathExists path then t.readText path else .ok []) = .ok text) (hwrite : t.writeBytes path content = .ok t') :
    t.HoldsText (t.placeOf path) text := by
  split at hread
  · exact .inl (contentAt?_of_readBytes (readText_eq_ok_iff.1 hread))
  · next hexists =>
    obtain ⟨place, hl, -, -⟩ := writeBytes_eq_ok_iff.1 hwrite
    rw [placeOf_of_locate (locateFile_eq_ok_iff.1 hl).2]
    exact .inr ⟨contentAt?_of_not_pathExists (by simpa using hexists) hl, (Except.ok.inj hread).symm⟩

/-- Adding the hook changes no file if it fails, and writes the block behind the text that was there if it succeeds. -/
theorem addHook_cases {t t' : FileTree} {path directory : Text} {shell : Shell} {result : Except IoFault Unit}
    (h : (addHook path directory shell).runOn t = (result, t')) :
    ∃ t₁, ChangesOnly [] t t₁ ∧
      ((∃ e, result = .error e) ∧ t' = t₁ ∨
        result = .ok () ∧ ∃ text, t.HoldsText (t.placeOf path) text ∧
          t₁.writeBytes path (Text.encode (text ++ hookBlock directory shell)) = .ok t') := by
  rw [runOn_addHook] at h
  rcases hparent : (createParent path).runOn t with ⟨made, t₁⟩
  have honly := changesOnly_createParent hparent
  refine ⟨t₁, honly, ?_⟩
  rw [hparent] at h
  cases made with
  | error e =>
    obtain ⟨rfl, rfl⟩ := Prod.mk.inj h
    exact .inl ⟨⟨e, rfl⟩, rfl⟩
  | ok u =>
    simp only at h
    cases hread : (if t₁.pathExists path then t₁.readText path else Except.ok []) with
    | error e =>
      rw [hread] at h
      obtain ⟨rfl, rfl⟩ := Prod.mk.inj h
      exact .inl ⟨⟨e, rfl⟩, rfl⟩
    | ok text =>
      rw [hread] at h
      simp only at h
      cases hwrite : t₁.writeBytes path (Text.encode (text ++ hookBlock directory shell)) with
      | error e =>
        rw [hwrite] at h
        obtain ⟨rfl, rfl⟩ := Prod.mk.inj h
        exact .inl ⟨⟨e, rfl⟩, rfl⟩
      | ok t₂ =>
        rw [hwrite] at h
        obtain ⟨rfl, rfl⟩ := Prod.mk.inj h
        have hholds := holdsText_of_look hread hwrite
        rw [HoldsText, honly.keeps.placeOf, honly.contentAt? List.not_mem_nil] at hholds
        exact .inr ⟨rfl, text, hholds, hwrite⟩

end Install

end DevWorkflow
