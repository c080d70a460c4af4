import DevWorkflow.FileTree

/-!
# Writing files

Everything that is done to a file tree keeps its directories where they are (`KeepsDirectories`), so that a path goes on
leading to the place to which it leads. From this come the two facts on which saving rests: what was written is what is read
(`readBytes_of_writeBytes`), and making the directories for a file a second time changes nothing (`createParent_again`).
-/

namespace DevWorkflow

/-- What an action on a file tree gives, and the tree that it leaves. -/
def FileAction.runOn {ε α : Type} (action : FileAction ε α) (t : FileTree) : Except ε α × FileTree := action.run.run t

/-- An action after another one goes on with what that one gives, unless it fails. -/
theorem FileAction.runOn_bind {ε α β : Type} (action : FileAction ε α) (next : α → FileAction ε β) (t : FileTree) :
    (action >>= next).runOn t =
      match action.runOn t with
      | (.ok a, t') => (next a).runOn t'
      | (.error e, t') => (.error e, t') := by
  have hbind : (action >>= next).runOn t = ExceptT.bindCont next (action.runOn t).1 (action.runOn t).2 := rfl
  rw [hbind]
  rcases action.runOn t with ⟨result, t'⟩
  cases result with
  | ok a => rfl
  | error e => rfl

/-- An action with other errors does the same. -/
theorem FileAction.runOn_adapt {ε ε' α : Type} (f : ε → ε') (action : FileAction ε α) (t : FileTree) :
    FileAction.runOn (ExceptT.adapt f action) t = ((action.runOn t).1.mapError f, (action.runOn t).2) := rfl

namespace FileTree

/-! ## Directories stay -/

/-- The working directory is the same, and what was a directory still is one. -/
structure KeepsDirectories (t t' : FileTree) : Prop where
  workingDirectory : t'.workingDirectory = t.workingDirectory
  directory : ∀ place, t.lookup place = some .directory → t'.lookup place = some .directory

theorem KeepsDirectories.refl (t : FileTree) : KeepsDirectories t t := ⟨rfl, fun _ h => h⟩

theorem KeepsDirectories.trans {t t' t'' : FileTree} (h : KeepsDirectories t t') (h' : KeepsDirectories t' t'') :
    KeepsDirectories t t'' :=
  ⟨h'.workingDirectory.trans h.workingDirectory, fun place hp => h'.directory place (h.directory place hp)⟩

/-- A directory stays if something is put at a place where no directory is. -/
theorem keepsDirectories_put {t : FileTree} {place : List Text} (h : t.lookup place ≠ some .directory) (entry : FileEntry) :
    KeepsDirectories t (t.put place entry) := by
  refine ⟨rfl, fun other ho => ?_⟩
  have hne : other ≠ place := by
    rintro rfl
    exact h ho
  rw [lookup_put_of_ne t hne]
  exact ho

/-- What is put at a place where no directory is stands there. -/
theorem lookup_put_of_ne_directory {t : FileTree} {place : List Text} (h : t.lookup place ≠ some .directory)
    (entry : FileEntry) : (t.put place entry).lookup place = some entry := by
  apply lookup_put_self
  rintro rfl
  exact h rfl

/-- A path leads on to the place to which it leads. -/
theorem KeepsDirectories.walk {t t' : FileTree} (h : KeepsDirectories t t') {parts start stop : List Text}
    (hw : t.walk start parts = .ok stop) : t'.walk start parts = .ok stop := by
  induction parts generalizing start with
  | nil => exact hw
  | cons part rest ih =>
    rw [FileTree.walk] at hw ⊢
    cases hl : t.lookup start with
    | none => simp [hl] at hw
    | some entry =>
      cases entry with
      | file content => simp [hl] at hw
      | directory =>
        simp only [hl] at hw
        simp only [h.directory start hl]
        split at hw
        · simp at hw
        · next hlong =>
          rw [if_neg hlong]
          split at hw
          · next hdot =>
            rw [if_pos hdot]
            exact ih hw
          · next hdot =>
            rw [if_neg hdot]
            split at hw
            · next hup =>
              rw [if_pos hup]
              exact ih hw
            · next hup =>
              rw [if_neg hup]
              exact ih hw

theorem KeepsDirectories.origin {t t' : FileTree} (h : KeepsDirectories t t') (path : Text) :
    t'.origin path = t.origin path := by
  rw [FileTree.origin, FileTree.origin, h.workingDirectory]

theorem KeepsDirectories.locate {t t' : FileTree} (h : KeepsDirectories t t') {path : Text} {place : List Text}
    (hp : t.locate path = .ok place) : t'.locate path = .ok place := by
  unfold FileTree.locate at hp ⊢
  cases hs : steps path with
  | error e => simp [hs] at hp
  | ok parts =>
    simp only [hs] at hp ⊢
    rw [h.origin]
    exact h.walk hp

/-- A path at which a file can be put leads to the place of the file. -/
theorem locateFile_eq_ok_iff {t : FileTree} {path : Text} {place : List Text} :
    t.locateFile path = .ok place ↔ endsWithSlash path = false ∧ t.locate path = .ok place := by
  unfold locateFile locate
  cases hs : steps path with
  | error e => simp
  | ok parts =>
    cases hslash : endsWithSlash path with
    | true =>
      simp only [if_true]
      split <;> simp
    | false => simp

theorem KeepsDirectories.locateFile {t t' : FileTree} (h : KeepsDirectories t t') {path : Text} {place : List Text}
    (hp : t.locateFile path = .ok place) : t'.locateFile path = .ok place := by
  obtain ⟨hslash, hl⟩ := locateFile_eq_ok_iff.1 hp
  exact locateFile_eq_ok_iff.2 ⟨hslash, h.locate hl⟩

/-- A path leads to a directory. -/
theorem isDirectory_iff {t : FileTree} {path : Text} :
    t.isDirectory path = true ↔ ∃ place, t.locate path = .ok place ∧ t.lookup place = some .directory := by
  unfold isDirectory entryAt?
  cases hl : t.locate path with
  | error e => simp
  | ok place =>
    simp only [Except.ok.injEq, exists_eq_left', decide_eq_true_eq]
    cases hp : t.lookup place with
    | none => simp
    | some entry =>
      cases entry with
      | directory => simp
      | file content => by_cases hslash : endsWithSlash path = true <;> simp [hslash]

theorem KeepsDirectories.isDirectory {t t' : FileTree} (h : KeepsDirectories t t') {path : Text}
    (hp : t.isDirectory path = true) : t'.isDirectory path = true := by
  obtain ⟨place, hl, hd⟩ := isDirectory_iff.1 hp
  exact isDirectory_iff.2 ⟨place, h.locate hl, h.directory place hd⟩

/-! ## Making directories -/

/-- A new directory is put at a place where nothing is. -/
theorem createDirectory_eq_ok_iff {t t' : FileTree} {path : Text} :
    t.createDirectory path = .ok t' ↔
      ∃ place, t.locate path = .ok place ∧ t.lookup place = none ∧ t' = t.put place .directory := by
  unfold createDirectory
  cases hl : t.locate path with
  | error e => simp
  | ok place =>
    cases hp : t.lookup place with
    | some entry => simp [hp]
    | none => simp [hp, eq_comm]

theorem keepsDirectories_createDirectory {t t' : FileTree} {path : Text} (h : t.createDirectory path = .ok t') :
    KeepsDirectories t t' := by
  obtain ⟨place, _, hp, rfl⟩ := createDirectory_eq_ok_iff.1 h
  exact keepsDirectories_put (by simp [hp]) .directory

theorem isDirectory_of_createDirectory {t t' : FileTree} {path : Text} (h : t.createDirectory path = .ok t') :
    t'.isDirectory path = true := by
  have hk := keepsDirectories_createDirectory h
  obtain ⟨place, hl, hp, rfl⟩ := createDirectory_eq_ok_iff.1 h
  exact isDirectory_iff.2 ⟨place, hk.locate hl, lookup_put_of_ne_directory (by simp [hp]) .directory⟩

/-- What holds of making one directory, of doing nothing and of two changes in a row holds of making directories along a path. -/
theorem createAlong_induction {R : FileTree → FileTree → Prop} (refl : ∀ t, R t t)
    (trans : ∀ {t t' t''}, R t t' → R t' t'' → R t t'')
    (step : ∀ {t t' : FileTree} {path : Text}, t.createDirectory path = .ok t' → R t t') (t : FileTree) (paths : List Text) :
    R t (t.createAlong paths).1 := by
  induction paths with
  | nil => exact refl t
  | cons path above ih =>
    rw [createAlong]
    split
    · next h => exact step h
    · split
      · next h =>
        rw [h] at ih
        exact ih
      · next h =>
        rw [h] at ih
        split
        · next h' => exact trans ih (step h')
        · exact ih
    · exact refl t

/-- When a directory could be made, it is there. -/
theorem isDirectory_of_createAlong {t : FileTree} {path : Text} {above : List Text}
    (h : (t.createAlong (path :: above)).2 = .ok ()) : (t.createAlong (path :: above)).1.isDirectory path = true := by
  rw [createAlong] at h ⊢
  split at h
  · next h1 => exact isDirectory_of_createDirectory h1
  · split at h
    · simp at h
    · next t' _ =>
      split at h
      · next h2 => exact isDirectory_of_createDirectory h2
      · by_cases hd : t'.isDirectory path = true
        · exact hd
        · simp [hd] at h
  · by_cases hd : t.isDirectory path = true
    · exact hd
    · simp [hd] at h

/-- Where the directory is there already, nothing is made. -/
theorem createAlong_of_isDirectory {t : FileTree} {path : Text} (h : t.isDirectory path = true) (above : List Text) :
    t.createAlong (path :: above) = (t, .ok ()) := by
  obtain ⟨place, hl, hd⟩ := isDirectory_iff.1 h
  have he : t.createDirectory path = .error .alreadyExists := by simp [createDirectory, hl, hd]
  simp [createAlong, he, h]

theorem runOn_createDirectories (path : Text) (t : FileTree) :
    (createDirectories path).runOn t = ((t.createAlong (ancestors path)).2, (t.createAlong (ancestors path)).1) := rfl

/-- Making a directory that was made before changes nothing, whatever was done in between. -/
theorem createDirectories_again {t t' t'' : FileTree} {path : Text} (h : (createDirectories path).runOn t = (.ok (), t'))
    (hk : KeepsDirectories t' t'') : (createDirectories path).runOn t'' = (.ok (), t'') := by
  rw [runOn_createDirectories] at h ⊢
  cases ha : ancestors path with
  | nil => rfl
  | cons first above =>
    rw [ha] at h
    obtain ⟨hok, rfl⟩ := Prod.mk.inj h
    rw [createAlong_of_isDirectory (hk.isDirectory (isDirectory_of_createAlong hok)) above]

/-- Making the directory for a file a second time changes nothing, whatever was done in between. -/
theorem createParent_again {t t' t'' : FileTree} {path : Text} (h : (createParent path).runOn t = (.ok (), t'))
    (hk : KeepsDirectories t' t'') : (createParent path).runOn t'' = (.ok (), t'') := by
  unfold createParent at h ⊢
  cases hp : FilePath.parent? path with
  | none => rfl
  | some above =>
    rw [hp] at h
    exact createDirectories_again h hk

/-! ## Files -/

/-- A file is put where no directory is. -/
theorem writeBytes_eq_ok_iff {t t' : FileTree} {path : Text} {content : ByteArray} :
    t.writeBytes path content = .ok t' ↔
      ∃ place, t.locateFile path = .ok place ∧ t.lookup place ≠ some .directory ∧ t' = t.put place (.file content) := by
  unfold writeBytes
  cases hl : t.locateFile path with
  | error e => simp
  | ok place =>
    cases hp : t.lookup place with
    | none => simp [hp, eq_comm]
    | some entry => cases entry <;> simp [hp, eq_comm]

theorem keepsDirectories_writeBytes {t t' : FileTree} {path : Text} {content : ByteArray}
    (h : t.writeBytes path content = .ok t') : KeepsDirectories t t' := by
  obtain ⟨place, _, hp, rfl⟩ := writeBytes_eq_ok_iff.1 h
  exact keepsDirectories_put hp _

/-- What was written is what is read. -/
theorem readBytes_of_writeBytes {t t' : FileTree} {path : Text} {content : ByteArray}
    (h : t.writeBytes path content = .ok t') : t'.readBytes path = .ok content := by
  have hk := keepsDirectories_writeBytes h
  obtain ⟨place, hl, hp, rfl⟩ := writeBytes_eq_ok_iff.1 h
  obtain ⟨hslash, hl'⟩ := locateFile_eq_ok_iff.1 (hk.locateFile hl)
  simp [readBytes, hl', lookup_put_of_ne_directory hp, hslash]

theorem putIn_putIn (place : List Text) (entry : FileEntry) (entries : List (List Text × FileEntry)) :
    putIn place entry (putIn place entry entries) = putIn place entry entries := by
  induction entries with
  | nil => simp [putIn]
  | cons e rest ih => by_cases h : e.1 = place <;> simp [putIn, h, ih]

/-- Writing the same bytes a second time changes nothing. -/
theorem writeBytes_again {t t' : FileTree} {path : Text} {content : ByteArray} (h : t.writeBytes path content = .ok t') :
    t'.writeBytes path content = .ok t' := by
  have hk := keepsDirectories_writeBytes h
  obtain ⟨place, hl, hp, rfl⟩ := writeBytes_eq_ok_iff.1 h
  refine writeBytes_eq_ok_iff.2 ⟨place, hk.locateFile hl, ?_, ?_⟩
  · simp [lookup_put_of_ne_directory hp]
  · simp only [put, putIn_putIn]

theorem runOn_writeFile (path : Text) (content : ByteArray) (t : FileTree) :
    (writeFile path content).runOn t =
      match t.writeBytes path content with
      | .ok t' => (.ok (), t')
      | .error e => (.error e, t) := rfl

/-- A file can be put at a path: the directories above are there or can be made, and then the path leads to a place at which no
directory is. -/
def CanHoldFile (t : FileTree) (path : Text) : Prop :=
  ∃ t', (createParent path).runOn t = (.ok (), t') ∧ ∃ place, t'.locateFile path = .ok place ∧ t'.lookup place ≠ some .directory

end FileTree

end DevWorkflow
