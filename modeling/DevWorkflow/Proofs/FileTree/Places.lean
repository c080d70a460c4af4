import DevWorkflow.Proofs.FileTree.Writing
import DevWorkflow.Proofs.Text.Splitting

/-!
# Places of paths, and what a change leaves alone

The place to which a path leads, if it leads anywhere, can be read off its steps (`FileTree.placeOf`), and a name below a directory
has the place of the directory with the name behind it (`FileTree.placeOf_join`). So it can be said of a change which files it
concerns, whether the paths to them led anywhere before it or not: everywhere else stands what stood there, or a new directory
(`FileTree.ChangesOnly`).
-/

namespace DevWorkflow

namespace FilePath

/-! ## Steps -/

/-- Whether a text is a name below a directory: one step of a path, which goes neither up nor nowhere. -/
def IsName (name : Text) : Prop := name ≠ [] ∧ '/' ∉ name ∧ name ≠ ['.'] ∧ name ≠ "..".toList

instance (name : Text) : Decidable (IsName name) := inferInstanceAs (Decidable (_ ∧ _ ∧ _ ∧ _))

/-- The steps before a slash come before the steps after it. -/
theorem steps_append_cons (path rest : Text) : steps (path ++ '/' :: rest) = steps path ++ steps rest := by
  rw [steps, Text.splitAt_append_cons path (by decide), List.filter_append]
  rfl

/-- A piece without slashes is one step, unless it is empty. -/
theorem steps_of_not_mem {piece : Text} (hne : piece ≠ []) (hslash : '/' ∉ piece) : steps piece = [piece] := by
  have hpieces : Text.splitAt (· = '/') piece = [piece] := by
    refine Text.splitAt_of_forall fun c hc => decide_eq_false ?_
    rintro rfl
    exact hslash hc
  rw [steps, hpieces]
  simp [hne]

/-- A name is one step. -/
theorem IsName.steps {name : Text} (h : IsName name) : FilePath.steps name = [name] := steps_of_not_mem h.1 h.2.1

theorem IsName.isAbsolute {name : Text} (h : IsName name) : FilePath.isAbsolute name = false := by
  cases name with
  | nil => exact absurd rfl h.1
  | cons c rest =>
    have hc : c ≠ '/' := fun hc => h.2.1 (by simp [hc])
    simp [FilePath.isAbsolute, hc]

/-- The steps below a path come after those of the path. -/
theorem steps_join {name : Text} (h : isAbsolute name = false) (path : Text) :
    steps (join path name) = steps path ++ steps name := by
  rw [join, if_neg (by simp [h])]
  split
  · next hend =>
    rcases Bool.or_eq_true_iff.1 hend with hempty | hslash
    · obtain rfl := List.isEmpty_iff.1 hempty
      rfl
    · obtain ⟨above, rfl⟩ := List.getLast?_eq_some_iff.1 (of_decide_eq_true hslash)
      have hnone : steps [] = [] := rfl
      rw [List.append_assoc, List.singleton_append, steps_append_cons, steps_append_cons, hnone, List.append_nil]
  · rw [steps_append_cons]

theorem isAbsolute_join {name : Text} (h : isAbsolute name = false) (path : Text) :
    isAbsolute (join path name) = isAbsolute path := by
  rw [join, if_neg (by simp [h])]
  cases path with
  | nil => exact h
  | cons c rest => split <;> rfl

/-- The place to which steps lead from another place, whatever stands on the way. -/
def follow (place : List Text) : List Text → List Text
  | [] => place
  | part :: rest =>
    follow (if part = ['.'] then place else if part = "..".toList then place.dropLast else place ++ [part]) rest

/-- Further steps go on from the place to which the steps before them lead. -/
theorem follow_append (place parts more : List Text) : follow place (parts ++ more) = follow (follow place parts) more := by
  induction parts generalizing place with
  | nil => rfl
  | cons part rest ih => rw [List.cons_append, follow, follow, ih]

/-- Steps that do not go up lead down, all but the dots. -/
theorem follow_of_not_mem {steps : List Text} (h : "..".toList ∉ steps) (place : List Text) :
    follow place steps = place ++ steps.filter (· ≠ ['.']) := by
  induction steps generalizing place with
  | nil => simp [follow]
  | cons step rest ih =>
    obtain ⟨hup, hrest⟩ := not_or.1 (List.mem_cons.not.1 h)
    rw [follow, ih hrest, if_neg (Ne.symm hup)]
    by_cases hdot : step = ['.'] <;> simp [hdot]

/-- The parts of a path are its steps without the dots. -/
theorem parts_eq (path : Text) : parts path = (steps path).filter (· ≠ ['.']) := by
  rw [parts, steps, List.filter_filter]
  refine List.filter_congr fun part _ => ?_
  simp [isVoid, Bool.and_comm]

/-- The parts of a path below another one come after those of the other one. -/
theorem parts_join {name : Text} (h : isAbsolute name = false) (path : Text) :
    parts (join path name) = parts path ++ parts name := by
  rw [parts_eq, parts_eq, parts_eq, steps_join h, List.filter_append]

/-- A name is one part. -/
theorem IsName.parts {name : Text} (h : IsName name) : FilePath.parts name = [name] := by
  rw [parts_eq, h.steps]
  simp [h.2.2.1]

end FilePath

namespace FileTree

/-! ## Places -/

/-- The place to which a path leads if it leads anywhere. -/
def placeOf (t : FileTree) (path : Text) : List Text := FilePath.follow (t.origin path) (FilePath.steps path)

theorem follow_of_walk {t : FileTree} {parts start stop : List Text} (h : t.walk start parts = .ok stop) :
    FilePath.follow start parts = stop := by
  induction parts generalizing start with
  | nil => exact Except.ok.inj h
  | cons part rest ih =>
    rw [FileTree.walk] at h
    rw [FilePath.follow]
    cases hl : t.lookup start with
    | none => simp [hl] at h
    | some entry =>
      cases entry with
      | file content => simp [hl] at h
      | directory =>
        simp only [hl] at h
        split at h
        · simp at h
        · split at h
          · next hdot => rw [if_pos hdot, ih h]
          · next hdot =>
            split at h
            · next hup => rw [if_neg hdot, if_pos hup, ih h]
            · next hup => rw [if_neg hdot, if_neg hup, ih h]

/-- The system takes a path that is neither empty nor too long and has no NUL in it. -/
theorem steps_eq_ok_iff {path : Text} {parts : List Text} :
    steps path = .ok parts ↔
      (path.any fun c => c.toNat = 0) = false ∧ path ≠ [] ∧ (Text.encode path).size ≤ longestPath ∧
        FilePath.steps path = parts := by
  unfold steps
  cases hnul : path.any fun c => c.toNat = 0 with
  | true => simp
  | false =>
    cases path with
    | nil => simp
    | cons c rest =>
      by_cases hlong : longestPath < (Text.encode (c :: rest)).size
      · simp [hlong, Nat.not_le.2 hlong]
      · simp [hlong, Nat.not_lt.1 hlong]

/-- A path leads where its steps lead, if the system takes it. -/
theorem locate_eq_ok_iff {t : FileTree} {path : Text} {place : List Text} :
    t.locate path = .ok place ↔
      steps path = .ok (FilePath.steps path) ∧ t.walk (t.origin path) (FilePath.steps path) = .ok place := by
  unfold locate
  cases hs : steps path with
  | error e => simp
  | ok parts =>
    obtain rfl : FilePath.steps path = parts := (steps_eq_ok_iff.1 hs).2.2.2
    simp

/-- A path leads to its place. -/
theorem placeOf_of_locate {t : FileTree} {path : Text} {place : List Text} (h : t.locate path = .ok place) :
    t.placeOf path = place :=
  follow_of_walk (locate_eq_ok_iff.1 h).2

/-- The place of a path below another one, if it does not go up, is that of the other one with the parts of the path behind it. -/
theorem placeOf_join_of_relative {name : Text} (h : FilePath.isAbsolute name = false) (hup : "..".toList ∉ FilePath.steps name)
    (t : FileTree) (path : Text) : t.placeOf (FilePath.join path name) = t.placeOf path ++ FilePath.parts name := by
  rw [placeOf, origin, FilePath.isAbsolute_join h, FilePath.steps_join h, FilePath.follow_append,
    FilePath.follow_of_not_mem hup, FilePath.parts_eq]
  rfl

/-- The place of a name below a path is that of the path with the name behind it. -/
theorem placeOf_join {name : Text} (h : FilePath.IsName name) (t : FileTree) (path : Text) :
    t.placeOf (FilePath.join path name) = t.placeOf path ++ [name] := by
  have hup : "..".toList ∉ FilePath.steps name := by
    rw [h.steps]
    simpa using Ne.symm h.2.2.2
  rw [placeOf_join_of_relative h.isAbsolute hup, h.parts]

/-- Paths keep their places. -/
theorem KeepsDirectories.placeOf {t t' : FileTree} (h : KeepsDirectories t t') (path : Text) :
    t'.placeOf path = t.placeOf path := by
  rw [FileTree.placeOf, FileTree.placeOf, h.origin]

/-- The content of the file at a place. -/
def contentAt? (t : FileTree) (place : List Text) : Option ByteArray :=
  match t.lookup place with
  | some (.file content) => some content
  | _ => none

/-- What can be read at a path is the content of the file to which it leads. -/
theorem readBytes_eq_ok_iff {t : FileTree} {path : Text} {content : ByteArray} :
    t.readBytes path = .ok content ↔
      ∃ place, t.locateFile path = .ok place ∧ t.lookup place = some (.file content) := by
  unfold readBytes
  simp only [locateFile_eq_ok_iff]
  cases hl : t.locate path with
  | error e => simp
  | ok place =>
    cases hp : t.lookup place with
    | none => simp [hp]
    | some entry =>
      cases entry with
      | directory => simp [hp]
      | file c => cases hslash : endsWithSlash path <;> simp [hp]

theorem contentAt?_of_readBytes {t : FileTree} {path : Text} {content : ByteArray} (h : t.readBytes path = .ok content) :
    t.contentAt? (t.placeOf path) = some content := by
  obtain ⟨place, hl, hp⟩ := readBytes_eq_ok_iff.1 h
  rw [placeOf_of_locate (locateFile_eq_ok_iff.1 hl).2, contentAt?, hp]

/-- What can be read as a text are the bytes of the text. -/
theorem readText_eq_ok_iff {t : FileTree} {path text : Text} :
    t.readText path = .ok text ↔ t.readBytes path = .ok (Text.encode text) := by
  unfold readText
  cases hbytes : t.readBytes path with
  | error e => simp
  | ok content =>
    simp only [Except.ok.injEq]
    constructor
    · intro h
      cases hdecode : Text.decode? content with
      | none => simp [hdecode] at h
      | some read =>
        simp only [hdecode, Except.ok.injEq] at h
        rw [Text.eq_encode_of_decode? hdecode, h]
    · rintro rfl
      simp

/-- A path at which something can be read leads to something. -/
theorem pathExists_of_readBytes {t : FileTree} {path : Text} {content : ByteArray} (h : t.readBytes path = .ok content) :
    t.pathExists path = true := by
  obtain ⟨place, hl, hfile⟩ := readBytes_eq_ok_iff.1 h
  obtain ⟨hslash, hlocate⟩ := locateFile_eq_ok_iff.1 hl
  simp [pathExists, entryAt?, hlocate, hfile, hslash]

/-- Where a file could be put and a path leads to nothing, there is nothing. -/
theorem contentAt?_of_not_pathExists {t : FileTree} {path : Text} {place : List Text} (h : t.pathExists path = false)
    (hl : t.locateFile path = .ok place) : t.contentAt? place = none := by
  obtain ⟨hslash, hlocate⟩ := locateFile_eq_ok_iff.1 hl
  cases hp : t.lookup place with
  | none => rw [contentAt?, hp]
  | some entry => cases entry <;> simp [pathExists, entryAt?, hlocate, hp, hslash] at h

/-- Whether a place holds a text: the file there does, or there is no file and the text is empty. -/
def HoldsText (t : FileTree) (place : List Text) (text : Text) : Prop :=
  t.contentAt? place = some (Text.encode text) ∨ t.contentAt? place = none ∧ text = []

/-! ## Changes -/

/-- Only files at some places are changed: directories stay, and everywhere else stands what stood there or a new directory. -/
structure ChangesOnly (places : List (List Text)) (t t' : FileTree) : Prop where
  keeps : KeepsDirectories t t'
  elsewhere : ∀ place, place ∉ places →
    t'.lookup place = t.lookup place ∨ t.lookup place = none ∧ t'.lookup place = some .directory

namespace ChangesOnly

variable {places : List (List Text)} {t t' t'' : FileTree}

theorem refl (places : List (List Text)) (t : FileTree) : ChangesOnly places t t := ⟨.refl t, fun _ _ => .inl rfl⟩

theorem trans (h : ChangesOnly places t t') (h' : ChangesOnly places t' t'') : ChangesOnly places t t'' := by
  refine ⟨h.keeps.trans h'.keeps, fun place hp => ?_⟩
  rcases h.elsewhere place hp with hsame | ⟨hnone, hnew⟩
  · rw [← hsame]
    exact h'.elsewhere place hp
  · exact .inr ⟨hnone, h'.keeps.directory place hnew⟩

theorem mono {more : List (List Text)} (h : ChangesOnly places t t') (hsub : places ⊆ more) : ChangesOnly more t t' :=
  ⟨h.keeps, fun place hp => h.elsewhere place fun hmem => hp (hsub hmem)⟩

/-- The files elsewhere hold what they held, and there are no more of them. -/
theorem contentAt? (h : ChangesOnly places t t') {place : List Text} (hp : place ∉ places) :
    t'.contentAt? place = t.contentAt? place := by
  rcases h.elsewhere place hp with hsame | ⟨hnone, hnew⟩
  · rw [FileTree.contentAt?, FileTree.contentAt?, hsame]
  · rw [FileTree.contentAt?, FileTree.contentAt?, hnone, hnew]

/-- A file elsewhere is read as it was. -/
theorem readBytes (h : ChangesOnly places t t') {path : Text} {content : ByteArray} (hr : t.readBytes path = .ok content)
    (hp : t.placeOf path ∉ places) : t'.readBytes path = .ok content := by
  obtain ⟨place, hl, hfile⟩ := readBytes_eq_ok_iff.1 hr
  rw [placeOf_of_locate (locateFile_eq_ok_iff.1 hl).2] at hp
  refine readBytes_eq_ok_iff.2 ⟨place, h.keeps.locateFile hl, ?_⟩
  rcases h.elsewhere place hp with hsame | ⟨hnone, -⟩
  · rw [hsame, hfile]
  · rw [hnone] at hfile
    nomatch hfile

end ChangesOnly

theorem changesOnly_put {t : FileTree} {place : List Text} (h : t.lookup place ≠ some .directory) (entry : FileEntry) :
    ChangesOnly [place] t (t.put place entry) :=
  ⟨keepsDirectories_put h entry, fun _ hp => .inl (lookup_put_of_ne t (fun he => hp (by simp [he])) entry)⟩

/-- Writing a file changes no other one. -/
theorem changesOnly_writeBytes {t t' : FileTree} {path : Text} {content : ByteArray}
    (h : t.writeBytes path content = .ok t') : ChangesOnly [t.placeOf path] t t' := by
  obtain ⟨place, hl, hp, rfl⟩ := writeBytes_eq_ok_iff.1 h
  rw [placeOf_of_locate (locateFile_eq_ok_iff.1 hl).2]
  exact changesOnly_put hp _

/-- Making a directory changes no file. -/
theorem changesOnly_createDirectory {t t' : FileTree} {path : Text} (h : t.createDirectory path = .ok t') :
    ChangesOnly [] t t' := by
  obtain ⟨place, -, hp, rfl⟩ := createDirectory_eq_ok_iff.1 h
  refine ⟨keepsDirectories_put (by simp [hp]) .directory, fun other _ => ?_⟩
  by_cases ho : other = place
  · subst ho
    exact .inr ⟨hp, lookup_put_of_ne_directory (by simp [hp]) .directory⟩
  · exact .inl (lookup_put_of_ne t ho .directory)

theorem changesOnly_createDirectories {t t' : FileTree} {path : Text} {result : Except IoFault Unit}
    (h : (createDirectories path).runOn t = (result, t')) : ChangesOnly [] t t' := by
  rw [runOn_createDirectories] at h
  obtain ⟨-, rfl⟩ := Prod.mk.inj h
  exact createAlong_induction (.refl []) (fun h h' => h.trans h') changesOnly_createDirectory t _

theorem changesOnly_createParent {t t' : FileTree} {path : Text} {result : Except IoFault Unit}
    (h : (createParent path).runOn t = (result, t')) : ChangesOnly [] t t' := by
  unfold createParent at h
  cases hp : FilePath.parent? path with
  | none =>
    rw [hp] at h
    obtain ⟨-, rfl⟩ := Prod.mk.inj h
    exact .refl [] t
  | some above =>
    rw [hp] at h
    exact changesOnly_createDirectories h

/-- A file is there once it is written, whatever other files are changed afterwards. -/
theorem ChangesOnly.readBytes_written {places : List (List Text)} {t t' t'' : FileTree} {path : Text}
    {content : ByteArray} (h : ChangesOnly places t' t'') (hw : t.writeBytes path content = .ok t')
    (hp : t.placeOf path ∉ places) : t''.readBytes path = .ok content :=
  h.readBytes (readBytes_of_writeBytes hw) (by rwa [(keepsDirectories_writeBytes hw).placeOf])

/-- Putting at a place what stands there changes nothing. -/
theorem put_of_lookup {t : FileTree} {place : List Text} {entry : FileEntry} (hne : place ≠ [])
    (h : t.lookup place = some entry) : t.put place entry = t := by
  have hentries : ∀ entries : List (List Text × FileEntry),
      (entries.find? fun e => e.1 = place).map (·.2) = some entry → putIn place entry entries = entries := by
    intro entries he
    induction entries with
    | nil => simp at he
    | cons e rest ih =>
      by_cases hplace : e.1 = place
      · obtain ⟨p, other⟩ := e
        simp only at hplace
        subst hplace
        simp only [List.find?_cons, decide_true, Option.map_some, Option.some.injEq] at he
        simp [putIn, he]
      · simp only [List.find?_cons, hplace, decide_false] at he
        simp [putIn, hplace, ih he]
  rw [lookup, if_neg (by simpa using hne)] at h
  rw [put, hentries t.entries h]

/-- Writing what a file holds changes nothing. -/
theorem writeBytes_of_readBytes {t : FileTree} {path : Text} {content : ByteArray} (h : t.readBytes path = .ok content) :
    t.writeBytes path content = .ok t := by
  obtain ⟨place, hl, hfile⟩ := readBytes_eq_ok_iff.1 h
  have hne : place ≠ [] := by
    rintro rfl
    nomatch hfile
  exact writeBytes_eq_ok_iff.2 ⟨place, hl, by simp [hfile], (put_of_lookup hne hfile).symm⟩

end FileTree

end DevWorkflow
