import DevWorkflow.Proofs.FileTree.Places

/-!
# Paths and the directories above them

The steps of a path go on from those of its parent (`FilePath.exists_steps_of_parent?`), so that the parent of whatever a path leads
to is a directory (`FileTree.isDirectory_of_parent?`). Where a directory cannot be made, there is none afterwards, and so no file
below it: what cannot be written cannot be read either (`FileTree.readBytes_of_createParent_error`).
-/

namespace DevWorkflow

theorem Text.encode_append (t u : Text) : encode (t ++ u) = encode t ++ encode u := by
  simp [encode]

namespace FilePath

/-! ## The parent of a path -/

/-- Without the pieces at the end that lead nowhere, pieces are their beginning. -/
theorem exists_dropVoidEnd_append (pieces : List Text) :
    ∃ voids, pieces = dropVoidEnd pieces ++ voids ∧ ∀ v ∈ voids, isVoid v = true := by
  refine ⟨(pieces.reverse.takeWhile isVoid).reverse, ?_, ?_⟩
  · rw [dropVoidEnd, ← List.reverse_append, List.takeWhile_append_dropWhile, List.reverse_reverse]
  · intro v hv
    exact List.all_eq_true.1 List.all_takeWhile v (List.mem_reverse.1 hv)

/-- What is left at the end leads somewhere. -/
theorem isVoid_of_dropVoidEnd {pieces front : List Text} {last : Text} (h : dropVoidEnd pieces = front ++ [last]) :
    isVoid last = false := by
  have hhead := List.head?_dropWhile_not isVoid pieces.reverse
  have hdrop : pieces.reverse.dropWhile isVoid = last :: front.reverse := by
    rw [dropVoidEnd, List.reverse_eq_iff] at h
    rw [h]
    simp
  rw [hdrop] at hhead
  exact hhead

/-- The anchor of a path comes first. -/
theorem anchor_append (path : Text) : anchor path ++ path.drop (anchor path).length = path := by
  unfold anchor
  split <;> rfl

/-- The steps of what follows the anchor go on from those of the anchor. -/
theorem steps_anchor_append (path : Text) :
    steps path = steps (anchor path) ++ steps (path.drop (anchor path).length) := by
  have hnone : steps [] = [] := rfl
  unfold anchor
  split
  · next rest => exact steps_append_cons [] rest
  · rfl
  · next rest =>
    have hrest : steps ('/' :: rest) = steps rest := steps_append_cons [] rest
    show steps (['.'] ++ '/' :: rest) = steps ['.'] ++ steps ('/' :: rest)
    rw [steps_append_cons, hrest]
  · rfl

/-- Pieces that are put together make the steps of each of them. -/
theorem steps_join_pieces (pieces : List Text) : steps (Text.join ['/'] pieces) = pieces.flatMap steps := by
  induction pieces with
  | nil => rfl
  | cons piece rest ih =>
    cases rest with
    | nil => rw [Text.join_singleton, List.flatMap_singleton]
    | cons next rest =>
      rw [Text.join_cons_cons, List.append_assoc, List.singleton_append, steps_append_cons, ih]
      rfl

/-- A path that leads somewhere after its anchor has as its parent what stands before its last part. -/
theorem parent?_of_body {path last : Text} {front : List Text} (h : body path = front ++ [last]) :
    parent? path = some (anchor path ++ Text.join ['/'] (dropVoidEnd front)) := by
  unfold parent?
  rw [h]
  cases front with
  | nil => rfl
  | cons first rest =>
    simp only [List.cons_append]
    rw [← List.cons_append, List.dropLast_concat]

/-- The last part of a path is one step. -/
theorem steps_of_body {path last : Text} {front : List Text} (h : body path = front ++ [last]) : steps last = [last] := by
  have hvoid : isVoid last = false := isVoid_of_dropVoidEnd h
  obtain ⟨voids, hpieces, -⟩ := exists_dropVoidEnd_append (Text.splitAt (· = '/') (path.drop (anchor path).length))
  have hmem : last ∈ Text.splitAt (· = '/') (path.drop (anchor path).length) := by
    rw [hpieces, show dropVoidEnd (Text.splitAt (· = '/') (path.drop (anchor path).length)) = front ++ [last] from h]
    simp
  refine steps_of_not_mem ?_ fun hc => ?_
  · rintro rfl
    nomatch hvoid
  · simpa using Text.eq_false_of_mem_splitAt hmem '/' hc

/-- A path is its parent with a tail, and its steps are those of the parent with the last part behind them, up to pieces that lead
nowhere. -/
theorem exists_tail_of_body {path last : Text} {front : List Text} (h : body path = front ++ [last]) :
    ∃ tail between voids, (∀ v ∈ between ++ voids, isVoid v = true) ∧
      path = anchor path ++ Text.join ['/'] (dropVoidEnd front) ++ tail ∧
      steps path = steps (anchor path ++ Text.join ['/'] (dropVoidEnd front)) ++ (between ++ last :: voids).flatMap steps := by
  obtain ⟨voids, hpieces, hvoids⟩ := exists_dropVoidEnd_append (Text.splitAt (· = '/') (path.drop (anchor path).length))
  obtain ⟨between, hfront, hbetween⟩ := exists_dropVoidEnd_append front
  have hvoid : ∀ v ∈ between ++ voids, isVoid v = true := by
    intro v hv
    exact (List.mem_append.1 hv).elim (hbetween v) (hvoids v)
  -- The pieces after the anchor are those of the parent and others, among them the last part.
  let others := between ++ last :: voids
  have hsplit : Text.splitAt (· = '/') (path.drop (anchor path).length) = dropVoidEnd front ++ others := by
    rw [hpieces, show dropVoidEnd (Text.splitAt (· = '/') (path.drop (anchor path).length)) = front ++ [last] from h]
    calc
      front ++ [last] ++ voids = dropVoidEnd front ++ between ++ [last] ++ voids := by rw [← hfront]
      _ = dropVoidEnd front ++ others := by simp [others]
  have hrest := Text.join_splitAt '/' (path.drop (anchor path).length)
  rw [hsplit] at hrest
  by_cases hkept : dropVoidEnd front = []
  · rw [hkept, List.nil_append] at hrest
    rw [hkept, Text.join_nil, List.append_nil]
    refine ⟨_, between, voids, hvoid, (anchor_append path).symm, ?_⟩
    rw [steps_anchor_append, ← hrest, steps_join_pieces]
  · rw [Text.join_append ['/'] hkept (by simp [others])] at hrest
    have hpath : path = anchor path ++ Text.join ['/'] (dropVoidEnd front) ++ '/' :: Text.join ['/'] others :=
      calc
        path = anchor path ++ path.drop (anchor path).length := (anchor_append path).symm
        _ = _ := by
          rw [← hrest]
          simp only [List.append_assoc, List.singleton_append]
    refine ⟨_, between, voids, hvoid, hpath, ?_⟩
    rw [← steps_join_pieces, ← steps_append_cons, ← hpath]

/-- The parent of a path is its beginning, and the steps of the path go on from those of its parent. -/
theorem exists_steps_of_parent? {path above : Text} (h : parent? path = some above) (hne : above ≠ []) :
    ∃ tail more, path = above ++ tail ∧ more ≠ [] ∧ steps path = steps above ++ more := by
  rcases List.eq_nil_or_concat (body path) with hbody | ⟨front, last, hbody⟩
  · rw [parent?, hbody] at h
    simp only at h
    split at h
    · exact absurd (Option.some.inj h).symm hne
    · nomatch h
  rw [List.concat_eq_append] at hbody
  obtain rfl : anchor path ++ Text.join ['/'] (dropVoidEnd front) = above :=
    Option.some.inj ((parent?_of_body hbody).symm.trans h)
  obtain ⟨tail, between, voids, -, hpath, hsteps⟩ := exists_tail_of_body hbody
  refine ⟨tail, _, hpath, ?_, hsteps⟩
  simp [steps_of_body hbody]

end FilePath

namespace FileTree

/-! ## What is above what is there -/

/-- Some steps after others lead on from where those lead. -/
theorem walk_append (t : FileTree) (start : List Text) (parts more : List Text) :
    t.walk start (parts ++ more) = (t.walk start parts).bind fun place => t.walk place more := by
  induction parts generalizing start with
  | nil => rfl
  | cons part rest ih =>
    rw [List.cons_append, walk, walk]
    cases t.lookup start with
    | none => rfl
    | some entry =>
      cases entry with
      | file content => rfl
      | directory =>
        simp only
        split
        · rfl
        · split
          · exact ih start
          · split
            · exact ih start.dropLast
            · exact ih (start ++ [part])

/-- What steps lead on from is a directory. -/
theorem lookup_of_walk {t : FileTree} {start stop : List Text} {parts : List Text} (hne : parts ≠ [])
    (h : t.walk start parts = .ok stop) : t.lookup start = some .directory := by
  obtain ⟨part, rest, rfl⟩ := List.exists_cons_of_ne_nil hne
  rw [walk] at h
  cases hl : t.lookup start with
  | none => simp [hl] at h
  | some entry =>
    cases entry with
    | file content => simp [hl] at h
    | directory => rfl

/-- The parent of a path that leads somewhere is a directory. -/
theorem isDirectory_of_parent? {t : FileTree} {path above : Text} {place : List Text}
    (h : FilePath.parent? path = some above) (hne : above ≠ []) (hl : t.locate path = .ok place) :
    t.isDirectory above = true := by
  obtain ⟨tail, more, hpath, hmore, hsteps⟩ := FilePath.exists_steps_of_parent? h hne
  obtain ⟨htaken, hwalk⟩ := locate_eq_ok_iff.1 hl
  obtain ⟨hnul, -, hlong, -⟩ := steps_eq_ok_iff.1 htaken
  have htaken' : steps above = .ok (FilePath.steps above) := by
    rw [hpath, List.any_append, Bool.or_eq_false_iff] at hnul
    rw [hpath, Text.encode_append, ByteArray.size_append] at hlong
    exact steps_eq_ok_iff.2 ⟨hnul.1, hne, by omega, rfl⟩
  have horigin : t.origin path = t.origin above := by
    obtain ⟨first, rest, rfl⟩ := List.exists_cons_of_ne_nil hne
    rw [origin, origin, hpath]
    rfl
  rw [hsteps, walk_append, horigin] at hwalk
  cases habove : t.walk (t.origin above) (FilePath.steps above) with
  | error e =>
    simp [habove, Except.bind] at hwalk
  | ok stop =>
    rw [habove] at hwalk
    exact isDirectory_iff.2 ⟨stop, locate_eq_ok_iff.2 ⟨htaken', habove⟩, lookup_of_walk hmore hwalk⟩

/-- The directory above what is there is there, so that making it changes nothing. -/
theorem runOn_createParent_of_locate {t : FileTree} {path : Text} {place : List Text} (hl : t.locate path = .ok place) :
    (createParent path).runOn t = (.ok (), t) := by
  unfold createParent
  cases hparent : FilePath.parent? path with
  | none => rfl
  | some above =>
    simp only [runOn_createDirectories]
    cases above with
    | nil => rfl
    | cons c rest =>
      rw [ancestors, ancestorsUpTo, if_neg (by simp), createAlong_of_isDirectory (isDirectory_of_parent? hparent (by simp) hl)]

/-! ## What cannot be made -/

/-- Where making a directory and those above it fails, there is no directory. -/
theorem isDirectory_of_createAlong_error {t t' : FileTree} {path : Text} {n : Nat} {e : IoFault}
    (h : t.createAlong (ancestorsUpTo n path) = (t', .error e)) : path ≠ [] ∧ t'.isDirectory path = false := by
  induction n generalizing path t' e with
  | zero => cases (Prod.mk.inj h).2
  | succ n ih =>
    rw [ancestorsUpTo] at h
    split at h
    · cases (Prod.mk.inj h).2
    · next hne =>
      refine ⟨by simpa using hne, ?_⟩
      rw [createAlong] at h
      split at h
      · cases (Prod.mk.inj h).2
      · split at h
        · next t₁ e₁ habove =>
          -- Those above cannot be made, so that the path leads nowhere.
          obtain ⟨rfl, -⟩ := Prod.mk.inj h
          cases hparent : FilePath.parent? path with
          | none =>
            rw [hparent] at habove
            cases (Prod.mk.inj habove).2
          | some above =>
            rw [hparent] at habove
            obtain ⟨hne', hnot⟩ := ih habove
            refine Bool.eq_false_iff.2 fun hdirectory => ?_
            obtain ⟨place, hl, -⟩ := isDirectory_iff.1 hdirectory
            exact Bool.false_ne_true (hnot.symm.trans (isDirectory_of_parent? hparent hne' hl))
        · next t₁ habove =>
          split at h
          · cases (Prod.mk.inj h).2
          · obtain ⟨rfl, hresult⟩ := Prod.mk.inj h
            cases hdirectory : t₁.isDirectory path with
            | true => simp [hdirectory] at hresult
            | false => rfl
      · obtain ⟨rfl, hresult⟩ := Prod.mk.inj h
        cases hdirectory : t.isDirectory path with
        | true => simp [hdirectory] at hresult
        | false => rfl

/-- Where the directory for a file cannot be made, no file can be read. -/
theorem readBytes_of_createParent_error {t t' : FileTree} {path : Text} {e : IoFault}
    (h : (createParent path).runOn t = (.error e, t')) (content : ByteArray) : t'.readBytes path ≠ .ok content := by
  intro hread
  obtain ⟨place, hl, -⟩ := readBytes_eq_ok_iff.1 hread
  unfold createParent at h
  cases hparent : FilePath.parent? path with
  | none =>
    rw [hparent] at h
    nomatch (Prod.mk.inj h).1
  | some above =>
    rw [hparent] at h
    simp only at h
    rw [runOn_createDirectories, ancestors] at h
    obtain ⟨hresult, rfl⟩ := Prod.mk.inj h
    obtain ⟨hne, hnot⟩ := isDirectory_of_createAlong_error (Prod.ext rfl hresult)
    exact Bool.false_ne_true (hnot.symm.trans (isDirectory_of_parent? hparent hne (locateFile_eq_ok_iff.1 hl).2))

/-- Where no file can be written, none can be read. -/
theorem readBytes_of_writeBytes_error {t : FileTree} {path : Text} {content : ByteArray} {e : IoFault}
    (h : t.writeBytes path content = .error e) (content' : ByteArray) : t.readBytes path ≠ .ok content' := by
  intro hread
  obtain ⟨place, hl, hfile⟩ := readBytes_eq_ok_iff.1 hread
  have hwrite : t.writeBytes path content = .ok (t.put place (.file content)) :=
    writeBytes_eq_ok_iff.2 ⟨place, hl, by simp [hfile], rfl⟩
  nomatch h.symm.trans hwrite

end FileTree

end DevWorkflow
