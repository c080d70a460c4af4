import DevWorkflow.Proofs.Completion.Install.Hook
import DevWorkflow.Proofs.FileTree.Rooted
import DevWorkflow.Proofs.FileTree.Siblings
import DevWorkflow.Run.TimeStamp

/-!
# Start-up files and their backups

The start-up files of all shells, their backups and the scripts stand in places of their own. So it can be said of each of them what
backing up and adding the hook do to it: if the hook is added to a file that was found, then the backup beside the file holds what the
file held (`Install.Added`).
-/

namespace DevWorkflow

/-- There are no slashes in a date and time. -/
theorem ClockTime.not_mem_render (c : ClockTime) : '/' ∉ c.render := by
  have hpadded : ∀ width n, '/' ∉ ClockTime.padded width n := by
    intro width n hmem
    unfold ClockTime.padded at hmem
    rcases List.mem_append.1 hmem with hzero | hdigit
    · exact absurd (List.eq_of_mem_replicate hzero) (by decide)
    · exact absurd (Nat.isDigit_of_mem_toDigits (by decide) (by decide) hdigit) (by decide)
  simp [ClockTime.render, hpadded]

namespace FileTree

/-- A path goes on leading to something at whose place nothing is changed. -/
theorem ChangesOnly.pathExists {places : List (List Text)} {t t' : FileTree} (h : ChangesOnly places t t') {path : Text}
    (hp : t.placeOf path ∉ places) (hexists : t.pathExists path = true) : t'.pathExists path = true := by
  unfold FileTree.pathExists entryAt? at hexists ⊢
  cases hl : t.locate path with
  | error e => simp [hl] at hexists
  | ok place =>
    rw [placeOf_of_locate hl] at hp
    rw [h.keeps.locate hl]
    rcases h.elsewhere place hp with hsame | ⟨hnone, -⟩
    · rw [hl] at hexists
      simpa only [hsame] using hexists
    · simp [hl, hnone] at hexists

end FileTree

namespace Install

open FileTree

/-! ## Places -/

/-- The place of a shell's start-up file. -/
def startupPlace (t : FileTree) (home : Text) (shell : Shell) : List Text := t.placeOf (startupFile home shell)

/-- The place of a backup: beside the start-up file. -/
def backupPlace (t : FileTree) (home timeStamp : Text) (shell : Shell) : List Text :=
  (startupPlace t home shell).dropLast ++ [backupName (startupName shell) timeStamp]

theorem isName_startupName (shell : Shell) : FilePath.IsName (startupName shell) := by cases shell <;> decide

/-- The names of start-up files are shorter than what is put behind them for a backup. -/
theorem length_startupName (shell : Shell) : (startupName shell).length < 13 := by
  cases shell <;> decide

theorem length_backupName (name timeStamp : Text) : (backupName name timeStamp).length = name.length + 13 + timeStamp.length := by
  have hmiddle : ".devx-backup-".toList.length = 13 := by decide
  rw [backupName, List.length_append, List.length_append, hmiddle]

/-- A start-up file has its name. -/
theorem fileName?_startupFile (home : Text) (shell : Shell) :
    FilePath.fileName? (startupFile home shell) = some (startupName shell) := by
  cases shell <;> exact FilePath.fileName?_join (by decide) _

/-- What a backup is called is a name. -/
theorem isName_backupName {timeStamp : Text} (h : '/' ∉ timeStamp) (shell : Shell) :
    FilePath.IsName (backupName (startupName shell) timeStamp) := by
  have hslash : '/' ∉ backupName (startupName shell) timeStamp := by
    have hname := (isName_startupName shell).2.1
    simp [backupName, h, hname]
  have hlong : 2 < (backupName (startupName shell) timeStamp).length := by
    rw [length_backupName]
    omega
  refine ⟨?_, hslash, ?_, ?_⟩
  all_goals
    intro heq
    rw [heq] at hlong
    exact absurd hlong (by decide)

/-- The path of a backup leads to its place. -/
theorem placeOf_withFileName_startupFile {timeStamp : Text} (h : '/' ∉ timeStamp) (t : FileTree) (home : Text) (shell : Shell) :
    t.placeOf (FilePath.withFileName (startupFile home shell) (backupName (startupName shell) timeStamp)) =
      backupPlace t home timeStamp shell := by
  obtain ⟨folder, hstartup, hbackup⟩ :=
    exists_placeOf_withFileName (fileName?_startupFile home shell) (isName_backupName h shell) t
  rw [hbackup, backupPlace, startupPlace, hstartup, List.dropLast_concat]

/-- The start-up files of different shells stand in different places. -/
theorem startupPlace_injective {t : FileTree} {home : Text} {shell other : Shell}
    (h : startupPlace t home shell = startupPlace t home other) : shell = other := by
  obtain ⟨folder, hshell⟩ := exists_placeOf_startupFile t home shell
  obtain ⟨folder', hother⟩ := exists_placeOf_startupFile t home other
  rw [startupPlace, startupPlace, hshell, hother] at h
  obtain ⟨-, hname⟩ := List.append_inj' h rfl
  have hinjective : ∀ shell other, startupName shell = startupName other → shell = other := by
    intro shell other
    cases shell <;> cases other <;> decide
  exact hinjective shell other (List.singleton_inj.1 hname)

/-- A backup stands in another place than any start-up file. -/
theorem startupPlace_ne_backupPlace (t : FileTree) (home timeStamp : Text) (shell other : Shell) :
    startupPlace t home shell ≠ backupPlace t home timeStamp other := by
  intro h
  obtain ⟨folder, hplace⟩ := exists_placeOf_startupFile t home shell
  rw [backupPlace, startupPlace, hplace] at h
  obtain ⟨-, hname⟩ := List.append_inj' h rfl
  have hlength := congrArg List.length (List.singleton_inj.1 hname)
  rw [length_backupName] at hlength
  have hshort := length_startupName shell
  omega

/-- No script stands in the place of a start-up file. -/
theorem startupPlace_not_mem (t t₁ : FileTree) (home : Text) (shell : Shell) (directory : Text) (tree : CommandTree) :
    startupPlace t home shell ∉ placesIn t₁ directory (scriptFiles tree) :=
  placeOf_startupFile_not_mem t t₁ home shell directory tree

/-- No script stands in the place of a backup. -/
theorem backupPlace_not_mem (t t₁ : FileTree) (home timeStamp : Text) (shell : Shell) (directory : Text) (tree : CommandTree) :
    backupPlace t home timeStamp shell ∉ placesIn t₁ directory (scriptFiles tree) :=
  not_mem_placesIn_scriptFiles (backupName_not_mem shell timeStamp) t₁ directory tree _

/-- A start-up file is none of the scripts and no backup. -/
theorem startupPlace_not_mem_backup (t : FileTree) (home timeStamp : Text) (shell other : Shell) (directory : Text)
    (tree : CommandTree) :
    startupPlace t home shell ∉ placesIn t directory (scriptFiles tree) ++ [backupPlace t home timeStamp other] := by
  intro hmem
  rcases List.mem_append.1 hmem with hscript | hbackup
  · exact startupPlace_not_mem t t home shell directory tree hscript
  · exact startupPlace_ne_backupPlace t home timeStamp shell other (List.mem_singleton.1 hbackup)

/-- A start-up file is none of the scripts, nor that of another shell, nor its backup. -/
theorem startupPlace_not_mem_of_ne {shell other : Shell} (h : shell ≠ other) (t : FileTree) (home timeStamp directory : Text)
    (tree : CommandTree) :
    startupPlace t home shell ∉
      placesIn t directory (scriptFiles tree) ++ [startupPlace t home other, backupPlace t home timeStamp other] := by
  intro hmem
  rcases List.mem_append.1 hmem with hscript | hother
  · exact startupPlace_not_mem t t home shell directory tree hscript
  · rcases List.mem_cons.1 hother with hstartup | hbackup
    · exact h (startupPlace_injective hstartup)
    · exact startupPlace_ne_backupPlace t home timeStamp shell other (List.mem_singleton.1 hbackup)

/-- Places are the same as long as directories stay. -/
theorem startupPlace_of_keepsDirectories {t t' : FileTree} (h : KeepsDirectories t t') (home : Text) (shell : Shell) :
    startupPlace t' home shell = startupPlace t home shell := h.placeOf _

theorem backupPlace_of_keepsDirectories {t t' : FileTree} (h : KeepsDirectories t t') (home timeStamp : Text) (shell : Shell) :
    backupPlace t' home timeStamp shell = backupPlace t home timeStamp shell := by
  rw [backupPlace, backupPlace, startupPlace_of_keepsDirectories h]

/-! ## What is done to them -/

/-- Whether from one tree to another the hook is added to a shell's start-up file, which held a text: the block stands behind the
text, the backup beside the file holds the text if the file was found before, and nothing else is changed. -/
structure Added (home timeStamp directory : Text) (shell : Shell) (text : Text) (t t' : FileTree) : Prop where
  held : t.HoldsText (startupPlace t home shell) text
  holds : t'.readBytes (startupFile home shell) = .ok (Text.encode (text ++ hookBlock directory shell))
  backup : t'.contentAt? (backupPlace t home timeStamp shell) =
    if t.pathExists (startupFile home shell) then some (Text.encode text) else t.contentAt? (backupPlace t home timeStamp shell)
  only : ChangesOnly [startupPlace t home shell, backupPlace t home timeStamp shell] t t'

section

variable {t t₁ t' : FileTree} {home timeStamp directory : Text} {shell : Shell} (hstamp : '/' ∉ timeStamp)
include hstamp

/-- Backing up a start-up file changes the backup at most. If it succeeds and the file is found, then the backup holds what the file
holds, and if the file is not found nothing is done. -/
theorem backUp_startupFile {result : Except Fault (Option Text)}
    (h : (backUp (startupFile home shell) timeStamp).runOn t = (result, t')) :
    ChangesOnly [backupPlace t home timeStamp shell] t t' ∧
      (t.pathExists (startupFile home shell) = false → t' = t) ∧
      ∀ backup, result = .ok backup → t.pathExists (startupFile home shell) = true →
        ∃ content, t.contentAt? (startupPlace t home shell) = some content ∧
          t'.contentAt? (backupPlace t home timeStamp shell) = some content := by
  rcases backUp_cases h with ⟨rfl, ⟨fault, hfailed⟩ | ⟨-, hnot⟩⟩ | ⟨name, content, hname, -, hexists, hread, hwrite⟩
  · refine ⟨.refl _ t', fun _ => rfl, fun backup hok => ?_⟩
    nomatch hfailed.symm.trans hok
  · refine ⟨.refl _ t', fun _ => rfl, fun backup _ hexists => ?_⟩
    nomatch hnot.symm.trans hexists
  · obtain rfl : startupName shell = name := Option.some.inj ((fileName?_startupFile home shell).symm.trans hname)
    have honly := changesOnly_writeBytes hwrite
    have hbackup := contentAt?_of_readBytes (readBytes_of_writeBytes hwrite)
    rw [honly.keeps.placeOf, placeOf_withFileName_startupFile hstamp] at hbackup
    rw [placeOf_withFileName_startupFile hstamp] at honly
    refine ⟨honly, fun hnot => ?_, fun _ _ _ => ⟨content, contentAt?_of_readBytes hread, hbackup⟩⟩
    nomatch hnot.symm.trans hexists

/-- If a start-up file is backed up and the block is written, then the hook is added. -/
theorem exists_added {backup : Option Text} (hback : (backUp (startupFile home shell) timeStamp).runOn t = (.ok backup, t₁))
    (hadd : (addHook (startupFile home shell) directory shell).runOn t₁ = (.ok (), t')) :
    ∃ text, Added home timeStamp directory shell text t t' := by
  let startup := startupPlace t home shell
  let beside := backupPlace t home timeStamp shell
  have hne : startup ≠ beside := startupPlace_ne_backupPlace t home timeStamp shell shell
  obtain ⟨honly, hnothing, hcopied⟩ := backUp_startupFile hstamp hback
  obtain ⟨t₂, hmade, ⟨⟨e, he⟩, -⟩ | ⟨-, text, hholds, hwrite⟩⟩ := addHook_cases hadd
  · cases he
  have hwritten : ChangesOnly [startup] t₂ t' := by
    have hfile := changesOnly_writeBytes hwrite
    rwa [hmade.keeps.placeOf, honly.keeps.placeOf] at hfile
  have hkept : t₁.contentAt? startup = t.contentAt? startup := honly.contentAt? (by simpa using hne)
  -- The backup is not changed after it was made.
  have hbeside : t'.contentAt? beside = t₁.contentAt? beside :=
    (hwritten.contentAt? (by simpa using hne.symm)).trans (hmade.contentAt? List.not_mem_nil)
  rw [HoldsText, honly.keeps.placeOf] at hholds
  replace hholds : t.HoldsText startup text := by rwa [HoldsText, ← hkept]
  have hall : ChangesOnly [startup, beside] t t' :=
    ((honly.mono (List.subset_cons_self _ _)).trans (hmade.mono (List.nil_subset _))).trans (hwritten.mono (by simp [startup]))
  refine ⟨text, hholds, readBytes_of_writeBytes hwrite, ?_, hall⟩
  rw [hbeside]
  split
  · next hexists =>
    obtain ⟨content, hcontent, hcopy⟩ := hcopied backup rfl hexists
    rcases hholds with hsome | ⟨hnone, -⟩
    · rw [hcopy, ← hcontent, hsome]
    · cases hnone.symm.trans hcontent
  · next hnot => rw [hnothing (by simpa using hnot)]

end

/-- Where the hook cannot be added no file is changed. -/
theorem changesOnly_of_addHook_error {t t' : FileTree} {path directory : Text} {shell : Shell} {e : IoFault}
    (h : (addHook path directory shell).runOn t = (.error e, t')) : ChangesOnly [] t t' := by
  obtain ⟨t₁, honly, ⟨-, rfl⟩ | ⟨hok, -⟩⟩ := addHook_cases h
  · exact honly
  · nomatch hok

/-- What is done to a start-up file after the scripts were written can be said of the tree before them: they stand elsewhere. -/
theorem Added.after_scripts {home timeStamp directory text : Text} {shell : Shell} {tree : CommandTree} {t t₁ t' : FileTree}
    (hscripts : ChangesOnly (placesIn t directory (scriptFiles tree)) t t₁)
    (h : Added home timeStamp directory shell text t₁ t') :
    t.HoldsText (startupPlace t home shell) text ∧
      t'.contentAt? (startupPlace t home shell) = some (Text.encode (text ++ hookBlock directory shell)) ∧
      t'.contentAt? (backupPlace t home timeStamp shell) =
        (if t₁.pathExists (startupFile home shell) then some (Text.encode text)
        else t.contentAt? (backupPlace t home timeStamp shell)) ∧
      ChangesOnly (placesIn t directory (scriptFiles tree) ++ [startupPlace t home shell, backupPlace t home timeStamp shell]) t t' := by
  obtain ⟨hheld, hholds, hbackup, honly⟩ := h
  have hcontent := contentAt?_of_readBytes hholds
  rw [honly.keeps.placeOf, hscripts.keeps.placeOf] at hcontent
  rw [startupPlace_of_keepsDirectories hscripts.keeps, HoldsText,
    hscripts.contentAt? (startupPlace_not_mem t t home shell directory tree)] at hheld
  rw [backupPlace_of_keepsDirectories hscripts.keeps,
    hscripts.contentAt? (backupPlace_not_mem t t home timeStamp shell directory tree)] at hbackup
  rw [startupPlace_of_keepsDirectories hscripts.keeps, backupPlace_of_keepsDirectories hscripts.keeps] at honly
  refine ⟨hheld, hcontent, hbackup, ?_⟩
  exact (hscripts.mono (List.subset_append_left _ _)).trans (honly.mono (List.subset_append_right _ _))

/-- There is no step up to a start-up file but on the way to the home directory. -/
theorem not_mem_steps_startupFile {home : Text} (h : "..".toList ∉ FilePath.steps home) (shell : Shell) :
    "..".toList ∉ FilePath.steps (startupFile home shell) := by
  have hbelow : ∀ path name : Text, FilePath.isAbsolute name = false → "..".toList ∉ FilePath.steps path →
      "..".toList ∉ FilePath.steps name → "..".toList ∉ FilePath.steps (FilePath.join path name) := by
    intro path name hname hpath hup hmem
    rw [FilePath.steps_join hname] at hmem
    exact (List.mem_append.1 hmem).elim hpath hup
  cases shell with
  | bash => exact hbelow _ _ rfl h (by decide)
  | zsh => exact hbelow _ _ rfl h (by decide)
  | fish =>
    have hconfig := hbelow home ".config".toList rfl h (by decide)
    exact hbelow _ _ rfl (hbelow _ _ rfl hconfig (by decide)) (by decide)

/-- In a rooted tree, if there is no step up to the home directory, a start-up file that is there is found before the hook is added. -/
theorem Added.pathExists_of_isRooted {home timeStamp directory text : Text} {shell : Shell} {t t₁ t' : FileTree}
    {places : List (List Text)} {old : ByteArray} (h : Added home timeStamp directory shell text t₁ t')
    (honly : ChangesOnly places t t₁) (hplace : startupPlace t home shell ∉ places)
    (hold : t.contentAt? (startupPlace t home shell) = some old) (hrooted : t.IsRooted)
    (hup : "..".toList ∉ FilePath.steps home) : t₁.pathExists (startupFile home shell) = true := by
  by_contra hnot
  have hbefore : t.pathExists (startupFile home shell) = false := by
    rw [Bool.eq_false_iff]
    exact fun hexists => hnot (honly.pathExists hplace hexists)
  have hkeeps := honly.keeps.trans h.only.keeps
  obtain ⟨place, hl, hfile⟩ := readBytes_eq_ok_iff.1 h.holds
  obtain rfl : startupPlace t home shell = place := by
    rw [startupPlace, ← hkeeps.placeOf]
    exact placeOf_of_locate (locateFile_eq_ok_iff.1 hl).2
  have hnone := hrooted.lookup_of_not_pathExists hkeeps hbefore (not_mem_steps_startupFile hup shell) hl (by simp [hfile])
  rw [contentAt?, hnone] at hold
  cases hold

end Install

end DevWorkflow
