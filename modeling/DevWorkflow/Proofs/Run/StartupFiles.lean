import DevWorkflow.Proofs.Completion.Install.Backups
import DevWorkflow.Proofs.FileTree.Rooted
import DevWorkflow.Proofs.Run.Init

/-!
# What a run leaves of the start-up files

A run that installs the completions changes no start-up file unless it ends well, and then that of one shell at most, to which it
adds the hook (`Run.exists_added_of_changed`). Nothing else is changed but the scripts and the backup of this file
(`Run.changesOnly_run`). What the file held is in the backup, if the file was found before the directories above it were made
(`Run.startupFiles_kept`). In a rooted tree it is found, unless the home directory is a way up out of a directory that is not there;
then the block is written without a backup (`Run.startupFile_without_backup`).
-/

namespace DevWorkflow

namespace Run

open WorldAction FileTree Install

/-- How finding out the shell ends does not depend on the world. -/
theorem detectShell_fst (s : Session) (w w' : World) : ((detectShell s).runOn w).1 = ((detectShell s).runOn w').1 := by
  unfold detectShell
  split
  · rfl
  · split
    · rfl
    · rw [runOn_printLine_bind, runOn_printLine_bind]
      split
      · rfl
      · split <;> rfl

/-- A run turns to one shell only. -/
theorem TurnsTo.unique {s : Session} {asked : Option Shell} {shell other : Shell} (h : TurnsTo s asked shell)
    (h' : TurnsTo s asked other) : shell = other := by
  rcases h with rfl | ⟨rfl, w, w₁, hdetect⟩
  · exact h'.eq_of_asked.symm
  · rcases h' with hsome | ⟨-, w', w₁', hdetect'⟩
    · nomatch hsome
    · have hsame := detectShell_fst s w w'
      rw [hdetect, hdetect'] at hsame
      exact Except.ok.inj hsame

section

variable {home directory timeStamp : Text} {shell : Shell} {t t' : FileTree} {result : Except Fault Unit}

/-- Hooking changes the backup at most, or it succeeds and the hook is added. -/
theorem HookCourse.changesOnly_or_added (hstamp : '/' ∉ timeStamp)
    (h : HookCourse (startupFile home shell) directory timeStamp shell t result t') :
    ChangesOnly [backupPlace t home timeStamp shell] t t' ∨
      result = .ok () ∧ ∃ text, Added home timeStamp directory shell text t t' := by
  cases h with
  | unread hlook => exact .inl (.refl _ t)
  | found hlook => exact .inl (.refl _ t)
  | notBackedUp hlook hback => exact .inl (backUp_startupFile hstamp hback).1
  | notAdded hlook hback hadd =>
    have honly := (backUp_startupFile hstamp hback).1
    exact .inl (honly.trans ((changesOnly_of_addHook_error hadd).mono (List.nil_subset _)))
  | added hlook hback hadd => exact .inr ⟨rfl, exists_added hstamp hback hadd⟩

end

/-- Installing changes the scripts and the backup of one shell's start-up file at most, and the backup only if the run is to hook the
scripts in and turns to this shell; or it succeeds and, after the scripts were written, the hook is added. -/
theorem InitCourse.changesOnly_or_added {s : Session} {dir : Option Text} {asked : Option Shell} {noRc : Bool} {t t' : FileTree}
    {result : Except Fault Unit} (hstamp : '/' ∉ s.timeStamp) (h : InitCourse s dir asked noRc t result t') :
    let directory := dir.getD s.completionsDirectory
    let scripts := placesIn t directory (scriptFiles declaredTree)
    let written := ((writeScripts directory declaredTree).runOn t).2
    ChangesOnly scripts t t' ∨
      ∃ shell, noRc = false ∧ TurnsTo s asked shell ∧
        (ChangesOnly (scripts ++ [backupPlace t s.home s.timeStamp shell]) t t' ∨
          result = .ok () ∧ ∃ text, Added s.home s.timeStamp directory shell text written t') := by
  intro directory scripts written
  cases h with
  | notWritten hwrite => exact .inl (changesOnly_writeScripts hwrite)
  | scriptsOnly hwrite hno => exact .inl (changesOnly_writeScripts hwrite)
  | shellUnknown hwrite hno => exact .inl (changesOnly_writeScripts hwrite)
  | @hooked paths shell result t₁ t' hwrite hno hturns hhook =>
    have honly := changesOnly_writeScripts hwrite
    have hwritten : written = t₁ := congrArg Prod.snd hwrite
    refine .inr ⟨shell, hno, hturns, ?_⟩
    rcases hhook.changesOnly_or_added hstamp with hbackup | hadded
    · rw [backupPlace_of_keepsDirectories honly.keeps] at hbackup
      exact .inl ((honly.mono (List.subset_append_left _ _)).trans (hbackup.mono (List.subset_append_right _ _)))
    · rw [hwritten]
      exact .inr hadded

section

variable {s : Session} {argv : List Text} {verbose noRc : Bool} {dir : Option Text} {asked : Option Shell} {w : World}
  (hparse : Invocation.parse argv = .ok ⟨verbose, .init dir asked noRc⟩) (hstamp : '/' ∉ s.timeStamp)
include hparse hstamp

/-- A run that does not end well leaves every start-up file as it is. -/
theorem contentAt?_of_not_done (hnot : (run s argv w).1 ≠ .done) (shell : Shell) :
    (run s argv w).2.files.contentAt? (startupPlace w.files s.home shell) =
      w.files.contentAt? (startupPlace w.files s.home shell) := by
  obtain ⟨result, hcourse, hends⟩ := exists_initCourse hparse s w
  rcases hcourse.changesOnly_or_added hstamp with honly | ⟨other, -, -, honly | ⟨hok, -⟩⟩
  · exact honly.contentAt? (startupPlace_not_mem w.files w.files s.home shell _ _)
  · exact honly.contentAt? (startupPlace_not_mem_backup w.files s.home s.timeStamp shell other _ _)
  · exact absurd (hends.2 hok) hnot

/-- If a run changes a start-up file that was there, then it is to hook the scripts in and turns to the shell, and the hook is added
after the scripts were written. -/
theorem exists_added_of_changed {shell : Shell} {old : ByteArray}
    (hold : w.files.contentAt? (startupPlace w.files s.home shell) = some old)
    (hnew : (run s argv w).2.files.contentAt? (startupPlace w.files s.home shell) ≠ some old) :
    let directory := dir.getD s.completionsDirectory
    noRc = false ∧ TurnsTo s asked shell ∧ ∃ text, old = Text.encode text ∧
      Added s.home s.timeStamp directory shell text ((writeScripts directory declaredTree).runOn w.files).2
        (run s argv w).2.files := by
  intro directory
  obtain ⟨result, hcourse, -⟩ := exists_initCourse hparse s w
  rcases hcourse.changesOnly_or_added hstamp with honly | ⟨other, hno, hturns, honly | ⟨-, text, hadded⟩⟩
  · exact absurd ((honly.contentAt? (startupPlace_not_mem w.files w.files s.home shell _ _)).trans hold) hnew
  · exact absurd ((honly.contentAt? (startupPlace_not_mem_backup w.files s.home s.timeStamp shell other _ _)).trans hold) hnew
  · obtain ⟨hheld, -, -, honly⟩ := hadded.after_scripts (changesOnly_written _ _ _)
    -- Only the one start-up file is changed.
    obtain rfl : shell = other := by
      by_contra hne
      exact hnew ((honly.contentAt? (startupPlace_not_mem_of_ne hne w.files s.home s.timeStamp directory _)).trans hold)
    refine ⟨hno, hturns, text, ?_, hadded⟩
    rcases hheld with hsome | ⟨hnone, -⟩
    · exact Option.some.inj (hold.symm.trans hsome)
    · nomatch hold.symm.trans hnone

/-- A run changes the scripts at most, or the start-up file of the shell to which it turns and its backup too, if it is to hook the
scripts in. -/
theorem changesOnly_run :
    let directory := dir.getD s.completionsDirectory
    let scripts := placesIn w.files directory (scriptFiles declaredTree)
    ChangesOnly scripts w.files (run s argv w).2.files ∨
      ∃ shell, noRc = false ∧ TurnsTo s asked shell ∧
        ChangesOnly (scripts ++ [startupPlace w.files s.home shell, backupPlace w.files s.home s.timeStamp shell]) w.files
          (run s argv w).2.files := by
  intro directory scripts
  obtain ⟨result, hcourse, -⟩ := exists_initCourse hparse s w
  rcases hcourse.changesOnly_or_added hstamp with honly | ⟨shell, hno, hturns, honly | ⟨-, text, hadded⟩⟩
  · exact .inl honly
  · refine .inr ⟨shell, hno, hturns, honly.mono (List.append_subset.2 ⟨List.subset_append_left _ _, ?_⟩)⟩
    exact List.subset_append_of_subset_right _ (List.subset_cons_self _ _)
  · exact .inr ⟨shell, hno, hturns, (hadded.after_scripts (changesOnly_written _ _ _)).2.2.2⟩

end

/-- A run that ends well and is to hook the scripts in changes a start-up file that has not the hook. -/
theorem contentAt?_ne_of_done {s : Session} {argv : List Text} {verbose : Bool} {dir : Option Text} {shell : Shell} {text : Text}
    {w : World} (hparse : Invocation.parse argv = .ok ⟨verbose, .init dir (some shell) false⟩) (hdone : (run s argv w).1 = .done)
    (hnot : isHooked text = false) :
    (run s argv w).2.files.contentAt? (startupPlace w.files s.home shell) ≠ some (Text.encode text) := by
  obtain ⟨result, hcourse, hends⟩ := exists_initCourse hparse s w
  have hshell : ∀ other, TurnsTo s (some shell) other → other = shell := fun _ h => h.eq_of_asked
  obtain ⟨hkeeps, -⟩ := hcourse.contentAt? hshell
  obtain ⟨found, hread, hhooked⟩ := hcourse.isHookedAt hshell rfl (hends.1 hdone)
  have hcontent := contentAt?_of_readBytes (readText_eq_ok_iff.1 hread)
  rw [hkeeps.placeOf] at hcontent
  rw [startupPlace, hcontent]
  intro hsame
  have hdecode := congrArg Text.decode? (Option.some.inj hsame)
  rw [Text.decode?_encode, Text.decode?_encode] at hdecode
  obtain rfl := Option.some.inj hdecode
  exact Bool.false_ne_true (hnot.symm.trans hhooked)

/-- A run that installs the completions leaves every start-up file as it is unless it ends well. If it changes one that was there, then
it is that of the shell to which the run turns, the block for the directory of the scripts stands behind what the file held, and the
backup beside the file holds this too if the file was found after the scripts were written; otherwise there is no new backup. In a
rooted tree it is found unless the home directory is a way up. A run that is not to hook the scripts in changes nothing but them, and
no run changes anything but the scripts, the start-up file of the shell to which it turns, and the backup of this file. -/
theorem startupFiles_kept {s : Session} {argv : List Text} {verbose noRc : Bool} {dir : Option Text} {asked : Option Shell}
    (hparse : Invocation.parse argv = .ok ⟨verbose, .init dir asked noRc⟩) {clock : ClockTime} (hclock : s.timeStamp = clock.render)
    (w : World) :
    let directory := dir.getD s.completionsDirectory
    let scripts := placesIn w.files directory (scriptFiles declaredTree)
    let written := ((writeScripts directory declaredTree).runOn w.files).2
    let startup := startupPlace w.files s.home
    let backup := backupPlace w.files s.home s.timeStamp
    let after := run s argv w
    (after.1 ≠ .done → ∀ shell, after.2.files.contentAt? (startup shell) = w.files.contentAt? (startup shell)) ∧
    (∀ shell old, w.files.contentAt? (startup shell) = some old → after.2.files.contentAt? (startup shell) ≠ some old →
      noRc = false ∧ (∀ other, TurnsTo s asked other ↔ other = shell) ∧
      after.2.files.contentAt? (startup shell) = some (old ++ Text.encode (hookBlock directory shell)) ∧
      after.2.files.contentAt? (backup shell) =
        (if written.pathExists (startupFile s.home shell) then some old else w.files.contentAt? (backup shell)) ∧
      (w.files.IsRooted → "..".toList ∉ FilePath.steps s.home → written.pathExists (startupFile s.home shell) = true)) ∧
    (noRc = true → ChangesOnly scripts w.files after.2.files) ∧
    (ChangesOnly scripts w.files after.2.files ∨
      ∃ shell, TurnsTo s asked shell ∧ ChangesOnly (scripts ++ [startup shell, backup shell]) w.files after.2.files) := by
  intro directory scripts written startup backup after
  have hstamp : '/' ∉ s.timeStamp := hclock ▸ clock.not_mem_render
  refine ⟨contentAt?_of_not_done hparse hstamp, fun shell old hold hnew => ?_, fun hnone => ?_, ?_⟩
  · obtain ⟨hno, hturns, text, rfl, hadded⟩ := exists_added_of_changed hparse hstamp hold hnew
    have hscripts : ChangesOnly scripts w.files written := changesOnly_written directory declaredTree w.files
    obtain ⟨-, hcontent, hbackup, -⟩ := hadded.after_scripts hscripts
    rw [Text.encode_append] at hcontent
    refine ⟨hno, fun other => ⟨fun h => h.unique hturns, ?_⟩, hcontent, hbackup, ?_⟩
    · rintro rfl
      exact hturns
    · exact hadded.pathExists_of_isRooted hscripts (startupPlace_not_mem w.files w.files s.home shell directory _) hold
  · rcases changesOnly_run hparse hstamp with honly | ⟨shell, hno, -⟩
    · exact honly
    · nomatch hno.symm.trans hnone
  · rcases changesOnly_run hparse hstamp with honly | ⟨shell, -, hturns, honly⟩
    · exact .inl honly
    · exact .inr ⟨shell, hturns, honly⟩

/-- What a user of bash has in a start-up file. -/
def aliasLine : Text := "alias ll='ls -l'\n".toList

/-- A user of bash who installs the completions. -/
def bashSession : Session :=
  { accountHome := "/home".toList, timeStamp := (ClockTime.mk 2024 3 9 7 5 30).render }

/-- The line that asks for it. -/
def bashLine : List Text := ["devx".toList, "init".toList, "--shell".toList, "bash".toList, "--dir".toList, "scripts".toList]

/-- The home directory with the start-up file. -/
def bashHome : World :=
  { files := { entries := [(["home".toList], .directory), (["home".toList, ".bashrc".toList], .file (Text.encode aliasLine))] } }

/-- The block stands behind the line of the user, and the line is kept beside the file. -/
theorem startupFiles_kept_bashHome :
    (run bashSession bashLine bashHome).2.files.contentAt? ["home".toList, ".bashrc".toList] =
      some (Text.encode aliasLine ++ Text.encode (hookBlock "scripts".toList .bash)) ∧
    (run bashSession bashLine bashHome).2.files.contentAt? ["home".toList, ".bashrc.devx-backup-20240309-070530".toList] =
      some (Text.encode aliasLine) := by
  have hparse : Invocation.parse bashLine = .ok ⟨false, .init (some "scripts".toList) (some .bash) false⟩ := rfl
  have hdone : (run bashSession bashLine bashHome).1 = .done := by decide +kernel
  have hstartup : startupPlace bashHome.files bashSession.home .bash = ["home".toList, ".bashrc".toList] := by decide
  have hbackup : backupPlace bashHome.files bashSession.home bashSession.timeStamp .bash =
      ["home".toList, ".bashrc.devx-backup-20240309-070530".toList] := by decide
  have hclock : bashSession.timeStamp = (ClockTime.mk 2024 3 9 7 5 30).render := rfl
  have hplain : isHooked aliasLine = false := by decide
  obtain ⟨-, hchanged, -⟩ := startupFiles_kept hparse hclock bashHome
  obtain ⟨-, -, hcontent, hcopy, hrooted⟩ :=
    hchanged .bash (Text.encode aliasLine) rfl (contentAt?_ne_of_done hparse hdone hplain)
  rw [if_pos (hrooted (by decide) (by decide)), hbackup] at hcopy
  rw [hstartup] at hcontent
  exact ⟨hcontent, hcopy⟩

/-- A session whose home directory is a way up out of a directory that need not be there. -/
def wayUpSession : Session :=
  { environment := [("HOME".toList, "missing/..".toList)], timeStamp := (ClockTime.mk 2024 3 9 7 5 30).render }

/-- A working directory with a start-up file. -/
def bashDirectory : World := { files := { entries := [([".bashrc".toList], .file (Text.encode aliasLine))] } }

/-- Where the way up to the home directory leads nowhere at first, the start-up file is not found, and so it is not backed up. As soon
as the directories are made the way leads to it, and the block is written behind what it holds. -/
theorem startupFile_without_backup :
    bashDirectory.files.IsRooted ∧
    bashDirectory.files.contentAt? [".bashrc".toList] = some (Text.encode aliasLine) ∧
    startupPlace bashDirectory.files wayUpSession.home .bash = [".bashrc".toList] ∧
    (run wayUpSession bashLine bashDirectory).2.files.contentAt? [".bashrc".toList] =
      some (Text.encode aliasLine ++ Text.encode (hookBlock "scripts".toList .bash)) ∧
    (run wayUpSession bashLine bashDirectory).2.files.contentAt?
      (backupPlace bashDirectory.files wayUpSession.home wayUpSession.timeStamp .bash) = none := by
  have hparse : Invocation.parse bashLine = .ok ⟨false, .init (some "scripts".toList) (some .bash) false⟩ := rfl
  have hdone : (run wayUpSession bashLine bashDirectory).1 = .done := by decide +kernel
  have hstartup : startupPlace bashDirectory.files wayUpSession.home .bash = [".bashrc".toList] := by decide
  have hstamp : '/' ∉ wayUpSession.timeStamp := ClockTime.not_mem_render _
  have hold : bashDirectory.files.contentAt? [".bashrc".toList] = some (Text.encode aliasLine) := rfl
  have hplain : isHooked aliasLine = false := by decide
  have hchanged := contentAt?_ne_of_done hparse hdone hplain
  have hnot : ((writeScripts "scripts".toList declaredTree).runOn bashDirectory.files).2.pathExists
      (startupFile wayUpSession.home .bash) = false := by decide +kernel
  rw [← hstartup] at hold
  obtain ⟨-, -, text, htext, hadded⟩ := exists_added_of_changed hparse hstamp hold hchanged
  obtain ⟨-, hcontent, hbackup, -⟩ := hadded.after_scripts (changesOnly_written _ _ _)
  rw [Text.encode_append, ← htext, hstartup, Option.getD_some] at hcontent
  rw [Option.getD_some, if_neg (Bool.eq_false_iff.1 hnot)] at hbackup
  rw [hstartup] at hold
  have hnone : bashDirectory.files.contentAt?
      (backupPlace bashDirectory.files wayUpSession.home wayUpSession.timeStamp .bash) = none := by decide
  exact ⟨by decide, hold, hstartup, hcontent, hbackup.trans hnone⟩

end Run

end DevWorkflow
