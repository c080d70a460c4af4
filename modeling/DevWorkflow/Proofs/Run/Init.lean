import DevWorkflow.Proofs.Completion.Install.Hook
import DevWorkflow.Proofs.World.Actions

/-!
# Installing the completions, run after run

A run that installs the completions writes the scripts and may then turn to a shell's start-up file. What can become of the files
is said once, as the ways in which a run can go (`Run.HookCourse`, `Run.InitCourse`). From there follows what one run does to the
start-up file (`Run.InitRun.startupContent_after`): nothing, or it adds the hook at the end. Once the hook is there a run changes
nothing but the scripts (`Run.InitRun.changesOnly_of_isHookedAt`), so that over any runs the hook is added once at most
(`Run.hooked_once`).
-/

namespace DevWorkflow

namespace Run

open WorldAction FileTree Install

/-! ## How a run can go -/

/-- How hooking the scripts in a directory into the start-up file at a path can go: the files before it, how it ends, and the
files after it. -/
inductive HookCourse (path directory timeStamp : Text) (shell : Shell) (t : FileTree) : Except Fault Unit → FileTree → Prop
  /-- The start-up file cannot be read. -/
  | unread {e : IoFault} : (hasHook path).runOn t = (.error e, t) →
      HookCourse path directory timeStamp shell t (.error (.io e)) t
  /-- The hook is found. -/
  | found : (hasHook path).runOn t = (.ok true, t) → HookCourse path directory timeStamp shell t (.ok ()) t
  /-- The start-up file cannot be backed up. -/
  | notBackedUp {fault : Fault} {t' : FileTree} : (hasHook path).runOn t = (.ok false, t) →
      (backUp path timeStamp).runOn t = (.error fault, t') →
      HookCourse path directory timeStamp shell t (.error fault) t'
  /-- The hook cannot be added. -/
  | notAdded {backup : Option Text} {e : IoFault} {t₁ t' : FileTree} : (hasHook path).runOn t = (.ok false, t) →
      (backUp path timeStamp).runOn t = (.ok backup, t₁) → (addHook path directory shell).runOn t₁ = (.error e, t') →
      HookCourse path directory timeStamp shell t (.error (.io e)) t'
  /-- The hook is added. -/
  | added {backup : Option Text} {t₁ t' : FileTree} : (hasHook path).runOn t = (.ok false, t) →
      (backUp path timeStamp).runOn t = (.ok backup, t₁) → (addHook path directory shell).runOn t₁ = (.ok (), t') →
      HookCourse path directory timeStamp shell t (.ok ()) t'

/-- The course after the start-up file is backed up, whatever is printed in the end. -/
theorem HookCourse.of_backUp {path directory timeStamp : Text} {shell : Shell} {t t₁ : FileTree} {backup : Option Text}
    (hlook : (hasHook path).runOn t = (.ok false, t)) (hback : (backUp path timeStamp).runOn t = (.ok backup, t₁))
    {next : WorldAction Unit} (hnext : ∀ w, ∃ w', next.runOn w = (.ok (), w') ∧ w'.files = w.files) {w : World}
    (hw : w.files = t₁) :
    HookCourse path directory timeStamp shell t
      ((onFiles .io (addHook path directory shell) >>= fun _ => next).runOn w).1
      ((onFiles .io (addHook path directory shell) >>= fun _ => next).runOn w).2.files := by
  rw [runOn_onFiles_bind, hw]
  rcases hadd : (addHook path directory shell).runOn t₁ with ⟨result, t'⟩
  cases result with
  | error e => exact .notAdded hlook hback hadd
  | ok u =>
    obtain ⟨w', hrun, hfiles⟩ := hnext { w with files := t' }
    simp only [hrun, hfiles]
    exact .added hlook hback hadd

/-- Hooking goes one of these ways. -/
theorem hookCourse_hook (s : Session) (directory : Text) (shell : Shell) (w : World) :
    HookCourse (startupFile s.home shell) directory s.timeStamp shell w.files ((hook s directory shell).runOn w).1
      ((hook s directory shell).runOn w).2.files := by
  unfold hook
  dsimp only
  rw [runOn_printLine_bind, runOn_printLine_bind, runOn_onFiles_bind]
  simp only [World.files_printing]
  rcases hlook : (hasHook (startupFile s.home shell)).runOn w.files with ⟨result, t⟩
  obtain rfl : t = w.files := by rw [← runOn_hasHook_snd (startupFile s.home shell) w.files, hlook]
  rcases result with e | isThere
  · exact .unread hlook
  cases isThere with
  | true => exact .found hlook
  | false =>
    simp only
    rw [if_neg Bool.false_ne_true, runOn_onFiles_bind]
    simp only
    rcases hback : (backUp (startupFile s.home shell) s.timeStamp).runOn w.files with ⟨result, t₁⟩
    rcases result with fault | backup
    · exact .notBackedUp hlook hback
    · cases backup with
      | none =>
        simp only
        refine .of_backUp hlook hback (fun w' => ?_) rfl
        exact ⟨_, rfl, rfl⟩
      | some backup =>
        simp only
        rw [runOn_printLine_bind]
        refine .of_backUp hlook hback (fun w' => ?_) rfl
        exact ⟨_, rfl, rfl⟩

/-- Whether a run can turn to a shell: the shell is named, or none is and it can be found out. -/
def TurnsTo (s : Session) (asked : Option Shell) (shell : Shell) : Prop :=
  asked = some shell ∨ asked = none ∧ ∃ w w', (detectShell s).runOn w = (.ok shell, w')

/-- How installing the completions can go: the files before it, how it ends, and the files after it. -/
inductive InitCourse (s : Session) (dir : Option Text) (asked : Option Shell) (noRc : Bool) (t : FileTree) :
    Except Fault Unit → FileTree → Prop
  /-- The scripts cannot be written. -/
  | notWritten {e : IoFault} {t' : FileTree} :
      (writeScripts (dir.getD s.completionsDirectory) declaredTree).runOn t = (.error e, t') →
      InitCourse s dir asked noRc t (.error (.io e)) t'
  /-- Nothing but the scripts is asked for. -/
  | scriptsOnly {written : List Text} {t' : FileTree} :
      (writeScripts (dir.getD s.completionsDirectory) declaredTree).runOn t = (.ok written, t') → noRc = true →
      InitCourse s dir asked noRc t (.ok ()) t'
  /-- It cannot be found out which shell is meant. -/
  | shellUnknown {written : List Text} {fault : Fault} {t' : FileTree} :
      (writeScripts (dir.getD s.completionsDirectory) declaredTree).runOn t = (.ok written, t') → noRc = false →
      InitCourse s dir asked noRc t (.error fault) t'
  /-- The scripts are hooked into a shell's start-up file. -/
  | hooked {written : List Text} {shell : Shell} {result : Except Fault Unit} {t₁ t' : FileTree} :
      (writeScripts (dir.getD s.completionsDirectory) declaredTree).runOn t = (.ok written, t₁) → noRc = false →
      TurnsTo s asked shell →
      HookCourse (startupFile s.home shell) (dir.getD s.completionsDirectory) s.timeStamp shell t₁ result t' →
      InitCourse s dir asked noRc t result t'

/-- Finding out which shell is meant leaves the files as they are. -/
theorem keepsFiles_detectShell (s : Session) : KeepsFiles (detectShell s) := by
  unfold detectShell
  split
  · exact keepsFiles_pure _
  · split
    · exact keepsFiles_throw _
    · refine (keepsFiles_printLine _).bind fun _ => ?_
      split
      · exact keepsFiles_throw _
      · split
        · exact keepsFiles_pure _
        · exact keepsFiles_throw _

/-- Installing goes one of these ways. -/
theorem initCourse_init (s : Session) (dir : Option Text) (asked : Option Shell) (noRc : Bool) (w : World) :
    InitCourse s dir asked noRc w.files ((init s dir asked noRc).runOn w).1 ((init s dir asked noRc).runOn w).2.files := by
  have hvalid : failOn TreeDefect.toFault declaredTree.defect? = .ok () := rfl
  unfold init
  dsimp only
  rw [runOn_bind, requireValid, runOn_require, hvalid]
  simp only
  rw [runOn_onFiles_bind]
  rcases hwrite : (writeScripts (dir.getD s.completionsDirectory) declaredTree).runOn w.files with ⟨result, t₁⟩
  rcases result with e | written
  · exact .notWritten hwrite
  simp only
  rw [runOn_printLine_bind, runOn_bind]
  obtain ⟨w₁, hprint, hfiles⟩ := runOn_forM_printLine (fun path => "  ".toList ++ path) written
    (World.printing { w with files := t₁ } ("Wrote completion scripts to ".toList ++ dir.getD s.completionsDirectory
      ++ ":".toList ++ ['\n']))
  replace hfiles : w₁.files = t₁ := hfiles
  simp only [hprint]
  cases noRc with
  | true =>
    rw [if_pos rfl, runOn_pure, hfiles]
    exact .scriptsOnly hwrite rfl
  | false =>
    rw [if_neg Bool.false_ne_true]
    cases asked with
    | some shell =>
      have hhook := hookCourse_hook s (dir.getD s.completionsDirectory) shell w₁
      rw [hfiles] at hhook
      simp only
      rw [runOn_bind, runOn_pure]
      exact .hooked hwrite rfl (.inl rfl) hhook
    | none =>
      have hkeeps := keepsFiles_detectShell s w₁
      simp only
      rw [runOn_bind]
      rcases hdetect : (detectShell s).runOn w₁ with ⟨result, w₂⟩
      rw [hdetect, hfiles] at hkeeps
      replace hkeeps : w₂.files = t₁ := hkeeps
      rcases result with fault | shell
      · simp only
        rw [hkeeps]
        exact .shellUnknown hwrite rfl
      · have hhook := hookCourse_hook s (dir.getD s.completionsDirectory) shell w₂
        rw [hkeeps] at hhook
        exact .hooked hwrite rfl (.inr ⟨rfl, w₁, w₂, hdetect⟩) hhook

/-- A run with a command line that asks for installing goes one of these ways, and ends well if installing succeeds. -/
theorem exists_initCourse {argv : List Text} {verbose noRc : Bool} {dir : Option Text} {asked : Option Shell}
    (h : Invocation.parse argv = .ok ⟨verbose, .init dir asked noRc⟩) (s : Session) (w : World) :
    ∃ result, InitCourse s dir asked noRc w.files result (run s argv w).2.files ∧
      ((run s argv w).1 = .done ↔ result = .ok ()) := by
  have hcourse := initCourse_init s dir asked noRc w
  rcases hinit : (init s dir asked noRc).runOn w with ⟨result, w'⟩
  rw [hinit] at hcourse
  refine ⟨result, ?_⟩
  rw [run_of_parse h]
  simp only [command, hinit]
  cases result with
  | ok u => exact ⟨hcourse, by simp⟩
  | error fault => exact ⟨hcourse, by simp⟩

/-! ## What a run does to the start-up file -/

section

variable {path directory timeStamp : Text} {shell : Shell} {t t' : FileTree} {result : Except Fault Unit}

/-- Hooking leaves the start-up file as it is, or it succeeds and adds the block at the end. -/
theorem HookCourse.contentAt? (h : HookCourse path directory timeStamp shell t result t') :
    KeepsDirectories t t' ∧ (t'.contentAt? (t.placeOf path) = t.contentAt? (t.placeOf path) ∨
      result = .ok () ∧ ∃ text, t.HoldsText (t.placeOf path) text ∧
        t'.contentAt? (t.placeOf path) = some (Text.encode (text ++ hookBlock directory shell))) := by
  cases h with
  | unread hlook => exact ⟨.refl t, .inl rfl⟩
  | found hlook => exact ⟨.refl t, .inl rfl⟩
  | notBackedUp hlook hback =>
    obtain ⟨hkeeps, hsame⟩ := contentAt?_of_backUp hback
    exact ⟨hkeeps, .inl hsame⟩
  | notAdded hlook hback hadd =>
    obtain ⟨hkeeps, hsame⟩ := contentAt?_of_backUp hback
    obtain ⟨t₁, honly, ⟨-, rfl⟩ | ⟨hok, -⟩⟩ := addHook_cases hadd
    · exact ⟨hkeeps.trans honly.keeps, .inl ((honly.contentAt? List.not_mem_nil).trans hsame)⟩
    · nomatch hok
  | added hlook hback hadd =>
    obtain ⟨hkeeps, hsame⟩ := contentAt?_of_backUp hback
    obtain ⟨t₁, honly, ⟨⟨e, he⟩, -⟩ | ⟨-, text, hholds, hwrite⟩⟩ := addHook_cases hadd
    · nomatch he
    · have hkeeps' := (hkeeps.trans honly.keeps).trans (keepsDirectories_writeBytes hwrite)
      have hcontent := contentAt?_of_readBytes (readBytes_of_writeBytes hwrite)
      rw [hkeeps'.placeOf] at hcontent
      rw [HoldsText, hkeeps.placeOf, hsame] at hholds
      exact ⟨hkeeps', .inr ⟨rfl, text, hholds, hcontent⟩⟩

/-- After hooking succeeded the hook is there. -/
theorem HookCourse.isHookedAt (h : HookCourse path directory timeStamp shell t result t') (hok : result = .ok ()) :
    IsHookedAt t' path := by
  cases h with
  | found hlook => exact runOn_hasHook_eq_true_iff.1 hlook
  | added hlook hback hadd =>
    obtain ⟨t₁, -, ⟨⟨e, he⟩, -⟩ | ⟨-, text, -, hwrite⟩⟩ := addHook_cases hadd
    · nomatch he
    · exact ⟨_, readText_eq_ok_iff.2 (readBytes_of_writeBytes hwrite), isHooked_append text directory shell⟩
  | _ => nomatch hok

/-- Where the hook is, hooking changes nothing. -/
theorem HookCourse.eq_of_isHookedAt (h : HookCourse path directory timeStamp shell t result t') (hhook : IsHookedAt t path) :
    t' = t := by
  have hfound := runOn_hasHook_eq_true_iff.2 hhook
  cases h with
  | found hlook => rfl
  | unread hlook => nomatch hfound.symm.trans hlook
  | notBackedUp hlook hback => nomatch hfound.symm.trans hlook
  | notAdded hlook hback hadd => nomatch hfound.symm.trans hlook
  | added hlook hback hadd => nomatch hfound.symm.trans hlook

end

section

variable {s : Session} {dir : Option Text} {asked : Option Shell} {noRc : Bool} {shell : Shell} {t t' : FileTree}
  {result : Except Fault Unit} (h : InitCourse s dir asked noRc t result t')
  (hshell : ∀ other, TurnsTo s asked other → other = shell)
include h hshell

/-- Installing leaves the start-up file of the shell as it is, or it succeeds and adds the block at the end. -/
theorem InitCourse.contentAt? :
    let place := t.placeOf (startupFile s.home shell)
    KeepsDirectories t t' ∧ (t'.contentAt? place = t.contentAt? place ∨
      noRc = false ∧ result = .ok () ∧ ∃ text, t.HoldsText place text ∧
        t'.contentAt? place = some (Text.encode (text ++ hookBlock (dir.getD s.completionsDirectory) shell))) := by
  intro place
  have hscripts : ∀ {written t₁}, (writeScripts (dir.getD s.completionsDirectory) declaredTree).runOn t = (written, t₁) →
      KeepsDirectories t t₁ ∧ t₁.contentAt? place = t.contentAt? place := fun hwrite =>
    ⟨(changesOnly_writeScripts hwrite).keeps,
      (changesOnly_writeScripts hwrite).contentAt? (placeOf_startupFile_not_mem t t s.home shell _ _)⟩
  cases h with
  | notWritten hwrite => exact ⟨(hscripts hwrite).1, .inl (hscripts hwrite).2⟩
  | scriptsOnly hwrite hno => exact ⟨(hscripts hwrite).1, .inl (hscripts hwrite).2⟩
  | shellUnknown hwrite hno => exact ⟨(hscripts hwrite).1, .inl (hscripts hwrite).2⟩
  | @hooked written other result t₁ t' hwrite hno hturns hhook =>
    obtain rfl := hshell other hturns
    obtain ⟨hkeeps, hsame⟩ := hscripts hwrite
    obtain ⟨hkeeps', hcontent⟩ := hhook.contentAt?
    rw [hkeeps.placeOf] at hcontent
    refine ⟨hkeeps.trans hkeeps', ?_⟩
    rcases hcontent with hcontent | ⟨hok, text, hholds, hcontent⟩
    · exact .inl (hcontent.trans hsame)
    · rw [HoldsText, hsame] at hholds
      exact .inr ⟨hno, hok, text, hholds, hcontent⟩

/-- After installing with the hook succeeded the hook is there. -/
theorem InitCourse.isHookedAt (hno : noRc = false) (hok : result = .ok ()) : IsHookedAt t' (startupFile s.home shell) := by
  cases h with
  | @hooked written other result t₁ t' hwrite hno' hturns hhook =>
    obtain rfl := hshell other hturns
    exact hhook.isHookedAt hok
  | scriptsOnly hwrite hno' => nomatch hno.symm.trans hno'
  | _ => nomatch hok

/-- Where the hook is, installing changes nothing but the scripts. -/
theorem InitCourse.changesOnly_of_isHookedAt (hhook : IsHookedAt t (startupFile s.home shell)) :
    ChangesOnly (placesIn t (dir.getD s.completionsDirectory) (scriptFiles declaredTree)) t t' := by
  cases h with
  | notWritten hwrite => exact changesOnly_writeScripts hwrite
  | scriptsOnly hwrite hno => exact changesOnly_writeScripts hwrite
  | shellUnknown hwrite hno => exact changesOnly_writeScripts hwrite
  | @hooked written other result t₁ t' hwrite hno hturns hcourse =>
    obtain rfl := hshell other hturns
    have honly := changesOnly_writeScripts hwrite
    have hthere := hhook.of_changesOnly honly (placeOf_startupFile_not_mem t t s.home other _ _)
    rw [hcourse.eq_of_isHookedAt hthere]
    exact honly

end

/-! ## Runs one after another -/

/-- A run of the program that installs the completions for a shell, with a given home directory: its session, its command line,
and what the line asks for. -/
structure InitRun (home : Text) (shell : Shell) where
  session : Session
  argv : List Text
  verbose : Bool
  dir : Option Text
  asked : Option Shell
  noRc : Bool
  parses : Invocation.parse argv = .ok ⟨verbose, .init dir asked noRc⟩
  isHome : session.home = home
  turnsTo : ∀ other, TurnsTo session asked other → other = shell

namespace InitRun

variable {home : Text} {shell : Shell}

/-- The directory for the scripts. -/
def directory (r : InitRun home shell) : Text := r.dir.getD r.session.completionsDirectory

/-- How the run ends. -/
def outcome (r : InitRun home shell) (w : World) : Outcome := (run r.session r.argv w).1

/-- The world after the run. -/
def after (r : InitRun home shell) (w : World) : World := (run r.session r.argv w).2

/-- The world after some runs. -/
def afterAll (runs : List (InitRun home shell)) (w : World) : World := runs.foldl (fun w r => r.after w) w

/-- What the start-up file holds. -/
def startupContent (home : Text) (shell : Shell) (w : World) : Option ByteArray :=
  w.files.contentAt? (w.files.placeOf (startupFile home shell))

/-- Whether the hook is in the start-up file. -/
def Hooked (home : Text) (shell : Shell) (w : World) : Prop := IsHookedAt w.files (startupFile home shell)

/-- Whether a run finds the hook, or adds it: the hook is there before it, or the run is to add it and ends well. -/
def Hooks (r : InitRun home shell) (w : World) : Prop := Hooked home shell w ∨ r.noRc = false ∧ r.outcome w = .done

/-- A run goes one of the ways in which installing can go. -/
theorem exists_course (r : InitRun home shell) (w : World) :
    ∃ result, InitCourse r.session r.dir r.asked r.noRc w.files result (r.after w).files ∧
      (r.outcome w = .done ↔ result = .ok ()) :=
  exists_initCourse r.parses r.session w

/-- A run leaves the start-up file as it is, or it ends well and adds the block at the end. -/
theorem startupContent_after (r : InitRun home shell) (w : World) :
    startupContent home shell (r.after w) = startupContent home shell w ∨
      r.noRc = false ∧ r.outcome w = .done ∧ ∃ text, w.files.HoldsText (w.files.placeOf (startupFile home shell)) text ∧
        startupContent home shell (r.after w) = some (Text.encode (text ++ hookBlock r.directory shell)) := by
  obtain ⟨result, hcourse, hdone⟩ := r.exists_course w
  obtain ⟨hkeeps, hcontent⟩ := hcourse.contentAt? r.turnsTo
  rw [startupContent, hkeeps.placeOf, hdone]
  rw [r.isHome] at hcontent
  exact hcontent

/-- Where the hook is, a run changes nothing but the scripts. -/
theorem changesOnly_of_hooked {w : World} (h : Hooked home shell w) (r : InitRun home shell) :
    ChangesOnly (placesIn w.files r.directory (scriptFiles declaredTree)) w.files (r.after w).files := by
  obtain ⟨result, hcourse, -⟩ := r.exists_course w
  rw [Hooked, ← r.isHome] at h
  exact hcourse.changesOnly_of_isHookedAt r.turnsTo h

/-- After a run has found the hook or added it, the hook is there. -/
theorem hooked_after {r : InitRun home shell} {w : World} (h : r.Hooks w) : Hooked home shell (r.after w) := by
  rcases h with hhook | ⟨hno, hok⟩
  · exact hhook.of_changesOnly (changesOnly_of_hooked hhook r) (placeOf_startupFile_not_mem _ _ _ _ _ _)
  · obtain ⟨result, hcourse, hdone⟩ := r.exists_course w
    have hhook := hcourse.isHookedAt r.turnsTo hno (hdone.1 hok)
    rwa [r.isHome] at hhook

/-- Where the hook is, a run leaves the start-up file as it is. -/
theorem startupContent_of_hooked {w : World} (h : Hooked home shell w) (r : InitRun home shell) :
    startupContent home shell (r.after w) = startupContent home shell w := by
  have honly := changesOnly_of_hooked h r
  rw [startupContent, honly.keeps.placeOf]
  exact honly.contentAt? (placeOf_startupFile_not_mem _ _ _ _ _ _)

/-- The hook stays, and the start-up file stays as it is once the hook is there. -/
theorem afterAll_of_hooked (runs : List (InitRun home shell)) {w : World} (h : Hooked home shell w) :
    Hooked home shell (afterAll runs w) ∧ startupContent home shell (afterAll runs w) = startupContent home shell w := by
  induction runs generalizing w with
  | nil => exact ⟨h, rfl⟩
  | cons r rest ih =>
    obtain ⟨hhook, hsame⟩ := ih (hooked_after (r := r) (.inl h))
    exact ⟨hhook, hsame.trans (startupContent_of_hooked h r)⟩

/-- Over any runs the start-up file stays as it is, up to the end or up to the one run that adds its block; after that it stays as
that run left it. -/
theorem startupContent_afterAll (runs : List (InitRun home shell)) (w : World) :
    (∀ k, startupContent home shell (afterAll (runs.take k) w) = startupContent home shell w) ∨
      ∃ before r later text, runs = before ++ r :: later ∧
        w.files.HoldsText (w.files.placeOf (startupFile home shell)) text ∧
        ∀ k, startupContent home shell (afterAll (runs.take k) w) =
          if k ≤ before.length then startupContent home shell w
          else some (Text.encode (text ++ hookBlock r.directory shell)) := by
  induction runs generalizing w with
  | nil => exact .inl fun k => by rw [List.take_nil]; rfl
  | cons r rest ih =>
    rcases r.startupContent_after w with hsame | ⟨hno, hdone, text, hholds, hadded⟩
    · rcases ih (r.after w) with hnever | ⟨before, s, later, text, rfl, hholds, honce⟩
      · refine .inl fun k => ?_
        cases k with
        | zero => rfl
        | succ k => exact (hnever k).trans hsame
      · refine .inr ⟨r :: before, s, later, text, rfl, ?_, fun k => ?_⟩
        · rw [HoldsText] at hholds ⊢
          rwa [show (r.after w).files.contentAt? _ = _ from hsame] at hholds
        · cases k with
          | zero => rfl
          | succ k =>
            simp only [List.length_cons, Nat.add_le_add_iff_right, ← hsame]
            exact honce k
    · -- The first run adds the block, so that the hook is there for all later ones.
      refine .inr ⟨[], r, rest, text, rfl, hholds, fun k => ?_⟩
      cases k with
      | zero => rfl
      | succ k =>
        have hhook := hooked_after (r := r) (w := w) (.inr ⟨hno, hdone⟩)
        exact (afterAll_of_hooked (rest.take k) hhook).2.trans hadded

end InitRun

/-- Over any runs that install the completions for a shell, with any directories and whether they are to add the hook or not, the
start-up file holds at every point what it held at first, or else this with the block of one run behind it, which is the first that
changed the file. Once a run has found the hook or added it, no later run changes the file or leaves a backup. -/
theorem hooked_once {home : Text} {shell : Shell} (runs : List (InitRun home shell)) (w : World) :
    ((∀ k, InitRun.startupContent home shell (InitRun.afterAll (runs.take k) w) = InitRun.startupContent home shell w) ∨
      ∃ before r later text, runs = before ++ r :: later ∧
        w.files.HoldsText (w.files.placeOf (startupFile home shell)) text ∧
        ∀ k, InitRun.startupContent home shell (InitRun.afterAll (runs.take k) w) =
          if k ≤ before.length then InitRun.startupContent home shell w
          else some (Text.encode (text ++ hookBlock r.directory shell))) ∧
    ∀ before r between next later, runs = before ++ r :: (between ++ next :: later) → r.Hooks (InitRun.afterAll before w) →
      let w' := InitRun.afterAll (before ++ r :: between) w
      InitRun.startupContent home shell (next.after w') = InitRun.startupContent home shell w' ∧
        ∀ folder timeStamp,
          (next.after w').files.contentAt? (folder ++ [backupName (startupName shell) timeStamp]) =
            w'.files.contentAt? (folder ++ [backupName (startupName shell) timeStamp]) := by
  refine ⟨InitRun.startupContent_afterAll runs w, fun before r between next later _ hhooks => ?_⟩
  intro w'
  have hw' : w' = InitRun.afterAll between (r.after (InitRun.afterAll before w)) := List.foldl_append
  have hhook : InitRun.Hooked home shell w' := by
    rw [hw']
    exact (InitRun.afterAll_of_hooked between (InitRun.hooked_after hhooks)).1
  refine ⟨InitRun.startupContent_of_hooked hhook next, fun folder timeStamp => ?_⟩
  exact (InitRun.changesOnly_of_hooked hhook next).contentAt?
    (not_mem_placesIn_scriptFiles (backupName_not_mem shell timeStamp) _ _ _ _)

/-- A run that turns to the shell that it is asked for turns to no other one. -/
theorem TurnsTo.eq_of_asked {s : Session} {shell other : Shell} (h : TurnsTo s (some shell) other) : other = shell := by
  rcases h with hsome | ⟨hnone, -⟩
  · exact (Option.some.inj hsome).symm
  · nomatch hnone

/-- The first run of a user, for zsh. -/
def firstZshRun : InitRun "/home".toList .zsh where
  session := { accountHome := "/home".toList }
  argv := ["devx".toList, "init".toList, "--shell=zsh".toList]
  verbose := false
  dir := none
  asked := some .zsh
  noRc := false
  parses := rfl
  isHome := rfl
  turnsTo := fun _ h => h.eq_of_asked

/-- A later run of the same user, with the scripts in another directory. -/
def laterZshRun : InitRun "/home".toList .zsh where
  session := { accountHome := "/home".toList }
  argv := ["devx".toList, "init".toList, "--dir=/home/scripts".toList, "--shell=zsh".toList]
  verbose := false
  dir := some "/home/scripts".toList
  asked := some .zsh
  noRc := false
  parses := rfl
  isHome := rfl
  turnsTo := fun _ h => h.eq_of_asked

/-- A world with an empty home directory. -/
def emptyHome : World := { files := { entries := [(["home".toList], .directory)] } }

/-- The first run adds the hook, and the later one leaves the start-up file as it is and makes no backup. -/
theorem hooked_once_emptyHome :
    firstZshRun.Hooks emptyHome ∧
      let w := InitRun.afterAll [firstZshRun] emptyHome
      InitRun.startupContent "/home".toList .zsh (laterZshRun.after w) = InitRun.startupContent "/home".toList .zsh w ∧
        ∀ folder timeStamp,
          (laterZshRun.after w).files.contentAt? (folder ++ [backupName (startupName .zsh) timeStamp]) =
            w.files.contentAt? (folder ++ [backupName (startupName .zsh) timeStamp]) := by
  have hhooks : firstZshRun.Hooks emptyHome := .inr ⟨rfl, by decide +kernel⟩
  exact ⟨hhooks, (hooked_once [firstZshRun, laterZshRun] emptyHome).2 [] firstZshRun [] laterZshRun [] rfl hhooks⟩

end Run

end DevWorkflow
