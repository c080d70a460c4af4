import DevWorkflow.Proofs.FileTree.Writing
import DevWorkflow.Run.Command

/-!
# Actions on a world, one after another

What each of the actions gives and the world that it leaves. What the parts of an action preserve of the files, the action preserves
(`WorldAction.Preserves.bind`); printing and starting programs leave the files as they are (`WorldAction.KeepsFiles`). A run carries
out the command for which it is asked (`Run.run_of_parse`).
-/

namespace DevWorkflow

/-- The world after a text was printed. -/
def World.printing (w : World) (t : Text) : World := { w with printed := w.printed ++ Text.encode t }

@[simp] theorem World.files_printing (w : World) (t : Text) : (w.printing t).files = w.files := rfl

namespace WorldAction

variable {α β : Type}

/-- What an action on a world gives, and the world that it leaves. -/
def runOn (action : WorldAction α) (w : World) : Except Fault α × World := action.run.run w

/-- An action after another one goes on with what that one gives, unless it fails. -/
theorem runOn_bind (action : WorldAction α) (next : α → WorldAction β) (w : World) :
    (action >>= next).runOn w =
      match action.runOn w with
      | (.ok a, w') => (next a).runOn w'
      | (.error fault, w') => (.error fault, w') := by
  have hbind : (action >>= next).runOn w = ExceptT.bindCont next (action.runOn w).1 (action.runOn w).2 := rfl
  rw [hbind]
  rcases action.runOn w with ⟨result, w'⟩
  cases result with
  | ok a => rfl
  | error fault => rfl

/-- If two actions one after another succeed, then the first one does, and the second one with what that one gives. -/
theorem exists_of_runOn_bind {action : WorldAction α} {next : α → WorldAction β} {b : β} {w w'' : World}
    (h : (action >>= next).runOn w = (.ok b, w'')) :
    ∃ a w', action.runOn w = (.ok a, w') ∧ (next a).runOn w' = (.ok b, w'') := by
  rw [runOn_bind] at h
  rcases hfirst : action.runOn w with ⟨result, w'⟩
  rw [hfirst] at h
  cases result with
  | ok a => exact ⟨a, w', rfl, h⟩
  | error fault => nomatch (Prod.mk.inj h).1

theorem runOn_pure (a : α) (w : World) : (pure a : WorldAction α).runOn w = (.ok a, w) := rfl

theorem runOn_require (result : Except Fault α) (w : World) : (require result).runOn w = (result, w) := rfl

/-- What is required and there is gone on with. -/
theorem require_ok_bind (a : α) (next : α → WorldAction β) : (require (.ok a) >>= next) = next a := rfl

/-- Where what is required is not there, nothing is done. -/
theorem require_error_bind (fault : Fault) (next : α → WorldAction β) : (require (.error fault) >>= next) = throw fault := rfl

/-- What is required is not there just if this is why an action fails that does not fail in this way afterwards. -/
theorem require_bind_eq_error_iff {result : Except Fault α} {next : α → WorldAction β} {fault : Fault}
    (hnext : ∀ a w, ((next a).runOn w).1 ≠ .error fault) (w : World) :
    ((require result >>= next).runOn w).1 = .error fault ↔ result = .error fault := by
  cases result with
  | error fault' =>
    have hthrow : ((throw fault' : WorldAction β).runOn w).1 = .error fault' := rfl
    rw [require_error_bind, hthrow]
    simp
  | ok a =>
    rw [require_ok_bind]
    exact iff_of_false (hnext a w) nofun

/-- If what is required is given, it was there, and nothing is changed. -/
theorem of_runOn_require {ε : Type} {toFault : ε → Fault} {result : Except ε α} {a : α} {w w' : World}
    (h : (require (result.mapError toFault)).runOn w = (.ok a, w')) : result = .ok a ∧ w' = w := by
  obtain ⟨hresult, rfl⟩ := Prod.mk.inj h
  cases result with
  | ok a' => exact ⟨congrArg Except.ok (Except.ok.inj hresult), rfl⟩
  | error e => nomatch hresult

/-- An action on the files of a world changes nothing else. -/
theorem runOn_onFiles {ε : Type} (toFault : ε → Fault) (action : FileAction ε α) (w : World) :
    (onFiles toFault action).runOn w =
      ((action.runOn w.files).1.mapError toFault, { w with files := (action.runOn w.files).2 }) := rfl

/-- If an action on the files of a world succeeds, nothing but the files is changed. -/
theorem exists_of_runOn_onFiles {ε : Type} {toFault : ε → Fault} {action : FileAction ε α} {a : α} {w w' : World}
    (h : (onFiles toFault action).runOn w = (.ok a, w')) :
    ∃ t, action.runOn w.files = (.ok a, t) ∧ w' = { w with files := t } := by
  rw [runOn_onFiles] at h
  rcases hfiles : action.runOn w.files with ⟨result, t⟩
  rw [hfiles] at h
  obtain ⟨hresult, rfl⟩ := Prod.mk.inj h
  cases result with
  | ok a' =>
    obtain rfl : a' = a := Except.ok.inj hresult
    exact ⟨t, rfl, rfl⟩
  | error e => nomatch hresult

/-- What is done after an action on the files goes on with what that one gives, unless it fails. -/
theorem runOn_onFiles_bind {ε : Type} (toFault : ε → Fault) (action : FileAction ε α) (next : α → WorldAction β) (w : World) :
    (onFiles toFault action >>= next).runOn w =
      match action.runOn w.files with
      | (.ok a, t) => (next a).runOn { w with files := t }
      | (.error e, t) => (.error (toFault e), { w with files := t }) := by
  rw [runOn_bind, runOn_onFiles]
  rcases action.runOn w.files with ⟨result, t⟩
  cases result <;> rfl

/-- Printing comes before what is done next. -/
theorem runOn_printLine_bind (t : Text) (next : WorldAction β) (w : World) :
    (printLine t >>= fun _ => next).runOn w = next.runOn (w.printing (t ++ ['\n'])) := rfl

/-- Printing lines one after another succeeds and leaves the files as they are. -/
theorem runOn_forM_printLine (f : α → Text) (xs : List α) (w : World) :
    ∃ w', (xs.forM fun x => printLine (f x)).runOn w = (.ok (), w') ∧ w'.files = w.files := by
  induction xs generalizing w with
  | nil => exact ⟨w, rfl, rfl⟩
  | cons x rest ih =>
    obtain ⟨w', hrun, hfiles⟩ := ih (w.printing (f x ++ ['\n']))
    exact ⟨w', hrun, hfiles⟩

/-! ## What actions preserve -/

/-- Whether an action preserves what holds of the files, however it ends. -/
def Preserves (P : FileTree → Prop) (action : WorldAction α) : Prop := ∀ w, P w.files → P (action.runOn w).2.files

theorem Preserves.bind {P : FileTree → Prop} {action : WorldAction α} {next : α → WorldAction β} (h : Preserves P action)
    (hnext : ∀ a, Preserves P (next a)) : Preserves P (action >>= next) := by
  intro w hw
  have hfirst := h w hw
  rw [runOn_bind]
  rcases hrun : action.runOn w with ⟨result, w'⟩
  rw [hrun] at hfirst
  cases result with
  | ok a => exact hnext a w' hfirst
  | error fault => exact hfirst

theorem preserves_onFiles {P : FileTree → Prop} {ε : Type} {action : FileAction ε α} (h : ∀ t, P t → P (action.runOn t).2)
    (toFault : ε → Fault) : Preserves P (onFiles toFault action) :=
  fun w hw => h w.files hw

/-! ## Actions that keep the files -/

/-- Whether an action leaves the files as they are, in every world. -/
def KeepsFiles (action : WorldAction α) : Prop := ∀ w, (action.runOn w).2.files = w.files

theorem keepsFiles_pure (a : α) : KeepsFiles (pure a) := fun _ => rfl

theorem keepsFiles_throw (fault : Fault) : KeepsFiles (throw fault : WorldAction α) := fun _ => rfl

theorem keepsFiles_printLine (t : Text) : KeepsFiles (printLine t) := fun _ => rfl

theorem keepsFiles_print (t : Text) : KeepsFiles (print t) := fun _ => rfl

theorem keepsFiles_require (result : Except Fault α) : KeepsFiles (require result) := fun _ => rfl

theorem KeepsFiles.preserves {P : FileTree → Prop} {action : WorldAction α} (h : KeepsFiles action) : Preserves P action :=
  fun w hw => (h w).symm ▸ hw

theorem KeepsFiles.bind {action : WorldAction α} {next : α → WorldAction β} (h : KeepsFiles action)
    (hnext : ∀ a, KeepsFiles (next a)) : KeepsFiles (action >>= next) :=
  fun w => Preserves.bind (P := fun t => t = w.files) h.preserves (fun a => (hnext a).preserves) w rfl

theorem keepsFiles_forM {f : α → WorldAction Unit} (h : ∀ a, KeepsFiles (f a)) (xs : List α) : KeepsFiles (xs.forM f) := by
  induction xs with
  | nil => exact keepsFiles_pure ()
  | cons x rest ih => exact (h x).bind fun _ => ih

/-- Starting a program leaves the files as they are: what programs do to files is no part of the world. -/
theorem keepsFiles_start (program : Text) (args : List Text) : KeepsFiles (start program args) := by
  intro w
  show (start program args w).2.files = w.files
  unfold start
  split
  · rfl
  · cases respond program w.programs with
    | none => rfl
    | some next => rfl

theorem keepsFiles_startPrinting (program : Text) (args : List Text) : KeepsFiles (startPrinting program args) := by
  refine (keepsFiles_start program args).bind fun result => ?_
  cases result with
  | error e => exact keepsFiles_pure _
  | ok r => exact fun _ => rfl

end WorldAction

namespace Run

open WorldAction

/-- A run with a command line that asks for a command carries it out. -/
theorem run_of_parse {argv : List Text} {i : Invocation} (h : Invocation.parse argv = .ok i) (s : Session) (w : World) :
    run s argv w =
      match (command s i.command).runOn w with
      | (.ok (), w') => (.done, w')
      | (.error fault, w') => (.failed fault, w') := by
  rw [run, h]
  rfl

end Run

end DevWorkflow
