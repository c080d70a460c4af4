import DevWorkflow.Proofs.FileTree.Parents
import DevWorkflow.Proofs.Run.Programs
import DevWorkflow.Proofs.Run.Settings

/-!
# The settings file over any history

Saving leaves a file that is loaded, or no file that could be read (`Settings.LoadsIfThere.save`). Nothing else that runs do touches
the settings file (`Run.preserves_command`), so that over any runs, and whatever else happens to other files in between, the file
never holds settings that would be refused (`Run.loadsIfThere_throughout`).
-/

namespace DevWorkflow

namespace Settings

open FileTree

/-- Whether settings are loaded from the file at a path, if there is a file; a directory is none. -/
def LoadsIfThere (path : Text) (t : FileTree) : Prop :=
  ∀ content, t.readBytes path = .ok content → ∃ s, (load path).runOn t = (.ok s, t)

/-- What is loaded depends on the file alone. -/
theorem LoadsIfThere.of_readBytes {path : Text} {t t' : FileTree} (h : LoadsIfThere path t)
    (hfile : ∀ content, t'.readBytes path = .ok content → t.readBytes path = .ok content) : LoadsIfThere path t' := by
  intro content hread
  obtain ⟨s, hload⟩ := h content (hfile content hread)
  have hsame : readFrom t' path = readFrom t path := by simp only [readFrom, readText, hread, hfile content hread]
  rw [runOn_load] at hload
  exact ⟨s, by rw [runOn_load, hsame, (Prod.mk.inj hload).1]⟩

/-- Where a text cannot be written out, no file can be read. -/
theorem readBytes_of_writeOut_error {t t' : FileTree} {path text : Text} {e : IoFault}
    (h : (writeOut path text).runOn t = (.error e, t')) (content : ByteArray) : t'.readBytes path ≠ .ok content := by
  rw [writeOut, FileAction.runOn_bind] at h
  rcases hparent : (createParent path).runOn t with ⟨result, t₁⟩
  rw [hparent] at h
  cases result with
  | error e' =>
    obtain ⟨-, rfl⟩ := Prod.mk.inj h
    exact readBytes_of_createParent_error hparent content
  | ok u =>
    simp only [writeText, runOn_writeFile] at h
    cases hwrite : t₁.writeBytes path (Text.encode text) with
    | ok t₂ =>
      rw [hwrite] at h
      cases (Prod.mk.inj h).1
    | error e' =>
      rw [hwrite] at h
      obtain ⟨-, rfl⟩ := Prod.mk.inj h
      exact readBytes_of_writeBytes_error hwrite content

/-- Saving leaves a file that is loaded, or none that could be read, or everything as it was. -/
theorem LoadsIfThere.save {path : Text} {t : FileTree} (h : LoadsIfThere path t) (s : Settings) :
    LoadsIfThere path ((s.save path).runOn t).2 := by
  cases hdefect : s.defect? with
  | some d =>
    have hrefused : s.save path = throw (.ofDefect d) := by simp only [Settings.save, hdefect]
    rw [hrefused]
    exact h
  | none =>
    rcases hsave : (s.save path).runOn t with ⟨result, t'⟩
    cases result with
    | ok u => exact fun content _ => ⟨s, load_of_save hdefect hsave⟩
    | error e =>
      -- The directories that were made before the failure do not lead to a file that was there already.
      rw [runOn_save hdefect] at hsave
      obtain ⟨hresult, rfl⟩ := Prod.mk.inj hsave
      cases hwrite : ((writeOut path s.write).runOn t).1 with
      | ok u =>
        rw [hwrite] at hresult
        have hok : Except.ok u = Except.error e := hresult
        cases hok
      | error e' => exact fun content hread => absurd hread (readBytes_of_writeOut_error (Prod.ext hwrite rfl) content)

/-- Loading settings saves at most the default ones. -/
theorem LoadsIfThere.loadOrCreate {path : Text} {t : FileTree} (h : LoadsIfThere path t) :
    LoadsIfThere path ((Settings.loadOrCreate path).runOn t).2 := by
  rw [runOn_loadOrCreate]
  split
  · exact h
  · exact h.save Settings.default

end Settings

namespace Run

open WorldAction Settings

/-! ## Commands -/

section

variable {s : Session} {path : Text} (hpath : s.settingsPath = path)
include hpath

theorem preserves_sessionSettings : Preserves (LoadsIfThere path) (sessionSettings s) := by
  unfold sessionSettings
  split
  · exact (keepsFiles_pure _).preserves
  · rw [hpath]
    exact preserves_onFiles (fun t h => h.loadOrCreate) _

theorem preserves_loadSettings : Preserves (LoadsIfThere path) (loadSettings s) := by
  unfold loadSettings
  rw [hpath]
  exact preserves_onFiles (fun t h => h.loadOrCreate) _

theorem preserves_saveSettings (settings : Settings) : Preserves (LoadsIfThere path) (saveSettings s settings) := by
  unfold saveSettings
  rw [hpath]
  exact preserves_onFiles (fun t h => h.save settings) _

theorem preserves_configRestore : Preserves (LoadsIfThere path) (configRestore s) :=
  (preserves_saveSettings hpath _).bind fun _ => (keepsFiles_printLine _).preserves

theorem preserves_configReset (yes : Bool) : Preserves (LoadsIfThere path) (configReset s yes) := by
  unfold configReset
  split
  · exact preserves_configRestore hpath
  · split
    · exact (keepsFiles_throw _).preserves
    · split
      · exact (keepsFiles_throw _).preserves
      · exact preserves_configRestore hpath
      · exact (keepsFiles_printLine _).preserves

/-- Whatever is done with the settings, the file is loaded if it is there. -/
theorem preserves_config (c : ConfigCommand) : Preserves (LoadsIfThere path) (config s c) := by
  cases c with
  | get key =>
    refine (preserves_loadSettings hpath).bind fun settings => ?_
    exact ((keepsFiles_require _).bind fun _ => keepsFiles_printLine _).preserves
  | set key value =>
    refine (preserves_loadSettings hpath).bind fun settings => (keepsFiles_require _).preserves.bind fun updated => ?_
    exact (preserves_saveSettings hpath updated).bind fun _ => (keepsFiles_printLine _).preserves
  | list =>
    exact (preserves_loadSettings hpath).bind fun settings => (keepsFiles_forM (fun _ => keepsFiles_printLine _) _).preserves
  | path => exact (keepsFiles_printLine _).preserves
  | reset yes => exact preserves_configReset hpath yes

/-- Whatever command is carried out, installing apart, the settings are loaded if they are there. -/
theorem preserves_command {c : Command} (hc : ∀ dir shell noRc, c ≠ .init dir shell noRc) :
    Preserves (LoadsIfThere path) (command s c) := by
  cases c with
  | completion shell builtIn => exact (keepsFiles_completion shell builtIn).preserves
  | init dir shell noRc => exact absurd rfl (hc dir shell noRc)
  | config c => exact preserves_config hpath c
  | git c => exact (preserves_sessionSettings hpath).bind fun settings => (keepsFiles_git settings c).preserves
  | update check => exact (preserves_sessionSettings hpath).bind fun settings => (keepsFiles_update settings check).preserves
  | agent args => exact (preserves_sessionSettings hpath).bind fun settings => (keepsFiles_agent settings args).preserves

end

/-! ## Histories -/

/-- Whether a command line asks for something else than installing the completions, or for nothing that is understood. -/
def InstallsNothing (argv : List Text) : Prop :=
  ∀ verbose dir shell noRc, Invocation.parse argv ≠ .ok ⟨verbose, .init dir shell noRc⟩

/-- A command line that asks for the settings installs nothing. -/
theorem installsNothing_config (program : Text) (c : ConfigCommand) : InstallsNothing (program :: (Command.config c).words) := by
  intro verbose dir shell noRc h
  rw [Command.parse_command program (c := .config c) trivial] at h
  nomatch h

/-- A run preserves that the settings are loaded if they are there, however it ends. -/
theorem loadsIfThere_run {s : Session} {path : Text} {argv : List Text} {w : World} (h : LoadsIfThere path w.files)
    (hpath : s.settingsPath = path) (hargv : InstallsNothing argv) : LoadsIfThere path (run s argv w).2.files := by
  cases hparse : Invocation.parse argv with
  | error e =>
    rw [run, hparse]
    exact h
  | ok i =>
    have hcommand := preserves_command hpath (c := i.command) (fun dir shell noRc hc =>
      hargv i.verbose dir shell noRc (by rw [hparse, ← hc])) w h
    rw [run_of_parse hparse]
    rcases hrun : (command s i.command).runOn w with ⟨result, w'⟩
    rw [hrun] at hcommand
    cases result <;> exact hcommand

/-- What can have happened to a world with the settings at a path: runs of the program with that path, which do not install the
completions, and whatever else changes the world without writing the settings. -/
inductive History (path : Text) (start : World) : World → Prop
  | start : History path start start
  | run {w : World} {s : Session} {argv : List Text} : History path start w → s.settingsPath = path → InstallsNothing argv →
      History path start (run s argv w).2
  | elsewhere {w w' : World} : History path start w →
      (∀ content, w'.files.readBytes path = .ok content → w.files.readBytes path = .ok content) → History path start w'

/-- If at first there is no settings file, or one that is loaded, then at every later time there is none, or one that is loaded:
nothing is ever written that would be refused. -/
theorem loadsIfThere_throughout {path : Text} {start w : World} (hstart : LoadsIfThere path start.files)
    (h : History path start w) : LoadsIfThere path w.files := by
  induction h with
  | start => exact hstart
  | run _ hpath hargv ih => exact loadsIfThere_run ih hpath hargv
  | elsewhere _ hfile ih => exact ih.of_readBytes hfile

/-- The command line that goes back to the default settings. -/
def resetLine : List Text := ["devx".toList, "config".toList, "reset".toList, "--yes".toList]

/-- The hand-written settings are loaded, and so is what stands in the file after it was changed and reset. -/
theorem loadsIfThere_throughout_bell :
    LoadsIfThere "hand.json".toList handWorld.files ∧
      LoadsIfThere "hand.json".toList (run handSession resetLine (run handSession unsignLine handWorld).2).2.files := by
  have hset : InstallsNothing unsignLine :=
    installsNothing_config "devx".toList (.set SettingKey.gitSignCommits.name "off".toList)
  have hreset : InstallsNothing resetLine := installsNothing_config "devx".toList (.reset true)
  have hstart : LoadsIfThere "hand.json".toList handWorld.files := by
    intro content hread
    exact ⟨bellSettings, by rw [runOn_load, handWorld, readFrom_bellTree]⟩
  exact ⟨hstart, loadsIfThere_throughout hstart (.run (.run .start rfl hset) rfl hreset)⟩

end Run

end DevWorkflow
