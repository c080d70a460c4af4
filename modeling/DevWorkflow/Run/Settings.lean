import DevWorkflow.CommandLine.Command
import DevWorkflow.Run.Prompt
import DevWorkflow.Settings.Store

/-!
# Commands on the settings
-/

namespace DevWorkflow

open WorldAction

namespace Run

/-- Loads the settings, after the defaults are written if there are none. -/
def loadSettings (s : Session) : WorldAction Settings :=
  onFiles SettingsError.toFault (Settings.loadOrCreate s.settingsPath)

/-- Saves settings. -/
def saveSettings (s : Session) (settings : Settings) : WorldAction Unit :=
  onFiles SettingsError.toFault (settings.save s.settingsPath)

/-- Prints the value of a key. -/
def configGet (s : Session) (key : Text) : WorldAction Unit := do
  let settings ← loadSettings s
  let value ← require ((settings.getValue key).mapError SettingsError.toFault)
  printLine value.render

/-- Changes the value of a key. -/
def configSet (s : Session) (key value : Text) : WorldAction Unit := do
  let settings ← loadSettings s
  let updated ← require ((settings.setValue key value).mapError SettingsError.toFault)
  saveSettings s updated
  printLine ("✅ Set ".toList ++ key ++ " = ".toList ++ value)

/-- The line that shows the value of a key. -/
def settingLine (settings : Settings) (key : SettingKey) : Text :=
  key.name ++ " = ".toList ++ (settings.get key).render

/-- Prints the value of every key. -/
def configList (s : Session) : WorldAction Unit := do
  let settings ← loadSettings s
  SettingKey.all.forM fun key => printLine (settingLine settings key)

/-- Goes back to the default settings. -/
def configRestore (s : Session) : WorldAction Unit := do
  saveSettings s .default
  printLine "✅ Configuration reset to defaults".toList

/-- Goes back to the default settings, if the user agrees or has agreed before. -/
def configReset (s : Session) (yes : Bool) : WorldAction Unit :=
  if yes then configRestore s
  else if s.isNonInteractive then
    throw (.invalidArgs "Cannot reset configuration in non-interactive mode. Pass --yes to confirm.".toList)
  else
    match Prompt.answer Prompt.confirmation? s.terminal with
    | .error e => throw (.config ("Failed to read confirmation: ".toList ++ e.report))
    | .ok true => configRestore s
    | .ok false => printLine "Reset cancelled".toList

/-- Carries out a command on the settings. -/
def config (s : Session) : ConfigCommand → WorldAction Unit
  | .get key => configGet s key
  | .set key value => configSet s key value
  | .list => configList s
  | .path => printLine s.settingsPath
  | .reset yes => configReset s yes

end Run

end DevWorkflow
