import DevWorkflow.CommandLine.Parse
import DevWorkflow.Run.Completion
import DevWorkflow.Run.Git
import DevWorkflow.Run.Launch
import DevWorkflow.Run.Settings

/-!
# Carrying out commands

Commands that start programs need settings, which are loaded before anything else is done.
-/

namespace DevWorkflow

open WorldAction

namespace Run

/-- The settings of a session, or those in the file. -/
def sessionSettings (s : Session) : WorldAction Settings :=
  match s.settings with
  | some settings => pure settings
  | none =>
    onFiles (fun e => Fault.config ("Failed to load config: ".toList ++ e.message))
      (Settings.loadOrCreate s.settingsPath)

/-- Carries out a command. -/
def command (s : Session) : Command → WorldAction Unit
  | .completion shell builtIn => completion shell builtIn
  | .init dir shell noRc => init s dir shell noRc
  | .config c => config s c
  | .git c => do git (← sessionSettings s) c
  | .update check => do update (← sessionSettings s) check
  | .agent args => do agent (← sessionSettings s) args

/-- How a run ends. -/
inductive Outcome where
  | done
  /-- The command line could not be read. -/
  | usage (error : UsageError)
  | failed (fault : Fault)
deriving DecidableEq, Repr

/-- A run of the program with a command line: how it ends, and the world after it. -/
def run (s : Session) (argv : List Text) (w : World) : Outcome × World :=
  match Invocation.parse argv with
  | .error e => (.usage e, w)
  | .ok invocation =>
    match (command s invocation.command).run.run w with
    | (.ok (), w') => (.done, w')
    | (.error fault, w') => (.failed fault, w')

end Run

end DevWorkflow
