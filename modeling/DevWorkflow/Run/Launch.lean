import DevWorkflow.CommandLine.Launch
import DevWorkflow.Program
import DevWorkflow.World

/-!
# Commands that start configured programs
-/

namespace DevWorkflow

open WorldAction

namespace Run

/-- Starts a program; its output is printed. -/
def launch (l : Launch) : WorldAction Unit := do
  match ← startPrinting l.program l.args with
  | .error e => throw (.process l.display e.message)
  | .ok exit =>
    if exit.isSuccess then pure () else throw (.process l.display ("exited with status ".toList ++ exit.render))

/-- The program that starts the coding agent with some arguments. -/
def agentLaunch (settings : Settings) (args : List Text) : Except Fault Launch :=
  (Launch.ofLine settings.agentCommand).map fun l => l.extend args

/-- Starts the coding agent. -/
def agent (settings : Settings) (args : List Text) : WorldAction Unit := do
  launch (← require (agentLaunch settings args))

/-- Updates the program, or says how. -/
def update (settings : Settings) (check : Bool) : WorldAction Unit := do
  let l ← require (Launch.ofLine settings.updateCommand)
  if check then
    printLine (programName ++ " ".toList ++ programVersion)
    printLine ("Update command: ".toList ++ settings.updateCommand)
  else
    launch l
    printLine ("✅ ".toList ++ programName ++ " updated".toList)

end Run

end DevWorkflow
