import DevWorkflow.CommandLine.Interface
import DevWorkflow.Completion.BuiltIn
import DevWorkflow.Completion.Install
import DevWorkflow.Completion.Survey
import DevWorkflow.Run.Prompt

/-!
# Commands on completions
-/

namespace DevWorkflow

open WorldAction

namespace Run

/-- The tree of the program's own commands, as they are declared. -/
def declaredTree : CommandTree := Interface.declaration.survey

/-- Fails if a tree is not valid. -/
def requireValid (t : CommandTree) : WorldAction Unit := require (failOn TreeDefect.toFault t.defect?)

/-- Prints a completion script. -/
def completion (shell : Shell) (builtIn : Bool) : WorldAction Unit := do
  let t := if builtIn then BuiltIn.tree else declaredTree
  requireValid t
  print (shell.script t)

/-- The shell that a path to its program names. -/
def shellOfProgram? (path : Text) : Option Shell := (FilePath.fileName? path).bind Shell.ofName?

/-- Finds out which shell the user has, from the environment or by asking. -/
def detectShell (s : Session) : WorldAction Shell :=
  match (s.valueOf? "SHELL".toList).bind shellOfProgram? with
  | some shell => pure shell
  | none =>
    if s.isNonInteractive then
      throw (.config "Cannot detect shell in non-interactive mode. Pass --shell explicitly.".toList)
    else do
      printLine "Unable to detect shell automatically.".toList
      match Prompt.answer (Prompt.selection? Shell.all.length 0) s.terminal with
      | .error e => throw (.config ("Failed to get shell selection: ".toList ++ e.report))
      | .ok chosen =>
        match Shell.all[chosen]? with
        | some shell => pure shell
        | none => throw (.invalidArgs ("Invalid shell selection ".toList ++ Text.decimal chosen))

/-- Hooks the scripts in a directory into a shell's start-up file, unless they are hooked in already. -/
def hook (s : Session) (directory : Text) (shell : Shell) : WorldAction Unit := do
  let path := Install.startupFile s.home shell
  printLine ("\nDetected shell: ".toList ++ shell.title)
  printLine ("Config file: ".toList ++ path)
  if ← onFiles .io (Install.hasHook path) then
    printLine "\n✓ devx completions are already hooked into your shell.".toList
    printLine "  If completions aren't working, try reloading your shell.".toList
  else
    match ← onFiles id (Install.backUp path s.timeStamp) with
    | some backup => printLine ("Created backup: ".toList ++ backup)
    | none => pure ()
    onFiles .io (Install.addHook path directory shell)
    printLine "\n✓ Completions installed successfully!".toList
    printLine "\nTo activate completions, run:".toList
    printLine ("  source ".toList ++ path)
    printLine "\nOr restart your terminal.".toList

/-- Writes the completion scripts and hooks them into a shell's start-up file. -/
def init (s : Session) (dir : Option Text) (shell : Option Shell) (noRc : Bool) : WorldAction Unit := do
  let directory := dir.getD s.completionsDirectory
  requireValid declaredTree
  let written ← onFiles .io (Install.writeScripts directory declaredTree)
  printLine ("Wrote completion scripts to ".toList ++ directory ++ ":".toList)
  written.forM fun path => printLine ("  ".toList ++ path)
  if noRc then pure ()
  else
    let chosen ← match shell with
      | some shell => pure shell
      | none => detectShell s
    hook s directory chosen

end Run

end DevWorkflow
