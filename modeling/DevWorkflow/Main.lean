import DevWorkflow.Run.Command
import DevWorkflow.Run.Footprint
import DevWorkflow.Run.TimeStamp
import Std.Time.Zoned

/-!
# The command line program

Copies what a run looks at into a file tree, runs, prints what the run prints, and writes back the files that it changed. Programs
are not started from here: every program counts as missing.
-/

namespace DevWorkflow

namespace Program

/-- The variables of the environment that a run looks at. -/
def variableNames : List String :=
  ["HOME", "SHELL", "DEVX_CONFIG_PATH", "XDG_CONFIG_HOME", "XDG_DATA_HOME", "CI", "DEVX_NON_INTERACTIVE"]

/-- The text of a place in the file system. -/
def pathOf (place : List Text) : String := String.ofList ('/' :: Text.join ['/'] place)

/-- What stands at a place in the file system. -/
def probe (place : List Text) : IO (Option FileEntry) := do
  try
    let content ← IO.FS.readBinFile (pathOf place)
    pure (some (.file content))
  catch
    | .noFileOrDirectory .. => pure none
    | .inappropriateType .. => pure (some .directory)
    | e => throw e

/-- The part of the file system at some places, as a file tree. -/
def snapshot (workingDirectory : List Text) (places : List (List Text)) : IO FileTree := do
  let mut tree : FileTree := { workingDirectory }
  for place in places do
    if !place.isEmpty then
      match ← probe place with
      | some entry => tree := tree.put place entry
      | none => pure ()
  pure tree

/-- Makes the directories and writes the files that a run changed. -/
def writeBack (before after : FileTree) : IO Unit := do
  for (place, entry) in after.entries do
    if before.lookup place ≠ some entry then
      match entry with
      | .directory => IO.FS.createDirAll (pathOf place)
      | .file content => IO.FS.writeBinFile (pathOf place) content

/-- The date and time of the clock. -/
def clockTime : IO ClockTime := do
  let now ← Std.Time.PlainDateTime.now
  pure
    { year := now.year.toInt.toNat, month := now.month.toNat, day := now.day.toNat, hour := now.hour.toNat
      minute := now.minute.toNat, second := now.second.toNat }

/-- The session in which the program was started. -/
def session : IO Session := do
  let mut environment : List (Text × Text) := []
  for name in variableNames do
    match ← IO.getEnv name with
    | some value => environment := environment ++ [(name.toList, value.toList)]
    | none => pure ()
  let terminal := if ← (← IO.getStdin).isTty then Terminal.mute else Terminal.none
  pure { environment, terminal, accountHome := ".".toList, timeStamp := (← clockTime).render }

/-- Runs the program with a command line that was read, and gives its exit code. -/
def runCommand (argv : List Text) (c : Command) : IO UInt32 := do
  let s ← session
  let workingDirectory := FilePath.parts (← IO.currentDir).toString.toList
  let before ← snapshot workingDirectory (Footprint.places workingDirectory s c)
  let (outcome, after) := Run.run s argv { files := before }
  writeBack before after.files
  (← IO.getStdout).write after.printed
  match outcome with
  | .failed fault =>
    (← IO.getStderr).putStrLn (String.ofList (programName ++ ": ".toList ++ fault.message))
    pure 1
  | .usage e => pure (UInt32.ofNat e.exitCode)
  | .done => pure 0

/-- Reads the command line and carries out what it asks for. -/
def start (args : List Text) : IO UInt32 := do
  let argv := programName :: args
  match Invocation.parse argv with
  | .ok invocation => runCommand argv invocation.command
  | .error .displayVersion =>
    IO.println (String.ofList (Text.join [' '] [programName, programVersion]))
    pure 0
  | .error e =>
    (← IO.getStderr).putStrLn (String.ofList e.message)
    pure (UInt32.ofNat e.exitCode)

end Program

end DevWorkflow

/-- Runs the program with the words after its name. -/
def main (args : List String) : IO UInt32 := DevWorkflow.Program.start (args.map String.toList)
