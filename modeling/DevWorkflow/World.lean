import DevWorkflow.FileTree
import DevWorkflow.Settings.Basic

/-!
# What a command acts on

A command is carried out in a session, which it can only look at, and on a world, which it changes: files, what has been printed,
and the programs that it starts. Every program answers from a script of its own, so that what a command does depends on the world
alone.
-/

namespace DevWorkflow

/-- How a program ended. -/
inductive Exit where
  | code (n : Nat)
  /-- A signal ended it. -/
  | killed
deriving DecidableEq, Repr

namespace Exit

/-- Whether the program succeeded. -/
def isSuccess (e : Exit) : Bool := e = .code 0

/-- The exit code as it is reported. -/
def render : Exit → Text
  | code n => Text.decimal n
  | killed => "-1".toList

end Exit

/-- What a program does when it is started. -/
structure Response where
  stdout : ByteArray := .empty
  stderr : ByteArray := .empty
  exit : Exit := .code 0

/-- A program that can be started, with its next responses; the last one stands for all later ones. -/
structure InstalledProgram where
  name : Text
  responses : List Response

/-- What the keyboard is. -/
inductive Terminal where
  /-- Standard input is no terminal. -/
  | none
  /-- Standard input is a terminal, but a question cannot be shown. -/
  | mute
  /-- Questions can be shown, and these keys are typed. -/
  | typing (keys : Text)
deriving DecidableEq, Repr

/-- What a command can only look at. -/
structure Session where
  /-- The variables of the environment. -/
  environment : List (Text × Text) := []
  /-- The home directory of the account, for an environment that names none. -/
  accountHome : Text := []
  terminal : Terminal := .none
  /-- The date and time, as they stand in names of backups. -/
  timeStamp : Text := []
  /-- Settings to use in place of those in the file. -/
  settings : Option Settings := .none

namespace Session

/-- The value of a variable of the environment. -/
def valueOf? (s : Session) (name : Text) : Option Text := (s.environment.find? fun v => v.1 = name).map (·.2)

/-- The home directory. -/
def home (s : Session) : Text :=
  match s.valueOf? "HOME".toList with
  | some path => if path.isEmpty then s.accountHome else path
  | none => s.accountHome

/-- The directory that a variable names if its value is absolute, or else a place below the home directory. -/
def baseDirectory (s : Session) (variableName belowHome : Text) : Text :=
  match s.valueOf? variableName with
  | some path => if FilePath.isAbsolute path then path else FilePath.join s.home belowHome
  | none => FilePath.join s.home belowHome

/-- Where the settings are kept. -/
def settingsPath (s : Session) : Text :=
  match s.valueOf? "DEVX_CONFIG_PATH".toList with
  | some path => path
  | none =>
    FilePath.join (FilePath.join (s.baseDirectory "XDG_CONFIG_HOME".toList ".config".toList) "devx".toList)
      "config.json".toList

/-- Where the completion scripts are put if nothing is said. -/
def completionsDirectory (s : Session) : Text :=
  FilePath.join (FilePath.join (s.baseDirectory "XDG_DATA_HOME".toList ".local/share".toList) "devx".toList)
    "completions".toList

/-- Whether nobody can be asked. -/
def isNonInteractive (s : Session) : Bool :=
  (s.valueOf? "DEVX_NON_INTERACTIVE".toList).isSome || (s.valueOf? "CI".toList).isSome || s.terminal = .none

end Session

/-- What a command changes. -/
structure World where
  files : FileTree := {}
  /-- What has been printed. -/
  printed : ByteArray := .empty
  /-- The programs that have been started, each with its arguments, in order. -/
  started : List (List Text) := []
  /-- The programs that can be started. -/
  programs : List InstalledProgram := []

/-- An action on a world that may fail. -/
abbrev WorldAction (α : Type) := ExceptT Fault (StateM World) α

namespace WorldAction

/-- Prints a text. -/
def print (t : Text) : WorldAction Unit := modify fun w => { w with printed := w.printed ++ Text.encode t }

/-- Prints a text and ends the line. -/
def printLine (t : Text) : WorldAction Unit := print (t ++ ['\n'])

/-- Carries out an action on the files of the world. -/
def onFiles {ε α : Type} (toFault : ε → Fault) (action : FileAction ε α) : WorldAction α := fun w =>
  let (result, files) := action.run.run w.files
  (result.mapError toFault, { w with files })

/-- Fails if there is a fault. -/
def require {α : Type} (result : Except Fault α) : WorldAction α := fun w => (result, w)

/-- The next response of a program and the programs with their responses after that; none if there is no such program. -/
def respond (name : Text) : List InstalledProgram → Option (Response × List InstalledProgram)
  | [] => none
  | p :: rest =>
    if p.name = name then
      match p.responses with
      | [] => some ({}, p :: rest)
      | [r] => some (r, p :: rest)
      | r :: later => some (r, { p with responses := later } :: rest)
    else (respond name rest).map fun next => (next.1, p :: next.2)

/-- Why a program that is not installed cannot be started. A name with a slash is a path, and nothing in a file tree can be
started; any other name is looked up among the installed programs, where the directory that holds them has the names `.` and `..`
too. -/
def whyNotStarted (files : FileTree) (program : Text) : IoFault :=
  if program.any (· = '/') then
    match files.locate program with
    | .error e => e
    | .ok place =>
      match files.lookup place with
      | none => .notFound
      | some .directory => .permissionDenied
      | some (.file _) => if FileTree.endsWithSlash program then .notADirectory else .permissionDenied
  else if program = ['.'] || program = "..".toList then .permissionDenied
  else if FileTree.longestName < (Text.encode program).size then .nameTooLong
  else .notFound

/-- Starts a program and waits for its end. -/
def start (program : Text) (args : List Text) : WorldAction (Except IoFault Response) := fun w =>
  if (program :: args).any fun word => word.any fun c => c.toNat = 0 then (.ok (.error .nulInWord), w)
  else
    match respond program w.programs with
    | none => (.ok (.error (whyNotStarted w.files program)), w)
    | some (r, programs) => (.ok (.ok r), { w with programs, started := w.started ++ [program :: args] })

/-- Starts a program whose output is printed, and waits for its end. -/
def startPrinting (program : Text) (args : List Text) : WorldAction (Except IoFault Exit) := do
  match ← start program args with
  | .error e => pure (.error e)
  | .ok r =>
    modify fun w => { w with printed := w.printed ++ r.stdout }
    pure (.ok r.exit)

end WorldAction

end DevWorkflow
