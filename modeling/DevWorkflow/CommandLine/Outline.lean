import DevWorkflow.CommandLine.Declaration

/-!
# Outlines of command lines

The first step of reading a command line: which argument each word belongs to. An outline lists, for each command on the line,
the arguments given to it in order, up to the end of the line or to a word that belongs to nothing. Whether the arguments may be
given like that is decided afterwards, in `DevWorkflow.CommandLine.Parse`.

A word is an option if it starts with a dash and is longer than one, unless only positional words follow: after the word `--`,
or once an argument that takes all remaining words has its first one.
-/

namespace DevWorkflow

/-- Why a command line cannot be read, or what is shown in its place. -/
inductive UsageError where
  | displayHelp
  | displayVersion
  /-- Nothing was given where a subcommand is needed, so help is shown. -/
  | helpOnMissing
  | missingSubcommand
  | invalidSubcommand
  | unknownArgument
  | invalidValue
  | missingArgument
  /-- An argument was given twice. -/
  | conflict
  /-- A value was given to an option that takes none. -/
  | tooManyValues
deriving DecidableEq, Repr

namespace UsageError

/-- The error in words. -/
def message : UsageError → Text
  | displayHelp => "help was asked for".toList
  | displayVersion => "the version was asked for".toList
  | helpOnMissing => "a subcommand is needed".toList
  | missingSubcommand => "a subcommand is missing".toList
  | invalidSubcommand => "there is no such subcommand".toList
  | unknownArgument => "there is no such argument".toList
  | invalidValue => "a value is missing or not allowed".toList
  | missingArgument => "an argument is missing".toList
  | conflict => "an argument was given twice".toList
  | tooManyValues => "a value was given to an option that takes none".toList

/-- The exit code that goes with the error: showing help or the version on request is a success. -/
def exitCode : UsageError → Nat
  | displayHelp | displayVersion => 0
  | _ => 2

end UsageError

/-- An argument on a command line. -/
structure Occurrence where
  arg : ArgDeclaration
  /-- The value given. -/
  value : Option Text
  /-- Whether the value is part of the word that names the option. -/
  attached : Bool
deriving DecidableEq, Repr

/-- Which arguments are given to each command on a line. -/
inductive Outline where
  /-- The line ends. -/
  | ends (command : Declaration) (given : List Occurrence)
  /-- The line cannot be read further. -/
  | stops (command : Declaration) (given : List Occurrence) (error : UsageError)
  /-- A subcommand follows. -/
  | enters (command : Declaration) (given : List Occurrence) (below : Outline)

namespace Outline

/-- The command whose words come first. -/
def command : Outline → Declaration
  | ends d _ => d
  | stops d _ _ => d
  | enters d _ _ => d

/-- The outline with more arguments in front. -/
def give (before : List Occurrence) : Outline → Outline
  | ends d given => ends d (before ++ given)
  | stops d given e => stops d (before ++ given) e
  | enters d given below => enters d (before ++ given) below

end Outline

/-- What a word looks like. -/
inductive WordShape where
  /-- The word `--`. -/
  | dashes
  /-- `--name` or `--name=value`. -/
  | long (name : Text) (value : Option Text)
  /-- A dash and letters. -/
  | short (letters : Text)
  /-- Anything else. -/
  | plain
deriving DecidableEq, Repr

namespace WordShape

/-- The name and the value on the two sides of the first equals sign. -/
def splitValue (t : Text) : Text × Option Text :=
  match t.dropWhile (· ≠ '=') with
  | [] => (t, none)
  | _ :: value => (t.takeWhile (· ≠ '='), some value)

/-- What a word looks like. -/
def of : Text → WordShape
  | ['-', '-'] => dashes
  | '-' :: '-' :: rest => long (splitValue rest).1 (splitValue rest).2
  | '-' :: c :: rest => short (c :: rest)
  | _ => plain

end WordShape

/-- Where the reader of a command's words stands. -/
structure Reader where
  /-- The positional arguments that can still be given. -/
  positionals : List ArgDeclaration
  /-- The option whose value is the next word. -/
  awaiting : Option ArgDeclaration := none
  /-- Whether only positional words follow. -/
  onlyPositional : Bool := false

namespace Reader

/-- The reader at a command's first word. -/
def start (d : Declaration) : Reader := { positionals := d.positionals }

/-- Whether a word that looks like an option may be a value of the next positional argument. -/
def allowsHyphens (r : Reader) : Bool :=
  match r.positionals with
  | a :: _ => a.allowHyphenValues
  | [] => false

/-- The option whose value did not come, if the reader waits for one. -/
def unanswered (r : Reader) : List Occurrence := (r.awaiting.map fun a => ⟨a, none, false⟩).toList

end Reader

/-- What follows a word. -/
inductive Continuation where
  /-- More words of the same command. -/
  | more (r : Reader)
  /-- The words of a subcommand. -/
  | enter (d : Declaration)
  /-- Nothing: the line cannot be read further. -/
  | stop (error : UsageError)

namespace Declaration

/-- Reads a word as a positional argument. An argument that takes all remaining words stays in place for the next one. -/
def readPositional (d : Declaration) (r : Reader) (w : Text) : List Occurrence × Continuation :=
  match r.positionals with
  | a :: rest =>
    let r' : Reader := { r with onlyPositional := r.onlyPositional || a.takesRest }
    ([⟨a, some w, false⟩], .more (if a.effectiveAction = .append then r' else { r' with positionals := rest }))
  | [] =>
    if d.subcommands.isEmpty || (r.onlyPositional && (d.child? w).isSome) then ([], .stop .unknownArgument)
    else ([], .stop .invalidSubcommand)

/-- Reads the letters after a dash: each is an option without a value, up to one that takes the rest as its value. -/
def readLetters (d : Declaration) (r : Reader) : Text → List Occurrence × Continuation
  | [] => ([], .more r)
  | c :: rest =>
    match d.short? c with
    | none => ([], .stop .unknownArgument)
    | some a =>
      if a.takesValues then
        match rest with
        | [] => ([], .more { r with awaiting := some a })
        | '=' :: value => ([⟨a, some value, true⟩], .more r)
        | value => ([⟨a, some value, true⟩], .more r)
      else
        let (given, next) := d.readLetters r rest
        (⟨a, none, true⟩ :: given, next)

/-- Reads a word that looks like a long option. -/
def readLong (d : Declaration) (r : Reader) (w name : Text) (value : Option Text) : List Occurrence × Continuation :=
  match d.long? name with
  | some a =>
    if a.takesValues then
      match value with
      | some v => ([⟨a, some v, true⟩], .more r)
      | none => ([], .more { r with awaiting := some a })
    else
      match value with
      | some _ => ([], .stop .tooManyValues)
      | none => ([⟨a, none, true⟩], .more r)
  | none => if r.allowsHyphens then d.readPositional r w else ([], .stop .unknownArgument)

/-- What becomes of the words after the command `help`: they have to lead to a command. -/
def helpError (d : Declaration) (ws : List Text) : UsageError :=
  if (d.find? ws).isSome then .displayHelp else .invalidSubcommand

/-- Reads a word for which no option waits, given the words after it. -/
def readFree (d : Declaration) (r : Reader) (w : Text) (later : List Text) : List Occurrence × Continuation :=
  if r.onlyPositional then d.readPositional r w
  else
    match d.child? w with
    | some c => if c.name = helpCommand.name then ([], .stop (d.helpError later)) else ([], .enter c)
    | none =>
      match WordShape.of w with
      | .dashes => ([], .more { r with onlyPositional := true })
      | .long name value => d.readLong r w name value
      | .short letters =>
        if r.allowsHyphens && letters.any fun c => (d.short? c).isNone then d.readPositional r w
        else d.readLetters r letters
      | .plain => d.readPositional r w

/-- Reads a word, given the words after it. -/
def readWord (d : Declaration) (r : Reader) (w : Text) (later : List Text) : List Occurrence × Continuation :=
  match r.awaiting with
  | some a =>
    if WordShape.of w = .plain then ([⟨a, some w, false⟩], .more { r with awaiting := none })
    else
      let (given, next) := d.readFree { r with awaiting := none } w later
      (r.unanswered ++ given, next)
  | none => d.readFree r w later

/-- The outline of some words of a command. -/
def outlineFrom (d : Declaration) (r : Reader) : List Text → Outline
  | [] => .ends d r.unanswered
  | w :: ws =>
    match d.readWord r w ws with
    | (given, .more r') => (d.outlineFrom r' ws).give given
    | (given, .enter c) => .enters d given (c.outlineFrom (.start c) ws)
    | (given, .stop e) => .stops d given e

/-- The outline of the words after the name of a resolved command. -/
def outline (d : Declaration) (ws : List Text) : Outline := d.outlineFrom (.start d) ws

end Declaration

end DevWorkflow
