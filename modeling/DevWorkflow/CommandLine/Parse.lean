import DevWorkflow.CommandLine.Command
import DevWorkflow.CommandLine.Interface
import DevWorkflow.CommandLine.Outline

/-!
# Reading command lines

The second step of reading a command line: whether the arguments of an outline may be given like that, and which command they
make. A value that stands as a word of its own is looked at only when something else is read after it, so that a word that
belongs to nothing is reported before a fault of the value right in front of it; all other faults are reported in order.
-/

namespace DevWorkflow

namespace Occurrence

/-- Whether the argument is looked at only when something else is read after it. -/
def isDeferred (o : Occurrence) : Bool := !o.attached

/-- What is wrong with an argument, given those before it. -/
def error? (before : List Occurrence) (o : Occurrence) : Option UsageError :=
  match o.arg.effectiveAction with
  | .help | .helpShort | .helpLong => some .displayHelp
  | .version => some .displayVersion
  | .append | .count => none
  | .setTrue | .setFalse => if before.any fun b => b.arg.id = o.arg.id then some .conflict else none
  | .set =>
    match o.value with
    | none => some .invalidValue
    | some v =>
      if before.any fun b => b.arg.id = o.arg.id then some .conflict
      else if o.arg.effectiveValues.accepts v then none
      else some .invalidValue

end Occurrence

namespace UsageError

/-- The first error among arguments, given those before them and the error at which the line stops after them. -/
def firstAmong (before : List Occurrence) (stop : Option UsageError) : List Occurrence → Option UsageError
  | [] => stop
  | o :: rest =>
    match o.error? before with
    | some e => if rest.isEmpty && o.isDeferred && stop.isSome then stop else some e
    | none => firstAmong (before ++ [o]) stop rest

end UsageError

/-- The arguments given to each command on a line, with the names of the subcommands. -/
structure Given where
  /-- The subcommands entered, from the top. -/
  path : List Text
  /-- The arguments given to the last command. -/
  last : List Occurrence
  /-- The arguments given to the commands above it. -/
  above : List Occurrence
deriving DecidableEq, Repr

namespace Given

/-- The value of an argument of the last command. -/
def value? (g : Given) (id : Text) : Option Text := (g.last.find? fun o => o.arg.id = id).bind (·.value)

/-- All values of an argument of the last command. -/
def values (g : Given) (id : Text) : List Text := (g.last.filter fun o => o.arg.id = id).filterMap (·.value)

/-- Whether an argument is given to the last command. -/
def has (g : Given) (id : Text) : Bool := g.last.any fun o => o.arg.id = id

/-- Whether an argument is given to some command on the line. -/
def hasAnywhere (g : Given) (id : Text) : Bool := g.has id || g.above.any fun o => o.arg.id = id

/-- The command that stands at the end of the path; `none` if an argument that it needs is missing. -/
def command? (g : Given) : Option Command :=
  let value (id : String) := g.value? id.toList
  let has (id : String) := g.has id.toList
  match g.path.map String.ofList with
  | ["init"] => some (.init (value "dir") ((value "shell").bind Shell.ofName?) (has "no_rc"))
  | ["config", "get"] => (value "key").map fun key => .config (.get key)
  | ["config", "set"] => (value "key").bind fun key => (value "value").map fun value => .config (.set key value)
  | ["config", "list"] => some (.config .list)
  | ["config", "path"] => some (.config .path)
  | ["config", "reset"] => some (.config (.reset (has "yes")))
  | ["git", "commit"] =>
    (value "message").map fun summary =>
      .git (.commit
        { type := (value "type").bind CommitType.ofName?, scope := value "scope", summary
          breaking := has "breaking", all := has "all" })
  | ["git", "branch"] => some (.git (.branch (value "name")))
  | ["git", "checkout"] => (value "branch").map fun branch => .git (.checkout branch)
  | ["git", "push"] => some (.git (.push (value "remote") (g.values "args".toList)))
  | ["git", "pull"] => some (.git (.pull (has "rebase")))
  | ["git", "worktree", "add"] => (value "branch").map fun branch => .git (.worktree (.add branch (value "path")))
  | ["git", "worktree", "list"] => some (.git (.worktree .list))
  | ["git", "worktree", "remove"] =>
    (value "branch").map fun branch => .git (.worktree (.remove branch (has "force")))
  | ["update"] => some (.update (has "check"))
  | ["agent"] => some (.agent (g.values "args".toList))
  | ["completion"] =>
    ((value "shell").bind Shell.ofName?).map fun shell => .completion shell (has "use_static")
  | _ => none

end Given

namespace Outline

/-- The arguments of an outline, if they may be given like that. -/
def check : Outline → Except UsageError Given
  | ends d given =>
    match UsageError.firstAmong [] none given with
    | some e => .error e
    | none =>
      if d.subcommands.isEmpty then .ok ⟨[], given, []⟩
      else .error (if given.isEmpty then .helpOnMissing else .missingSubcommand)
  | stops _ given stop => .error ((UsageError.firstAmong [] (some stop) given).getD stop)
  | enters _ given below =>
    match UsageError.firstAmong [] none given with
    | some e => .error e
    | none =>
      match below.check with
      | .error e => .error e
      | .ok g => .ok { g with path := below.command.name :: g.path, above := given ++ g.above }

end Outline

namespace Invocation

/-- The program's resolved command line. -/
def grammar : Declaration := Interface.declaration.resolve

/-- The command that the words after the program's name ask for. -/
def ofWords (ws : List Text) : Except UsageError Invocation :=
  match (grammar.outline ws).check with
  | .error e => .error e
  | .ok g =>
    match g.command? with
    | some command => .ok ⟨g.hasAnywhere "verbose".toList, command⟩
    | none => .error .missingArgument

/-- The command that a command line asks for; the first word is the name under which the program is called. -/
def parse (argv : List Text) : Except UsageError Invocation := ofWords argv.tail

end Invocation

end DevWorkflow
