import DevWorkflow.Text

/-!
# Declarations of command lines

A command line is declared as a tree of commands with their arguments. An argument with a long or a short form is an option; any
other one is positional. `Declaration.resolve` turns what was declared into what each command takes: it copies global arguments
into the commands below, and adds the options `--help` and `--version` and the command `help`.
-/

namespace DevWorkflow

/-- What happens when an argument is read. -/
inductive ArgAction where
  /-- Its value is kept; it may be given once. -/
  | set
  /-- Its values are kept; it may be given again. -/
  | append
  /-- It takes no value and stands for yes. -/
  | setTrue
  /-- It takes no value and stands for no. -/
  | setFalse
  /-- It takes no value and is counted. -/
  | count
  /-- Help is shown. -/
  | help
  /-- Short help is shown. -/
  | helpShort
  /-- Long help is shown. -/
  | helpLong
  /-- The version is shown. -/
  | version
deriving DecidableEq, Repr

namespace ArgAction

/-- Whether an argument with this action takes values. -/
def takesValues : ArgAction → Bool
  | set | append => true
  | _ => false

/-- Whether reading the argument ends the reading with help or the version. -/
def isInformative : ArgAction → Bool
  | help | helpShort | helpLong | version => true
  | _ => false

end ArgAction

/-- How many words an argument takes; without `most` there is no upper bound. -/
structure WordCount where
  least : Nat
  most : Option Nat
deriving DecidableEq, Repr

namespace WordCount

/-- No words. -/
def zero : WordCount := ⟨0, some 0⟩

/-- The given number of words. -/
def exactly (n : Nat) : WordCount := ⟨n, some n⟩

/-- Whether there is no upper bound. -/
def isUnbounded (c : WordCount) : Bool := c.most.isNone

/-- Whether any word may be taken. -/
def allowsAny (c : WordCount) : Bool := c.most ≠ some 0

/-- Whether more than one word may be taken. -/
def allowsSeveral (c : WordCount) : Bool :=
  match c.most with
  | some n => 1 < n
  | none => true

end WordCount

/-- A value that an argument allows. -/
structure AllowedValue where
  name : Text
  /-- Whether the value is left out of listings. -/
  hidden : Bool := false
deriving DecidableEq, Repr

/-- Which values an argument takes. -/
inductive ValueKind where
  /-- Any text. -/
  | any
  /-- Any text that is not empty. -/
  | nonEmpty
  /-- One of the listed values. -/
  | oneOf (values : List AllowedValue)
deriving DecidableEq, Repr

namespace ValueKind

/-- The values `true` and `false`. -/
def boolean : ValueKind := .oneOf [⟨"true".toList, false⟩, ⟨"false".toList, false⟩]

/-- The listed values; none if any text is allowed. -/
def listed : ValueKind → List AllowedValue
  | oneOf values => values
  | _ => []

/-- Whether a text is a value of this kind. -/
def accepts : ValueKind → Text → Bool
  | any, _ => true
  | nonEmpty, t => !t.isEmpty
  | oneOf values, t => values.any fun v => v.name = t

end ValueKind

/-- The values of an argument with an action, unless they are said: `true` and `false` if it stands for yes or no. -/
def ArgAction.defaultValues : ArgAction → ValueKind
  | setTrue | setFalse => .boolean
  | _ => .any

/-- An argument as it is declared. -/
structure ArgDeclaration where
  id : Text
  long : Option Text := none
  short : Option Char := none
  help : Option Text := none
  longHelp : Option Text := none
  /-- What happens when the argument is read, if it is said. -/
  action : Option ArgAction := none
  /-- How many words the argument takes, if it is said. -/
  words : Option WordCount := none
  /-- The placeholders for its values. -/
  valueNames : List Text := []
  /-- Which values the argument takes, if it is said. -/
  values : Option ValueKind := none
  hidden : Bool := false
  /-- Whether the commands below take the argument too. -/
  isGlobal : Bool := false
  required : Bool := false
  /-- Whether a value may look like an option. -/
  allowHyphenValues : Bool := false
  /-- Whether all words after the first value are values too. -/
  takesRest : Bool := false
deriving DecidableEq, Repr

namespace ArgDeclaration

/-- Whether the argument has neither a long nor a short form. -/
def isPositional (a : ArgDeclaration) : Bool := a.long.isNone && a.short.isNone

/-- What happens when the argument is read. Unless it is said, an argument that takes no words stands for yes, a positional
argument without an upper bound keeps all its values, and any other one keeps its value. -/
def effectiveAction (a : ArgDeclaration) : ArgAction :=
  match a.action with
  | some action => action
  | none =>
    match a.words with
    | some count =>
      if count = .zero then .setTrue else if a.isPositional && count.isUnbounded then .append else .set
    | none => .set

/-- How many words the argument takes. Unless it is said, one for each of several placeholders, or else one if it takes a
value. -/
def effectiveWords (a : ArgDeclaration) : WordCount :=
  match a.words with
  | some count => count
  | none =>
    if 1 < a.valueNames.length then .exactly a.valueNames.length
    else if a.effectiveAction.takesValues then .exactly 1
    else .zero

/-- Which values the argument takes. Unless it is said, its action decides. -/
def effectiveValues (a : ArgDeclaration) : ValueKind := a.values.getD a.effectiveAction.defaultValues

/-- Whether the argument takes values. -/
def takesValues (a : ArgDeclaration) : Bool := a.effectiveAction.takesValues

/-- The option that shows help. -/
def helpOption : ArgDeclaration :=
  { id := "help".toList, long := some "help".toList, short := some 'h', action := some .help }

/-- The option that shows the version. -/
def versionOption : ArgDeclaration :=
  { id := "version".toList, long := some "version".toList, short := some 'V', action := some .version }

end ArgDeclaration

/-- A command as it is declared, with everything below it. -/
structure Declaration where
  name : Text
  about : Option Text := none
  longAbout : Option Text := none
  version : Option Text := none
  hidden : Bool := false
  /-- Whether words that name no subcommand are passed on. -/
  allowExternalSubcommands : Bool := false
  disableHelpSubcommand : Bool := false
  disableHelpFlag : Bool := false
  /-- Whether the commands below have the version too. -/
  propagateVersion : Bool := false
  args : List ArgDeclaration := []
  subcommands : List Declaration := []
deriving Inhabited

namespace Declaration

/-- What a command hands down to the commands below it. -/
structure Inheritance where
  /-- The global arguments. -/
  globals : List ArgDeclaration := []
  /-- The version, if it is handed down. -/
  version : Option Text := none

/-- The command `help`, which takes the names of a command. -/
def helpCommand : Declaration :=
  { name := "help".toList
    args := [{ id := "subcommand".toList, action := some .append, words := some ⟨0, none⟩ }] }

/-- The arguments of a command together with the global ones of the commands above, except those whose identifier it uses
itself. -/
def inheritArgs (own globals : List ArgDeclaration) : List ArgDeclaration :=
  own ++ globals.filter fun g => !own.any fun a => a.id = g.id

/-- The arguments among some that the commands below take too. -/
def globalsOf (args : List ArgDeclaration) : List ArgDeclaration := args.filter (·.isGlobal)

mutual

/-- What a command and those below it take, given what is handed down to it. -/
def resolveWith (above : Inheritance) : Declaration → Declaration
  | { name, about, longAbout, version, hidden, allowExternalSubcommands, disableHelpSubcommand, disableHelpFlag,
      propagateVersion, args, subcommands } =>
    let version := version.or above.version
    let taken := inheritArgs args above.globals
    let below : Inheritance := ⟨globalsOf taken, if propagateVersion then version else none⟩
    { name, about, longAbout, version, hidden, allowExternalSubcommands, disableHelpSubcommand, disableHelpFlag,
      propagateVersion
      args :=
        taken ++ (if disableHelpFlag then [] else [.helpOption]) ++ if version.isSome then [.versionOption] else []
      subcommands :=
        resolveAllWith below subcommands
          ++ if subcommands.isEmpty || disableHelpSubcommand then [] else [helpCommand] }

/-- What each of some commands and those below them take. -/
def resolveAllWith (above : Inheritance) : List Declaration → List Declaration
  | [] => []
  | d :: rest => resolveWith above d :: resolveAllWith above rest

end

/-- What a command that stands at the root and those below it take. -/
def resolve (d : Declaration) : Declaration := resolveWith {} d

/-- The positional arguments, in order. -/
def positionals (d : Declaration) : List ArgDeclaration := d.args.filter (·.isPositional)

/-- The option with the given long form. -/
def long? (d : Declaration) (name : Text) : Option ArgDeclaration := d.args.find? fun a => a.long = some name

/-- The option with the given short form. -/
def short? (d : Declaration) (c : Char) : Option ArgDeclaration := d.args.find? fun a => a.short = some c

/-- The subcommand of the given name. -/
def child? (d : Declaration) (name : Text) : Option Declaration := d.subcommands.find? fun c => c.name = name

/-- The command that a path of subcommand names leads to. -/
def find? (d : Declaration) : List Text → Option Declaration
  | [] => some d
  | name :: path => (d.child? name).bind fun c => c.find? path

end Declaration

end DevWorkflow
