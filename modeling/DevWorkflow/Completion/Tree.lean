import DevWorkflow.Text

/-!
# Command trees

What the completion scripts are written from: a tree of commands, each with its options, its positional arguments and its
subcommands. A tree may come from anywhere, so its fields may contradict each other; `DevWorkflow.Completion.Validity` says when
they do not. The builders at the end make trees whose fields agree.
-/

namespace DevWorkflow

/-- An option of a command. -/
structure OptionEntry where
  /-- How the option was declared, such as `-t, --type <type>`; for information only. -/
  usage : Text := []
  /-- The long name without dashes. An option that has only a short form keeps its identifier here. -/
  long : Text := []
  /-- The letter of the short form. -/
  short : Option Char := none
  /-- Whether only the short form exists. -/
  shortOnly : Bool := false
  /-- What the option does. -/
  description : Text := []
  /-- Whether a value must follow. -/
  required : Bool := false
  /-- Whether the option takes no value. -/
  isBoolean : Bool := false
  /-- Whether the option may be given more than once. -/
  isVariadic : Bool := false
  /-- The placeholder for the value. -/
  valueName : Option Text := none
  /-- The values that are allowed, if they are listed. -/
  choices : Option (List Text) := none
deriving DecidableEq, Repr, Inhabited

/-- A positional argument of a command. -/
structure ArgumentEntry where
  name : Text := []
  /-- What the argument is. -/
  description : Text := []
  /-- Whether the argument must be given. -/
  required : Bool := false
  /-- Whether the argument takes all remaining words. -/
  variadic : Bool := false
  /-- The values that are allowed, if they are listed. -/
  choices : Option (List Text) := none
deriving DecidableEq, Repr, Inhabited

/-- A command with everything below it. -/
structure CommandTree where
  name : Text := []
  /-- What the command does. -/
  description : Text := []
  /-- The options, in order of declaration. -/
  options : List OptionEntry := []
  /-- The positional arguments, in order. -/
  arguments : List ArgumentEntry := []
  /-- The commands directly below. -/
  subcommands : List CommandTree := []
  /-- Whether options that are not listed are passed on. -/
  allowUnknownOption : Bool := false
deriving Inhabited

/-- Choices as a closed set: an empty list closes nothing. -/
def closedChoices : Option (List Text) → Option (List Text)
  | some (c :: cs) => some (c :: cs)
  | _ => none

namespace OptionEntry

/-- The listed values, if there are any. -/
def choiceList (o : OptionEntry) : Option (List Text) := closedChoices o.choices

/-- An option without a value. -/
def flag (long description : Text) : OptionEntry :=
  { usage := "--".toList ++ long, long, description, isBoolean := true }

/-- An option with one value, whose placeholder is the long name. -/
def value (long description : Text) : OptionEntry :=
  { usage := "--".toList ++ long ++ " <".toList ++ long ++ ">".toList, long, description, required := true
    valueName := some long }

/-- The option with a short form beside the long one. -/
def withShort (o : OptionEntry) (c : Char) : OptionEntry :=
  { o with short := some c, usage := ['-', c] ++ ", ".toList ++ o.usage }

/-- The option with a short form in place of the long one. -/
def withShortOnly (o : OptionEntry) (c : Char) : OptionEntry :=
  { o with
    short := some c
    shortOnly := true
    usage :=
      match o.valueName with
      | some name => ['-', c] ++ " <".toList ++ name ++ ">".toList
      | none => ['-', c] }

/-- The option with the values that it allows. -/
def withChoices (o : OptionEntry) (choices : List Text) : OptionEntry := { o with choices := some choices }

/-- The option marked as one that may be repeated. -/
def asVariadic (o : OptionEntry) : OptionEntry := { o with isVariadic := true }

/-- The words that name the option on a command line. -/
def flagWords (o : OptionEntry) : List Text :=
  (if o.shortOnly then [] else ["--".toList ++ o.long]) ++ (o.short.map fun c => ['-', c]).toList

end OptionEntry

namespace ArgumentEntry

/-- The listed values, if there are any. -/
def choiceList (a : ArgumentEntry) : Option (List Text) := closedChoices a.choices

/-- An optional argument for one word. -/
def ofName (name description : Text) : ArgumentEntry := { name, description }

/-- The argument made mandatory. -/
def asRequired (a : ArgumentEntry) : ArgumentEntry := { a with required := true }

/-- The argument made to take all remaining words. -/
def asVariadic (a : ArgumentEntry) : ArgumentEntry := { a with variadic := true }

/-- The argument with the values that it allows. -/
def withChoices (a : ArgumentEntry) (choices : List Text) : ArgumentEntry := { a with choices := some choices }

end ArgumentEntry

namespace CommandTree

/-- A command without options, arguments or subcommands. -/
def ofName (name description : Text) : CommandTree := { name, description }

/-- The command with one more option. -/
def addOption (t : CommandTree) (o : OptionEntry) : CommandTree := { t with options := t.options ++ [o] }

/-- The command with one more argument. -/
def addArgument (t : CommandTree) (a : ArgumentEntry) : CommandTree := { t with arguments := t.arguments ++ [a] }

/-- The command with one more subcommand. -/
def addSubcommand (t : CommandTree) (c : CommandTree) : CommandTree := { t with subcommands := t.subcommands ++ [c] }

/-- The command made to pass unknown options on. -/
def passingUnknownOptions (t : CommandTree) : CommandTree := { t with allowUnknownOption := true }

/-- Whether nothing is below the command. -/
def isLeaf (t : CommandTree) : Bool := t.subcommands.isEmpty

/-- The subcommand of the given name; the first one, if several have it. -/
def child? (t : CommandTree) (name : Text) : Option CommandTree := t.subcommands.find? fun c => c.name = name

/-- The command that a path of subcommand names leads to. -/
def find? (t : CommandTree) : List Text → Option CommandTree
  | [] => some t
  | name :: path => (t.child? name).bind fun c => c.find? path

/-- The words that name the command's options. -/
def flagWords (t : CommandTree) : List Text := t.options.flatMap OptionEntry.flagWords

/-- A path of two parts leads where its second part leads from where its first part leads. -/
theorem find?_append (t : CommandTree) (p q : List Text) : t.find? (p ++ q) = (t.find? p).bind fun c => c.find? q := by
  induction p generalizing t with
  | nil => rfl
  | cons name path ih =>
    cases h : t.child? name with
    | none => simp [find?, h]
    | some c => simp [find?, h, ih]

end CommandTree

end DevWorkflow
