import DevWorkflow.CommandLine.Declaration
import DevWorkflow.Completion.Validity
import DevWorkflow.Text.Visible

/-!
# Command trees from declarations

`Declaration.survey` lists what a declared command line offers, as a command tree: the visible options and arguments of each
command and its visible subcommands. An option that a command has only because a command above declared it as global is listed
above only, and the generated help and version are not listed at all.
-/

namespace DevWorkflow

namespace ArgDeclaration

/-- Whether the argument is listed at all. -/
def isListed (a : ArgDeclaration) : Bool := !a.hidden && !a.effectiveAction.isInformative

/-- What the argument is: its help, or else its long help, as a terminal shows it. -/
def describe (a : ArgDeclaration) : Text := Text.visible ((a.help.or a.longHelp).getD [])

/-- The values that the words of the argument may have, if they are listed. An argument that takes no words has none, whatever
its action. -/
def listedValues (a : ArgDeclaration) : List AllowedValue :=
  if a.effectiveWords.allowsAny then a.effectiveValues.listed else []

/-- The visible values that the argument allows, if there are any. -/
def visibleChoices (a : ArgDeclaration) : Option (List Text) :=
  closedChoices (some ((a.listedValues.filter fun v => !v.hidden).map (·.name)))

example : ({ id := "on".toList, action := some .setTrue, words := some (.exactly 1) } : ArgDeclaration).visibleChoices
    = some ["true".toList, "false".toList] := by decide

example : ({ id := "on".toList, action := some .setTrue } : ArgDeclaration).visibleChoices = none := by decide

/-- Whether the argument may have several values. -/
def isVariadic (a : ArgDeclaration) : Bool := a.effectiveAction = .append || a.effectiveWords.allowsSeveral

/-- The long form, or the identifier if there is none. -/
def longName (a : ArgDeclaration) : Text := a.long.getD a.id

/-- The forms of an option as they are declared, with the placeholder for its value. -/
def usage (a : ArgDeclaration) : Text :=
  (match a.short with
    | some c => if a.long.isNone then ['-', c] else ['-', c] ++ ", --".toList ++ a.longName
    | none => "--".toList ++ a.longName)
  ++ if a.takesValues then " <".toList ++ a.longName ++ ">".toList else []

/-- The argument as an option of a command tree. -/
def toOption (a : ArgDeclaration) : OptionEntry where
  usage := a.usage
  long := a.longName
  short := a.short
  shortOnly := a.long.isNone && a.short.isSome
  description := a.describe
  required := a.takesValues && 0 < a.effectiveWords.least
  isBoolean := !a.takesValues
  isVariadic := a.takesValues && a.isVariadic
  valueName := if a.takesValues then some a.longName else none
  choices := if a.takesValues then a.visibleChoices else none

/-- The argument as a positional argument of a command tree. -/
def toArgument (a : ArgDeclaration) : ArgumentEntry where
  name := a.id
  description := a.describe
  required := a.required
  variadic := a.isVariadic
  choices := a.visibleChoices

end ArgDeclaration

namespace Declaration

/-- Whether a command is listed below another one. -/
def isListed (d : Declaration) : Bool := d.name ≠ helpName && !d.hidden

/-- The options of a command that are listed on it, given the identifiers of the global arguments above. -/
def listedOptions (inherited : List Text) (args : List ArgDeclaration) : List OptionEntry :=
  (args.filter fun a => !a.isPositional && a.isListed && !(a.isGlobal && inherited.contains a.id)).map (·.toOption)

/-- The positional arguments of a command that are listed. -/
def listedArguments (args : List ArgDeclaration) : List ArgumentEntry :=
  (args.filter fun a => a.isPositional && a.isListed).map (·.toArgument)

/-- Whether options that are not listed are passed on. -/
def passesUnknownOptions (allowExternal : Bool) (args : List ArgDeclaration) : Bool :=
  allowExternal || args.any fun a => a.isPositional && a.allowHyphenValues

mutual

/-- The command tree of a resolved declaration, given the identifiers of the global arguments above. -/
def surveyBelow (inherited : List Text) : Declaration → CommandTree
  | { name, about, longAbout, allowExternalSubcommands, args, subcommands, .. } =>
    { name
      description := Text.visible ((about.or longAbout).getD [])
      options := listedOptions inherited args
      arguments := listedArguments args
      subcommands := surveyAllBelow (inherited ++ (globalsOf args).map (·.id)) subcommands
      allowUnknownOption := passesUnknownOptions allowExternalSubcommands args }

/-- The command trees of those of some resolved declarations that are listed. -/
def surveyAllBelow (inherited : List Text) : List Declaration → List CommandTree
  | [] => []
  | d :: rest =>
    if d.isListed then surveyBelow inherited d :: surveyAllBelow inherited rest else surveyAllBelow inherited rest

end

/-- What a declared command line offers, as a command tree. -/
def survey (d : Declaration) : CommandTree := surveyBelow [] d.resolve

end Declaration

end DevWorkflow
