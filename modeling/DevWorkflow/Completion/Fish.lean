import DevWorkflow.Completion.Source
import DevWorkflow.Program
import DevWorkflow.Text.Blank

/-!
# The fish script

Fish completion is a list of rules. A rule offers an option, a subcommand or the candidates for an argument under a guard, which
says what commands stand on the line already. `items` lists the rules of a tree in order, with headings between the commands.
-/

namespace DevWorkflow

namespace Fish

/-- A text on one line for use inside single quotes, where only the backslash and the quote need a backslash. -/
def quote (t : Text) : Text := Text.replace '\'' "\\'".toList (Text.replace '\\' "\\\\".toList (Text.singleLine t))

/-- What may follow an option. -/
inductive ValueRule where
  /-- No value. -/
  | none
  /-- A value of any kind. -/
  | any
  /-- One of the listed values. -/
  | oneOf (choices : List Text)
deriving DecidableEq, Repr

/-- A rule of the script. -/
structure Rule where
  /-- Whether file names stay among the candidates. -/
  keepsFiles : Bool
  /-- The condition under which the rule holds. -/
  guard : Text
  /-- The letter of the option offered. -/
  short : Option Char := none
  /-- The long name of the option offered. -/
  long : Option Text := none
  /-- What may follow the option offered. -/
  value : ValueRule := .none
  /-- The candidates offered. -/
  candidates : Option Text := none
  /-- What is offered, in words; an empty text says nothing. -/
  description : Text := []
deriving DecidableEq, Repr

/-- The guard of a command's own rules: every command on its path stands on the line. The root has no path, and its rules hold
while there is no subcommand. -/
def guard : List Text → Text
  | [] => "__fish_use_subcommand".toList
  | name :: path =>
    Text.join "; and ".toList ((name :: path).map fun n => "__fish_seen_subcommand_from ".toList ++ n)

/-- The rule for an option of the command at a path. -/
def optionRule (path : List Text) (t : CommandTree) (o : OptionEntry) : Rule where
  keepsFiles := t.allowUnknownOption
  guard := guard path
  short := o.short
  long := if o.shortOnly then none else some o.long
  value :=
    if o.isBoolean then .none
    else
      match o.choiceList with
      | some choices => .oneOf choices
      | none => .any
  description := o.description

/-- The candidates for an argument and what to call them if the argument has no description; `none` for free text. -/
def candidates? : ArgumentSource → Option (Text × Text)
  | .dynamic source => some ("(".toList ++ source.function ++ ")".toList, source.description)
  | .choices choices => some (Text.join [' '] choices, [])
  | .settingKeys => some (Text.join [' '] settingKeys, "configuration key".toList)
  | .rest => none
  | .positional => none

/-- The rule for an argument of the command at a path, unless the argument is free text. -/
def argumentRule? (path : List Text) (t : CommandTree) (a : ArgumentEntry) : Option Rule :=
  (candidates? (a.source t.name)).map fun found =>
    { keepsFiles := t.allowUnknownOption
      guard := guard path
      candidates := some found.1
      description := if a.description.isEmpty then found.2 else a.description }

/-- The rule for a subcommand of the command at a path. -/
def childRule (path : List Text) (t c : CommandTree) : Rule where
  keepsFiles := t.allowUnknownOption
  guard := guard path
  candidates := some c.name
  description := c.description

/-- The rules for the options of the command at a path and, if nothing is below it, for its arguments. -/
def ownRules (path : List Text) (t : CommandTree) : List Rule :=
  t.options.map (optionRule path t) ++ if t.isLeaf then t.arguments.filterMap (argumentRule? path t) else []

/-- A part of the script. -/
inductive Item where
  | rule (r : Rule)
  /-- A comment that names the command at a path. -/
  | heading (path : List Text)
  /-- An empty line. -/
  | gap
deriving DecidableEq, Repr

mutual

/-- The rules for the subcommands of the command at a path, and then a section for each of them. -/
def itemsBelow (path : List Text) : CommandTree → List Item
  | ⟨name, description, options, arguments, subcommands, allowUnknownOption⟩ =>
    let t : CommandTree := ⟨name, description, options, arguments, subcommands, allowUnknownOption⟩
    subcommands.map (fun c => .rule (childRule path t c)) ++ .gap :: sections path subcommands

/-- A section for each of some subcommands of the command at a path. -/
def sections (path : List Text) : List CommandTree → List Item
  | [] => []
  | c :: rest =>
    .heading (path ++ [c.name]) :: (ownRules (path ++ [c.name]) c).map .rule
      ++ (if c.isLeaf then [.gap] else itemsBelow (path ++ [c.name]) c) ++ sections path rest

end

/-- The parts of the script for a tree. -/
def items (t : CommandTree) : List Item := .heading [] :: (ownRules [] t).map .rule ++ itemsBelow [] t

/-- A flag and a quoted text after it. -/
def quotedPart (flag t : Text) : Text := flag ++ " '".toList ++ quote t ++ "'".toList

/-- How a rule says what may follow the option. -/
def ValueRule.render : ValueRule → Text
  | .none => []
  | .any => " -r".toList
  | .oneOf choices => quotedPart " -x -a".toList (Text.join [' '] choices)

/-- A rule as a line. -/
def Rule.render (r : Rule) : Text :=
  "complete -c ".toList ++ programName ++ (if r.keepsFiles then [] else " -f".toList) ++ quotedPart " -n".toList r.guard
    ++ ((r.short.map fun c => " -s ".toList ++ [c]).getD [])
    ++ ((r.long.map fun l => " -l ".toList ++ l).getD [])
    ++ r.value.render
    ++ ((r.candidates.map (quotedPart " -a".toList)).getD [])
    ++ if r.description.isEmpty then [] else quotedPart " -d".toList r.description

/-- A part of the script as a line. -/
def Item.render : Item → Text
  | .rule r => r.render
  | .heading path => Text.join [' '] ("#".toList :: programName :: path)
  | .gap => []

/-- The block of lines that defines the helper function of a dynamic source. -/
def helper (s : DynamicSource) : Text :=
  "function ".toList ++ s.function ++ "\n    ".toList ++ s.command ++ "\nend\n\n".toList

/-- What stands above the rules. -/
def header : Text :=
  "# fish completion for ".toList ++ programName ++ ". Generated by `".toList ++ programName
    ++ " completion fish`, do not edit.\n\n".toList ++ DynamicSource.all.flatMap helper
    ++ "complete -c ".toList ++ programName ++ " -e\n\n".toList

/-- What stands below the rules. -/
def trailer : Text := "complete -c ".toList ++ aliasName ++ " --wraps ".toList ++ programName ++ "\n".toList

/-- The script for a command tree. -/
def script (t : CommandTree) : Text := header ++ (items t).flatMap (fun i => i.render ++ ['\n']) ++ trailer

example : quote "Don't\n\tstop".toList = "Don\\'t stop".toList := by decide

end Fish

end DevWorkflow
