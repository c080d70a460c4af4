import DevWorkflow.Completion.Source
import DevWorkflow.Program
import DevWorkflow.Text.Blank

/-!
# The zsh script

The script defines one function for each command. The function of a command without subcommands describes its options and
arguments to `_arguments`; that of a command with subcommands also lists them and hands over to the function of the one on
the line. `functionsAt` lists the functions in post-order, so that a function stands below those that it hands over to.
-/

namespace DevWorkflow

namespace Zsh

/-- A text on one line for use inside single quotes, which a quote can only leave and enter again. -/
def quote (t : Text) : Text := Text.replace '\'' "'\\''".toList (Text.singleLine t)

/-- A text in which brackets stand for themselves inside the brackets of a description. -/
def escapeBrackets (t : Text) : Text := Text.replace ']' "\\]".toList (Text.replace '[' "\\[".toList t)

/-- Quoted words with a space between each two. -/
def quotedWords (ts : List Text) : Text := Text.join [' '] (ts.map quote)

/-- A list of candidates in parentheses. -/
def listing (candidates : List Text) : Text := "(".toList ++ quotedWords candidates ++ ")".toList

/-- The function for the command at a path; `[]` is the root. -/
def functionName (path : List Text) : Text :=
  "_".toList ++ Text.identifier programName ++ path.flatMap fun name => '_' :: Text.identifier name

/-- What follows an option's description: nothing, or the name of its value and the values allowed. -/
def valuePart (o : OptionEntry) : Text :=
  if o.isBoolean then []
  else ":".toList ++ quote (o.valueName.getD o.long) ++ ":".toList ++ ((o.choiceList.map listing).getD [])

/-- An option's description as it stands between brackets. -/
def bracketed (o : OptionEntry) : Text := "[".toList ++ escapeBrackets (quote o.description) ++ "]".toList

/-- A text between single quotes. -/
def inQuotes (t : Text) : Text := "'".toList ++ t ++ "'".toList

/-- How an option is described: one specification for each of its forms. -/
def optionSpecs (o : OptionEntry) : List Text :=
  let rest := bracketed o ++ valuePart o
  (o.short.map fun c => inQuotes (['-', c] ++ rest)).toList
    ++ if o.shortOnly then []
       else [inQuotes ("--".toList ++ o.long ++ (if o.isBoolean then [] else "=".toList) ++ rest)]

/-- What completes an argument. -/
def action : ArgumentSource → Text
  | .dynamic source => source.function
  | .choices candidates => listing candidates
  | .settingKeys => listing settingKeys
  | .rest => "_default".toList
  | .positional => "_default".toList

/-- The start of an argument's specification: its place among the words, and whether it may be left out. -/
def place (a : ArgumentEntry) (position : Nat) : Text :=
  if a.variadic then "*:".toList
  else if a.required then Nat.toDigits 10 position ++ ":".toList
  else Nat.toDigits 10 position ++ "::".toList

/-- How the argument at a position of the command called `parent` is described. -/
def argumentSpec (parent : Text) (a : ArgumentEntry) (position : Nat) : Text :=
  inQuotes (place a position ++ quote a.name ++ ":".toList ++ action (a.source parent))

/-- How a command's arguments are described, from the given position on. -/
def argumentSpecsFrom (parent : Text) (position : Nat) : List ArgumentEntry → List Text
  | [] => []
  | a :: rest => argumentSpec parent a position :: argumentSpecsFrom parent (position + 1) rest

/-- The specification that takes all words that no other one takes. -/
def restSpec : Text := "'*:: :_default'".toList

/-- The specifications of a command without subcommands. -/
def leafSpecs (t : CommandTree) : List Text :=
  t.options.flatMap optionSpecs ++ argumentSpecsFrom t.name 1 t.arguments
    ++ if t.allowUnknownOption && !t.arguments.any (·.variadic) then [restSpec] else []

/-- The specifications of a command with subcommands. -/
def branchSpecs (t : CommandTree) : List Text :=
  t.options.flatMap optionSpecs ++ ["'1: :->cmds'".toList, "'*:: :->args'".toList]

/-- What a function does. -/
inductive FunctionBody where
  /-- Describes options and arguments. -/
  | leaf (specs : List Text)
  /-- Describes options, lists subcommands under a label, and hands over to the function of the subcommand on the line. -/
  | branch (specs : List Text) (label : Text) (entries : List (Text × Text)) (arms : List (Text × Text))
deriving DecidableEq, Repr

/-- A function of the script. -/
structure Function where
  name : Text
  body : FunctionBody
deriving DecidableEq, Repr

/-- The function of the command at a path. -/
def functionOf (path : List Text) (t : CommandTree) : Function where
  name := functionName path
  body :=
    if t.isLeaf then .leaf (leafSpecs t)
    else
      .branch (branchSpecs t) (Text.join [' '] (programName :: path))
        (t.subcommands.map fun c => (c.name, c.description))
        (t.subcommands.map fun c => (c.name, functionName (path ++ [c.name])))

mutual

/-- The functions of the command at a path and of all commands below it. -/
def functionsAt (path : List Text) : CommandTree → List Function
  | ⟨name, description, options, arguments, subcommands, allowUnknownOption⟩ =>
    functionsBelow path subcommands
      ++ [functionOf path ⟨name, description, options, arguments, subcommands, allowUnknownOption⟩]

/-- The functions of some subcommands of the command at a path and of all commands below them. -/
def functionsBelow (path : List Text) : List CommandTree → List Function
  | [] => []
  | c :: rest => functionsAt (path ++ [c.name]) c ++ functionsBelow path rest

end

/-- The lines that follow the first one of a call, of which the last one ends the call. -/
def specLines (tail : Text) : List Text → Text
  | [] => []
  | [spec] => "    ".toList ++ spec ++ tail ++ "\n".toList
  | spec :: next :: rest => "    ".toList ++ spec ++ " \\\n".toList ++ specLines tail (next :: rest)

/-- A call of `_arguments`, followed by `tail`. -/
def argumentsCall (call tail : Text) : List Text → Text
  | [] => "  ".toList ++ call ++ tail ++ "\n".toList
  | spec :: rest => "  ".toList ++ call ++ " \\\n".toList ++ specLines tail (spec :: rest)

/-- The line that lists a subcommand with its description. -/
def entryLine (entry : Text × Text) : Text :=
  "        '".toList ++ quote entry.1 ++ ":".toList ++ quote entry.2 ++ "'\n".toList

/-- The lines that hand over to the function of a subcommand. -/
def armLines (arm : Text × Text) : Text :=
  "        ".toList ++ arm.1 ++ ")\n          ".toList ++ arm.2 ++ " && ret=0\n          ;;\n".toList

/-- The lines of a function's body. -/
def FunctionBody.render : FunctionBody → Text
  | .leaf [] => "  _message 'no more arguments'\n".toList
  | .leaf specs => argumentsCall "_arguments".toList [] specs
  | .branch specs label entries arms =>
    "  local curcontext=\"$curcontext\" state line ret=1\n  typeset -A opt_args\n\n".toList
      ++ argumentsCall "_arguments -C".toList " && ret=0".toList specs
      ++ "\n  case $state in\n    cmds)\n      local -a subcommands\n      subcommands=(\n".toList
      ++ entries.flatMap entryLine
      ++ "      )\n      _describe -t commands '".toList ++ quote label
      ++ " commands' subcommands && ret=0\n      ;;\n    args)\n      case $line[1] in\n".toList
      ++ arms.flatMap armLines
      ++ "      esac\n      ;;\n  esac\n\n  return ret\n".toList

/-- The block of lines that defines a function. -/
def Function.render (f : Function) : Text :=
  f.name ++ "() \x7b\n".toList ++ f.body.render ++ "\x7d\n\n".toList

/-- The block of lines that defines the helper function of a dynamic source. -/
def helper (s : DynamicSource) : Text :=
  s.function ++ "() \x7b\n  local -a candidates\n  candidates=($\x7b(f)\"$(".toList ++ s.command
    ++ ")\"\x7d)\n  _describe -t ".toList ++ s.name ++ " '".toList ++ quote s.description
    ++ "' candidates\n\x7d\n\n".toList

/-- What stands above the functions of the commands. -/
def header : Text :=
  "#compdef ".toList ++ programName ++ " ".toList ++ aliasName ++ "\n\n# zsh completion for ".toList ++ programName
    ++ ". Generated by `".toList ++ programName ++ " completion zsh`, do not edit.\n\n".toList
    ++ DynamicSource.all.flatMap helper

/-- What stands below the functions of the commands. -/
def trailer : Text :=
  let base := functionName []
  "if [ \"$funcstack[1]\" = \"".toList ++ base ++ "\" ]; then\n  ".toList ++ base ++ " \"$@\"\nelse\n  compdef ".toList
    ++ base ++ " ".toList ++ programName ++ " ".toList ++ aliasName ++ "\nfi\n".toList

/-- The script for a command tree. -/
def script (t : CommandTree) : Text := header ++ (functionsAt [] t).flatMap Function.render ++ trailer

example : quote "it's".toList = "it'\\''s".toList := by decide

example : escapeBrackets "list [all]".toList = "list \\[all\\]".toList := by decide

end Zsh

end DevWorkflow
