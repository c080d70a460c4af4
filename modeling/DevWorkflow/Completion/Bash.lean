import DevWorkflow.Completion.Source
import DevWorkflow.Program
import DevWorkflow.Text.Blank

/-!
# The bash script

Bash completion looks at the first two words of the line only: below the second level a command is completed from its own
subcommands and options. The dispatcher is a small program, `dispatch`, whose commands offer words, test the position or the
previous word, and choose by a word of the line; `Command.lines` writes it down.
-/

namespace DevWorkflow

namespace Bash

/-- A text on one line for use inside double quotes. -/
def quote (t : Text) : Text :=
  (Text.singleLine t).flatMap fun c => if c = '\\' || c = '"' || c = '$' || c = '\x60' then ['\\', c] else [c]

mutual

/-- A command of the dispatcher. -/
inductive Command where
  /-- Offers the given words. -/
  | offer (words : List Text)
  /-- Offers file names as well. -/
  | offerFiles
  /-- Ends the dispatcher. -/
  | done
  /-- Runs the body if the word at the given position is being completed. -/
  | ifPosition (n : Nat) (body : List Command)
  /-- Runs the body if the previous word is one of the given ones. -/
  | ifPrevious (words : List Text) (body : List Command)
  /-- Runs the first arm whose label is the word at the given position. -/
  | byWord (n : Nat) (arms : List Arm)

/-- An arm of a choice by a word of the line. -/
inductive Arm where
  | mk (label : Text) (body : List Command)

end

/-- Whether a command is `commit` under `git`, whose option `--type` has choices of its own. -/
def isGitCommit (parent : Text) (t : CommandTree) : Bool := parent = "git".toList && t.name = "commit".toList

/-- The words offered for a command with subcommands. -/
def branchWords (t : CommandTree) : List Text := t.subcommands.map (·.name) ++ t.flagWords

/-- The commands that offer the choices of the option before the word. -/
def choiceCommands (o : OptionEntry) : List Command :=
  match o.choiceList with
  | some choices => [.ifPrevious o.flagWords [.offer choices, .done]]
  | none => []

/-- The commands for a command without subcommands, below the command called `parent`. -/
def leafCommands (parent : Text) (t : CommandTree) : List Command :=
  (if isGitCommit parent t then [.ifPrevious ["--type".toList, "-t".toList] [.offer commitTypes, .done]] else [])
    ++ (t.options.filter fun o => !(isGitCommit parent t && o.long = "type".toList)).flatMap choiceCommands
    ++ [.offer t.flagWords] ++ (if t.allowUnknownOption then [.offerFiles] else []) ++ [.done]

/-- The arm for a command at the second level. -/
def innerArm (parent : Text) (t : CommandTree) : Arm :=
  .mk t.name (if t.isLeaf then leafCommands parent t else [.offer (branchWords t), .done])

/-- The arm for a command at the first level. -/
def outerArm (root : Text) (t : CommandTree) : Arm :=
  .mk t.name
    (if t.isLeaf then leafCommands root t
     else [.ifPosition 2 [.offer (branchWords t), .done], .byWord 2 (t.subcommands.map (innerArm t.name))])

/-- The command that completes the first word. -/
def firstWord (t : CommandTree) : Command := .ifPosition 1 [.offer (branchWords t), .done]

/-- The command that completes the words after the first. -/
def laterWords (t : CommandTree) : Command := .byWord 1 (t.subcommands.map (outerArm t.name))

/-- The dispatcher of a tree. -/
def dispatch (t : CommandTree) : List Command := [firstWord t, laterWords t]

/-- A line at a depth of indentation. -/
def line (depth : Nat) (t : Text) : Text := (List.replicate depth "    ".toList).flatten ++ t

/-- The words as one quoted list. -/
def wordList (words : List Text) : Text := Text.join [' '] (words.map quote)

/-- The test whether the previous word is one of the given ones. -/
def previousTest (words : List Text) : Text :=
  Text.join " || ".toList (words.map fun w => "\"$\x7bprev\x7d\" == \"".toList ++ w ++ "\"".toList)

mutual

/-- The lines of a command at a depth of indentation. -/
def Command.lines (depth : Nat) : Command → List Text
  | .offer words =>
    [line depth ("COMPREPLY=( $(compgen -W \"".toList ++ wordList words ++ "\" -- \"$\x7bcur\x7d\") )".toList)]
  | .offerFiles => [line depth "COMPREPLY+=( $(compgen -f -- \"$\x7bcur\x7d\") )".toList]
  | .done => [line depth "return 0".toList]
  | .ifPosition n body =>
    line depth ("if [[ $\x7bCOMP_CWORD\x7d -eq ".toList ++ Nat.toDigits 10 n ++ " ]]; then".toList)
      :: blockLines (depth + 1) body ++ [line depth "fi".toList]
  | .ifPrevious words body =>
    line depth ("if [[ ".toList ++ previousTest words ++ " ]]; then".toList)
      :: blockLines (depth + 1) body ++ [line depth "fi".toList]
  | .byWord n arms =>
    line depth ("case \"$\x7bCOMP_WORDS[".toList ++ Nat.toDigits 10 n ++ "]\x7d\" in".toList)
      :: armsLines (depth + 1) arms ++ [line depth "esac".toList]

/-- The lines of some commands, one command after another. -/
def blockLines (depth : Nat) : List Command → List Text
  | [] => []
  | c :: rest => c.lines depth ++ blockLines depth rest

/-- The lines of an arm. -/
def Arm.lines (depth : Nat) : Arm → List Text
  | .mk label body =>
    line depth (quote label ++ ")".toList) :: blockLines (depth + 1) body ++ [line (depth + 1) ";;".toList]

/-- The lines of some arms, one arm after another. -/
def armsLines (depth : Nat) : List Arm → List Text
  | [] => []
  | a :: rest => a.lines depth ++ armsLines depth rest

end

/-- The name of the dispatcher. -/
def functionName : Text := "_".toList ++ Text.identifier programName

/-- The lines of the function that completes a tree's commands. -/
def functionLines (t : CommandTree) : List Text :=
  [functionName ++ "() \x7b".toList, line 1 "local cur prev".toList, line 1 "COMPREPLY=()".toList,
    line 1 "cur=\"$\x7bCOMP_WORDS[COMP_CWORD]\x7d\"".toList, line 1 "prev=\"$\x7bCOMP_WORDS[COMP_CWORD-1]\x7d\"".toList, []]
    ++ (firstWord t).lines 1 ++ [[]] ++ (laterWords t).lines 1 ++ ["\x7d".toList]

/-- The lines of the helper function of a dynamic source. -/
def helperLines (s : DynamicSource) : List Text :=
  [s.function ++ "() \x7b".toList, line 1 s.command, "\x7d".toList, []]

/-- The lines of the script for a command tree. -/
def scriptLines (t : CommandTree) : List Text :=
  ["# bash completion for ".toList ++ programName ++ ". Generated by `".toList ++ programName
      ++ " completion bash`, do not edit.".toList, []]
    ++ DynamicSource.all.flatMap helperLines ++ functionLines t
    ++ [[], "complete -F ".toList ++ functionName ++ " ".toList ++ programName ++ " ".toList ++ aliasName]

/-- Lines as a text in which each of them ends with a line feed. -/
def unlines (ls : List Text) : Text := ls.flatMap fun l => l ++ ['\n']

/-- The script for a command tree. -/
def script (t : CommandTree) : Text := unlines (scriptLines t)

example : quote "a\"b$c".toList = "a\\\"b\\$c".toList := by decide

end Bash

end DevWorkflow
