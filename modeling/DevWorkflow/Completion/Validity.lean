import DevWorkflow.Completion.Tree

/-!
# Which trees can be written as scripts

`CommandTree.defect?` looks for the first thing in a tree that the scripts cannot express, in depth-first order: a command's own
name, its options in order, its arguments, and then for each subcommand in order whether it is called `help`, whether an earlier
sibling has its name, and what is below it. A tree without defects is valid.
-/

namespace DevWorkflow

/-- Why a tree is not valid. A path is the list of names from the root down to the command with the defect. -/
inductive TreeDefect where
  /-- A command below the given path has no name. -/
  | unnamed (above : List Text)
  /-- Two options of a command have one long name. -/
  | duplicateOption (long : Text) (path : List Text)
  /-- An option that is said to have only a short form has none. -/
  | shortOnlyWithoutShort (long : Text) (path : List Text)
  /-- An option has a placeholder but takes no value, or takes a value but has no placeholder. -/
  | valueNameMismatch (long : Text) (path : List Text)
  /-- An argument that takes all remaining words is followed by another one. -/
  | variadicNotLast (argument : Text) (path : List Text)
  /-- A subcommand is called `help`. -/
  | helpCommand (path : List Text)
  /-- Two subcommands have one name. -/
  | duplicateCommand (name : Text) (path : List Text)
deriving DecidableEq, Repr

namespace TreeDefect

/-- A path as it is written in a message. -/
def location (path : List Text) : Text := Text.join [' '] path

/-- The defect in words. -/
def message : TreeDefect → Text
  | unnamed above => "unnamed command under '".toList ++ location above ++ "'".toList
  | duplicateOption long path =>
    "duplicate option '--".toList ++ long ++ "' on '".toList ++ location path ++ "'".toList
  | shortOnlyWithoutShort long path =>
    "short-only option '".toList ++ long ++ "' on '".toList ++ location path ++ "' has no short flag".toList
  | valueNameMismatch long path =>
    "option '--".toList ++ long ++ "' on '".toList ++ location path
      ++ "' must have a value name iff it takes a value".toList
  | variadicNotLast argument path =>
    "variadic argument '".toList ++ argument ++ "' on '".toList ++ location path ++ "' is not the last argument".toList
  | helpCommand path => "'help' pseudo-command under '".toList ++ location path ++ "'".toList
  | duplicateCommand name path =>
    "duplicate subcommand '".toList ++ name ++ "' under '".toList ++ location path ++ "'".toList

end TreeDefect

/-- The name that no subcommand may have. -/
def helpName : Text := "help".toList

namespace CommandTree

/-- What is wrong with an option, given the long names before it. -/
def optionDefect? (path seen : List Text) (o : OptionEntry) : Option TreeDefect :=
  if seen.contains o.long then some (.duplicateOption o.long path)
  else if o.shortOnly && o.short.isNone then some (.shortOnlyWithoutShort o.long path)
  else if o.isBoolean = o.valueName.isSome then some (.valueNameMismatch o.long path)
  else none

/-- The first defect among a command's options, given the long names before them. -/
def optionsDefect? (path seen : List Text) : List OptionEntry → Option TreeDefect
  | [] => none
  | o :: rest => (optionDefect? path seen o).or (optionsDefect? path (o.long :: seen) rest)

/-- The first argument that takes all remaining words although one follows it. -/
def argumentsDefect? (path : List Text) : List ArgumentEntry → Option TreeDefect
  | [] => none
  | [_] => none
  | a :: b :: rest => if a.variadic then some (.variadicNotLast a.name path) else argumentsDefect? path (b :: rest)

mutual

/-- The first defect of a tree below the given path. -/
def defectBelow? (above : List Text) : CommandTree → Option TreeDefect
  | ⟨name, _, options, arguments, subcommands, _⟩ =>
    if name.isEmpty then some (.unnamed above)
    else
      let path := above ++ [name]
      ((optionsDefect? path [] options).or (argumentsDefect? path arguments)).or (siblingsDefect? path [] subcommands)

/-- The first defect among the subcommands of the command at a path, given the names of the siblings before them. -/
def siblingsDefect? (path seen : List Text) : List CommandTree → Option TreeDefect
  | [] => none
  | c :: rest =>
    if c.name = helpName then some (.helpCommand path)
    else if seen.contains c.name then some (.duplicateCommand c.name path)
    else (defectBelow? path c).or (siblingsDefect? path (c.name :: seen) rest)

end

/-- The first defect of a tree. -/
def defect? (t : CommandTree) : Option TreeDefect := defectBelow? [] t

end CommandTree

end DevWorkflow
