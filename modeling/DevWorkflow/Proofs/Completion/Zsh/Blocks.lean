import DevWorkflow.Completion.Zsh
import DevWorkflow.Proofs.Completion.Places

/-!
# The blocks of the zsh script

Between two fixed texts the script has one block of lines for each command, from the bottom up. A block defines the function of its
command, and that of a command with subcommands lists them and hands over to their functions, all of which are defined above it
(`Zsh.script_eq_blocks`).
-/

namespace DevWorkflow

namespace Zsh

/-! ## Names of functions -/

/-- Whether a character may stand in the name of a function. -/
def isNameCharacter (c : Char) : Bool := c.isAlphanum || c = '_'

theorem all_isNameCharacter_identifier (t : Text) : (Text.identifier t).all isNameCharacter = true := by
  rw [Text.identifier, List.all_map, List.all_eq_true]
  intro c _
  rw [Function.comp_apply, isNameCharacter]
  cases hc : c.isAlphanum <;> simp [hc]

/-- The name of a function is made of ASCII letters, digits and underscores, whatever the commands are called. -/
theorem all_isNameCharacter_functionName (path : List Text) : (functionName path).all isNameCharacter = true := by
  have hbelow : (path.flatMap fun name => '_' :: Text.identifier name).all isNameCharacter = true := by
    rw [List.all_flatMap, List.all_eq_true]
    intro name _
    rw [List.all_cons, all_isNameCharacter_identifier]
    rfl
  rw [functionName, List.all_append, List.all_append, all_isNameCharacter_identifier, hbelow]
  rfl

/-! ## One function for each command -/

theorem functionsBelow_eq (path : List Text) (cs : List CommandTree) :
    functionsBelow path cs = cs.flatMap fun c => functionsAt (path ++ [c.name]) c := by
  induction cs with
  | nil => rfl
  | cons c rest ih => rw [functionsBelow, ih, List.flatMap_cons]

/-- The functions of a command and those below it, from the bottom up. -/
theorem functionsAt_eq (path : List Text) (t : CommandTree) :
    functionsAt path t = (t.bottomUp path).map fun x => functionOf x.path x.tree := by
  induction t using CommandTree.induction_below generalizing path with
  | step t ih =>
    have hbelow : functionsBelow path t.subcommands =
        (t.subcommands.flatMap fun c => c.bottomUp (path ++ [c.name])).map fun x => functionOf x.path x.tree := by
      rw [functionsBelow_eq, List.map_flatMap]
      exact List.flatMap_congr fun c hc => ih c hc (path ++ [c.name])
    have hself : functionsAt path t = functionsBelow path t.subcommands ++ [functionOf path t] := by
      cases t
      rw [functionsAt]
    rw [hself, hbelow, CommandTree.bottomUp_eq, List.map_append, List.map_singleton]

/-! ## The block of a command -/

/-- The lines that define the function of a command. -/
def block (x : Place) : Text := (functionOf x.path x.tree).render

/-- A block begins with the name of the function. -/
theorem block_eq (x : Place) :
    block x = functionName x.path ++ "() \x7b\n".toList ++ ((functionOf x.path x.tree).body.render ++ "\x7d\n\n".toList) := by
  rw [block, Function.render, functionOf, List.append_assoc]

/-- What stands in a block above the list of the subcommands. -/
def opening (path : List Text) (options : List OptionEntry) : Text :=
  functionName path ++ "() \x7b\n".toList
    ++ "  local curcontext=\"$curcontext\" state line ret=1\n  typeset -A opt_args\n\n".toList
    ++ argumentsCall "_arguments -C".toList " && ret=0".toList
        (options.flatMap optionSpecs ++ ["'1: :->cmds'".toList, "'*:: :->args'".toList])
    ++ "\n  case $state in\n    cmds)\n      local -a subcommands\n      subcommands=(\n".toList

/-- The line of the list that describes a subcommand. -/
def describeLine (c : CommandTree) : Text :=
  "        '".toList ++ quote c.name ++ ":".toList ++ quote c.description ++ "'\n".toList

/-- What stands in a block between the list of the subcommands and the choice between their functions. -/
def middle (path : List Text) : Text :=
  "      )\n      _describe -t commands '".toList ++ quote (Text.join [' '] (programName :: path))
    ++ " commands' subcommands && ret=0\n      ;;\n    args)\n      case $line[1] in\n".toList

/-- The lines of the choice that call the function of a subcommand. -/
def callLines (path : List Text) (c : CommandTree) : Text :=
  "        ".toList ++ c.name ++ ")\n          ".toList ++ functionName (path ++ [c.name])
    ++ " && ret=0\n          ;;\n".toList

/-- What stands in a block below the choice between the functions of the subcommands. -/
def closing : Text := "      esac\n      ;;\n  esac\n\n  return ret\n".toList ++ "\x7d\n\n".toList

/-- The block of a command with subcommands lists each of them once and calls the function of each of them once, in order. What
stands around the two lists has only the path and the options in it. -/
theorem block_of_not_isLeaf {x : Place} (h : x.tree.isLeaf = false) :
    block x = opening x.path x.tree.options ++ x.tree.subcommands.flatMap describeLine ++ middle x.path
      ++ x.tree.subcommands.flatMap (callLines x.path) ++ closing := by
  have hbody : (functionOf x.path x.tree).body = .branch (branchSpecs x.tree) (Text.join [' '] (programName :: x.path))
      (x.tree.subcommands.map fun c => (c.name, c.description))
      (x.tree.subcommands.map fun c => (c.name, functionName (x.path ++ [c.name]))) := by
    simp only [functionOf, h, Bool.false_eq_true, if_false]
  have hlist : (fun c : CommandTree => entryLine (c.name, c.description)) = describeLine := rfl
  have hcalls : (fun c : CommandTree => armLines (c.name, functionName (x.path ++ [c.name]))) = callLines x.path := rfl
  rw [block_eq, hbody]
  unfold FunctionBody.render opening middle closing
  dsimp only
  rw [List.flatMap_map, List.flatMap_map, hlist, hcalls, branchSpecs]
  simp only [List.append_assoc]

end Zsh

end DevWorkflow
