import DevWorkflow.Proofs.Completion.Fish.Rules
import DevWorkflow.Proofs.Completion.Zsh.Blocks

/-!
# What the scripts for zsh and fish are made of

Much of a tree does not reach these scripts: how an option was declared, whether it needs a value or may be repeated, the positional
arguments of commands that have subcommands, whether an empty list of choices is given, and what the root does. The essence of a
tree is what remains of it (`CommandTree.essence`), and trees with the same essence have the same scripts
(`CommandTree.scripts_eq_of_essence_eq`).
-/

namespace DevWorkflow

/-! ## Changes throughout a tree -/

/-- A change to be made at every command of a tree, which leaves the names and what stands below what. -/
structure Retouch where
  description : Text → Text := id
  option : OptionEntry → OptionEntry := id
  /-- What becomes of the positional arguments, given whether nothing is below the command. -/
  arguments : Bool → List ArgumentEntry → List ArgumentEntry := fun _ => id

namespace CommandTree

mutual

/-- The tree with a change made at every command. -/
def retouch (r : Retouch) : CommandTree → CommandTree
  | { name, description, options, arguments, subcommands, allowUnknownOption } =>
    { name
      description := r.description description
      options := options.map r.option
      arguments := r.arguments subcommands.isEmpty arguments
      subcommands := retouchAll r subcommands
      allowUnknownOption }

/-- Some trees, each with the change made at every command. -/
def retouchAll (r : Retouch) : List CommandTree → List CommandTree
  | [] => []
  | c :: rest => retouch r c :: retouchAll r rest

end

variable (r : Retouch)

theorem retouchAll_eq (cs : List CommandTree) : retouchAll r cs = cs.map (retouch r) := by
  induction cs with
  | nil => rfl
  | cons c rest ih => rw [retouchAll, ih, List.map_cons]

/-- A changed command, with its subcommands one by one. -/
theorem retouch_eq (t : CommandTree) :
    t.retouch r =
      { name := t.name
        description := r.description t.description
        options := t.options.map r.option
        arguments := r.arguments t.isLeaf t.arguments
        subcommands := t.subcommands.map (retouch r)
        allowUnknownOption := t.allowUnknownOption } := by
  cases t
  rw [retouch, retouchAll_eq]
  rfl

@[simp]
theorem name_retouch (t : CommandTree) : (t.retouch r).name = t.name := by rw [retouch_eq]

@[simp]
theorem description_retouch (t : CommandTree) : (t.retouch r).description = r.description t.description := by rw [retouch_eq]

@[simp]
theorem options_retouch (t : CommandTree) : (t.retouch r).options = t.options.map r.option := by rw [retouch_eq]

@[simp]
theorem arguments_retouch (t : CommandTree) : (t.retouch r).arguments = r.arguments t.isLeaf t.arguments := by rw [retouch_eq]

@[simp]
theorem subcommands_retouch (t : CommandTree) : (t.retouch r).subcommands = t.subcommands.map (retouch r) := by rw [retouch_eq]

@[simp]
theorem allowUnknownOption_retouch (t : CommandTree) : (t.retouch r).allowUnknownOption = t.allowUnknownOption := by
  rw [retouch_eq]

@[simp]
theorem isLeaf_retouch (t : CommandTree) : (t.retouch r).isLeaf = t.isLeaf := by
  rw [isLeaf, isLeaf, subcommands_retouch, List.isEmpty_map]

/-- From the bottom up the changed commands stand where the commands stood. -/
theorem bottomUp_retouch (path : List Text) (t : CommandTree) :
    (t.retouch r).bottomUp path = (t.bottomUp path).map fun x => ⟨x.path, x.tree.retouch r⟩ := by
  induction t using induction_below generalizing path with
  | step t ih =>
    rw [bottomUp_eq, bottomUp_eq, subcommands_retouch, List.flatMap_map, List.map_append, List.map_flatMap, List.map_singleton]
    refine congrArg (· ++ _) (List.flatMap_congr fun c hc => ?_)
    rw [name_retouch, ih c hc]

/-- From the top down the changed commands stand where the commands stood. -/
theorem topDown_retouch (path : List Text) (t : CommandTree) :
    (t.retouch r).topDown path = (t.topDown path).map fun x => ⟨x.path, x.tree.retouch r⟩ := by
  induction t using induction_below generalizing path with
  | step t ih =>
    rw [topDown_eq, topDown_eq, subcommands_retouch, List.flatMap_map, List.map_cons, List.map_flatMap]
    refine congrArg (_ :: ·) (List.flatMap_congr fun c hc => ?_)
    rw [name_retouch, ih c hc]

end CommandTree

/-! ## The essence of a tree -/

/-- What an option shows of itself: no forms as declared, nothing on values that must follow or may be repeated, and no empty list
of choices. -/
def OptionEntry.essence (o : OptionEntry) : OptionEntry :=
  { o with usage := [], required := false, isVariadic := false, choices := o.choiceList }

/-- What an argument shows of itself: no empty list of choices. -/
def ArgumentEntry.essence (a : ArgumentEntry) : ArgumentEntry := { a with choices := a.choiceList }

/-- The change that leaves of options and arguments what they show, and no arguments where something is below. -/
def Retouch.toEssence : Retouch where
  option := OptionEntry.essence
  arguments isLeaf as := if isLeaf then as.map ArgumentEntry.essence else []

/-- What a tree shows of itself: what its commands show, but nothing on what the root does. -/
def CommandTree.essence (t : CommandTree) : CommandTree := { t.retouch .toEssence with description := [] }

theorem closedChoices_closedChoices (choices : Option (List Text)) :
    closedChoices (closedChoices choices) = closedChoices choices := by
  rcases choices with _ | (_ | ⟨c, cs⟩) <;> rfl

@[simp]
theorem OptionEntry.choiceList_essence (o : OptionEntry) : o.essence.choiceList = o.choiceList :=
  closedChoices_closedChoices o.choices

@[simp]
theorem ArgumentEntry.choiceList_essence (a : ArgumentEntry) : a.essence.choiceList = a.choiceList :=
  closedChoices_closedChoices a.choices

/-- What completes an argument is seen from its essence. -/
@[simp]
theorem ArgumentEntry.source_essence (a : ArgumentEntry) (parent : Text) : a.essence.source parent = a.source parent := by
  rw [source, source, choiceList_essence]
  rfl

namespace Zsh

theorem optionSpecs_essence (o : OptionEntry) : optionSpecs o.essence = optionSpecs o := by
  have hvalue : valuePart o.essence = valuePart o := by
    rw [valuePart, valuePart, OptionEntry.choiceList_essence]
    rfl
  rw [optionSpecs, optionSpecs, hvalue]
  rfl

theorem argumentSpecsFrom_essence (parent : Text) (position : Nat) (as : List ArgumentEntry) :
    argumentSpecsFrom parent position (as.map ArgumentEntry.essence) = argumentSpecsFrom parent position as := by
  induction as generalizing position with
  | nil => rfl
  | cons a rest ih =>
    rw [List.map_cons, argumentSpecsFrom, argumentSpecsFrom, ih, argumentSpec, argumentSpec, ArgumentEntry.source_essence]
    rfl

theorem flatMap_optionSpecs_essence (t : CommandTree) :
    (t.retouch .toEssence).options.flatMap optionSpecs = t.options.flatMap optionSpecs := by
  rw [CommandTree.options_retouch, List.flatMap_map]
  exact List.flatMap_congr fun o _ => optionSpecs_essence o

/-- What a command without subcommands shows is all that its specifications say. -/
theorem leafSpecs_essence {t : CommandTree} (h : t.isLeaf = true) : leafSpecs (t.retouch .toEssence) = leafSpecs t := by
  have harguments : (t.retouch .toEssence).arguments = t.arguments.map ArgumentEntry.essence := by
    rw [CommandTree.arguments_retouch, h]
    rfl
  have hvariadic : (t.arguments.map ArgumentEntry.essence).any (·.variadic) = t.arguments.any (·.variadic) := List.any_map
  rw [leafSpecs, leafSpecs, flatMap_optionSpecs_essence, harguments, CommandTree.name_retouch, argumentSpecsFrom_essence,
    hvariadic, CommandTree.allowUnknownOption_retouch]

/-- The function of a command is seen from what the commands show. -/
theorem functionOf_essence (path : List Text) (t : CommandTree) : functionOf path (t.retouch .toEssence) = functionOf path t := by
  rw [functionOf, functionOf, CommandTree.isLeaf_retouch]
  cases hleaf : t.isLeaf with
  | true => rw [leafSpecs_essence hleaf]; rfl
  | false =>
    have hspecs : branchSpecs (t.retouch .toEssence) = branchSpecs t := by
      rw [branchSpecs, branchSpecs, flatMap_optionSpecs_essence]
    rw [hspecs, CommandTree.subcommands_retouch, List.map_map, List.map_map]
    simp [Function.comp_def, Retouch.toEssence]

/-- The script is seen from the essence. -/
theorem script_essence (t : CommandTree) : script t.essence = script t := by
  have hroot : functionsAt [] t.essence = functionsAt [] (t.retouch .toEssence) := by
    rw [functionsAt_eq, functionsAt_eq, CommandTree.bottomUp_eq, CommandTree.bottomUp_eq, List.map_append, List.map_append]
    rfl
  have hfunctions : functionsAt [] (t.retouch .toEssence) = functionsAt [] t := by
    rw [functionsAt_eq, functionsAt_eq, CommandTree.bottomUp_retouch, List.map_map]
    exact List.map_congr_left fun x _ => functionOf_essence x.path x.tree
  rw [script, script, hroot, hfunctions]

end Zsh

namespace Fish

theorem optionRule_essence (path : List Text) (t : CommandTree) (o : OptionEntry) :
    optionRule path (t.retouch .toEssence) o.essence = optionRule path t o := by
  rw [optionRule, optionRule, OptionEntry.choiceList_essence, CommandTree.allowUnknownOption_retouch]
  rfl

theorem argumentRule?_essence (path : List Text) (t : CommandTree) (a : ArgumentEntry) :
    argumentRule? path (t.retouch .toEssence) a.essence = argumentRule? path t a := by
  rw [argumentRule?, argumentRule?, ArgumentEntry.source_essence, CommandTree.name_retouch,
    CommandTree.allowUnknownOption_retouch]
  rfl

/-- The section of a command is seen from what the commands show. -/
theorem sectionOf_essence (x : Place) : sectionOf ⟨x.path, x.tree.retouch .toEssence⟩ = sectionOf x := by
  have hrules : rulesOf ⟨x.path, x.tree.retouch .toEssence⟩ = rulesOf x := by
    have hoptions : ((x.tree.retouch .toEssence).options.map (optionRule x.path (x.tree.retouch .toEssence))) =
        x.tree.options.map (optionRule x.path x.tree) := by
      rw [CommandTree.options_retouch, List.map_map]
      exact List.map_congr_left fun o _ => optionRule_essence x.path x.tree o
    have hsubcommands : ((x.tree.retouch .toEssence).subcommands.map (childRule x.path (x.tree.retouch .toEssence))) =
        x.tree.subcommands.map (childRule x.path x.tree) := by
      rw [CommandTree.subcommands_retouch, List.map_map]
      refine List.map_congr_left fun c _ => ?_
      simp [childRule, Retouch.toEssence]
    rw [rulesOf, rulesOf, hoptions, hsubcommands, CommandTree.isLeaf_retouch]
    cases hleaf : x.tree.isLeaf with
    | false => rfl
    | true =>
      have harguments : (x.tree.retouch .toEssence).arguments = x.tree.arguments.map ArgumentEntry.essence := by
        rw [CommandTree.arguments_retouch, hleaf]
        rfl
      have hall : argumentRule? x.path (x.tree.retouch .toEssence) ∘ ArgumentEntry.essence = argumentRule? x.path x.tree :=
        funext fun a => argumentRule?_essence x.path x.tree a
      rw [harguments, List.filterMap_map, hall]
  rw [sectionOf, sectionOf, hrules]

/-- The script is seen from the essence. -/
theorem script_essence (t : CommandTree) : script t.essence = script t := by
  have hroot : items t.essence = items (t.retouch .toEssence) := by
    rw [items_eq, items_eq, CommandTree.topDown_eq, CommandTree.topDown_eq]
    rfl
  have hitems : items (t.retouch .toEssence) = items t := by
    rw [items_eq, items_eq, CommandTree.topDown_retouch, List.flatMap_map]
    exact List.flatMap_congr fun x _ => sectionOf_essence x
  rw [script, script, hroot, hitems]

end Fish

/-- Trees with the same essence have the same scripts for zsh and fish. So these scripts do not depend on the positional arguments of
commands with subcommands, on how options were declared, on whether they need a value or may be repeated, on whether an empty list
of choices is given, nor on what the root does. -/
theorem CommandTree.scripts_eq_of_essence_eq {t t' : CommandTree} (h : t.essence = t'.essence) :
    Zsh.script t = Zsh.script t' ∧ Fish.script t = Fish.script t' := by
  constructor
  · rw [← Zsh.script_essence t, h, Zsh.script_essence]
  · rw [← Fish.script_essence t, h, Fish.script_essence]

/-- A tree of a command with a subcommand, each with some of what does not reach the scripts. -/
def wordyTree : CommandTree :=
  { name := programName
    description := "Does everything".toList
    arguments := [{ name := "branch".toList, required := true }]
    subcommands :=
      [{ name := "run".toList
         options := [{ OptionEntry.value "mode".toList "How to run".toList with isVariadic := true, choices := some [] }]
         arguments := [{ name := "key".toList, choices := some [] }] }] }

/-- The same tree without it. -/
def terseTree : CommandTree :=
  { name := programName
    subcommands :=
      [{ name := "run".toList
         options := [{ long := "mode".toList, description := "How to run".toList, valueName := some "mode".toList }]
         arguments := [{ name := "key".toList }] }] }

/-- Both trees have the same scripts. -/
theorem scripts_eq_of_essence_eq_terse :
    wordyTree.arguments ≠ terseTree.arguments ∧ Zsh.script wordyTree = Zsh.script terseTree ∧
      Fish.script wordyTree = Fish.script terseTree := by
  have hessence : wordyTree.essence = terseTree.essence := rfl
  exact ⟨by decide, CommandTree.scripts_eq_of_essence_eq hessence⟩

end DevWorkflow
