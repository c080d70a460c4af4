import DevWorkflow.Completion.Bash
import Mathlib.Data.List.Forall2

/-!
# How far the bash script looks

The script completes from two levels below the root. Of the commands on these it reads the names and the forms of the options, and
where nothing is below a command also which values may follow the options and whether other options are passed on. Of the commands
one level further down it reads the names, and nothing of what is below them. So trees that are alike that far have the same script
(`Bash.script_eq_of_alike`).
-/

namespace DevWorkflow

/-- Lists that are related one by one are mapped alike by functions that map related things alike. -/
theorem map_eq_map_of_forall₂ {α β γ : Type} {R : α → β → Prop} {f : α → γ} {g : β → γ} {as : List α} {bs : List β}
    (h : List.Forall₂ R as bs) (hfg : ∀ a b, R a b → f a = g b) : as.map f = bs.map g := by
  have hall : List.Forall₂ Eq (as.map f) (bs.map g) := List.forall₂_map_left_iff.2 (List.forall₂_map_right_iff.2 (h.imp hfg))
  rwa [List.forall₂_eq_eq_eq] at hall

/-! ## What is alike -/

namespace OptionEntry

/-- Whether two options have the same forms. -/
structure SameForms (o o' : OptionEntry) : Prop where
  long : o.long = o'.long
  short : o.short = o'.short
  shortOnly : o.shortOnly = o'.shortOnly

/-- Whether two options have the same forms and let the same values follow. -/
structure SameValues (o o' : OptionEntry) : Prop extends SameForms o o' where
  choices : o.choiceList = o'.choiceList

/-- Options of the same forms are named by the same words. -/
theorem SameForms.flagWords_eq {o o' : OptionEntry} (h : o.SameForms o') : o.flagWords = o'.flagWords := by
  rw [flagWords, flagWords, h.long, h.short, h.shortOnly]

end OptionEntry

namespace Bash

/-- Whether two commands have the same name, options of the same forms, and subcommands that are related one by one. -/
structure Alike (R : CommandTree → CommandTree → Prop) (t t' : CommandTree) : Prop where
  name : t.name = t'.name
  options : List.Forall₂ OptionEntry.SameForms t.options t'.options
  subcommands : List.Forall₂ R t.subcommands t'.subcommands

/-- Whether two commands, if nothing is below the first one, let the same values follow their options and agree on whether other
options are passed on. -/
def AlikeAsLeaves (t t' : CommandTree) : Prop :=
  t.isLeaf = true →
    List.Forall₂ OptionEntry.SameValues t.options t'.options ∧ t.allowUnknownOption = t'.allowUnknownOption

/-- Whether two commands are alike for a number of levels, their own first, and in name on the level below these. -/
def AlikeFor : Nat → CommandTree → CommandTree → Prop
  | 0, t, t' => t.name = t'.name
  | levels + 1, t, t' => Alike (AlikeFor levels) t t' ∧ AlikeAsLeaves t t'

theorem AlikeFor.name_eq {levels : Nat} {t t' : CommandTree} (h : AlikeFor levels t t') : t.name = t'.name := by
  cases levels with
  | zero => exact h
  | succ levels => exact h.1.name

namespace Alike

variable {levels : Nat} {t t' : CommandTree}

/-- Something is below both commands or below neither. -/
theorem isLeaf_eq (h : Alike (AlikeFor levels) t t') : t.isLeaf = t'.isLeaf := by
  rw [CommandTree.isLeaf, CommandTree.isLeaf, Bool.eq_iff_iff, List.isEmpty_iff_length_eq_zero, List.isEmpty_iff_length_eq_zero,
    h.subcommands.length_eq]

/-- The same words name the options. -/
theorem flagWords_eq (h : Alike (AlikeFor levels) t t') : t.flagWords = t'.flagWords := by
  have hall := map_eq_map_of_forall₂ h.options fun o o' => OptionEntry.SameForms.flagWords_eq
  rw [CommandTree.flagWords, CommandTree.flagWords, List.flatMap_def, hall, List.flatMap_def]

/-- The same words are offered. -/
theorem branchWords_eq (h : Alike (AlikeFor levels) t t') : branchWords t = branchWords t' := by
  have hnames := map_eq_map_of_forall₂ h.subcommands fun c c' => AlikeFor.name_eq
  rw [branchWords, branchWords, hnames, h.flagWords_eq]

end Alike

/-! ## What is written -/

/-- Options that let the same values follow have the same commands. -/
theorem choiceCommands_eq {o o' : OptionEntry} (h : o.SameValues o') : choiceCommands o = choiceCommands o' := by
  rw [choiceCommands, choiceCommands, h.choices, h.flagWords_eq]

/-- The commands for the options of which a part is left out by name. -/
theorem flatMap_choiceCommands_eq {os os' : List OptionEntry} (h : List.Forall₂ OptionEntry.SameValues os os')
    (isKept : Text → Bool) :
    (os.filter fun o => isKept o.long).flatMap choiceCommands = (os'.filter fun o => isKept o.long).flatMap choiceCommands := by
  induction h with
  | nil => rfl
  | @cons o o' os os' ho _ ih =>
    rw [List.filter_cons, List.filter_cons, ← ho.long]
    cases isKept o.long with
    | true => simp only [if_true, List.flatMap_cons, choiceCommands_eq ho, ih]
    | false => exact ih

/-- Commands without subcommands that are alike, below commands of the same name, are completed alike. -/
theorem leafCommands_eq {levels : Nat} {t t' : CommandTree} (h : AlikeFor (levels + 1) t t') (hleaf : t.isLeaf = true)
    (parent : Text) : leafCommands parent t = leafCommands parent t' := by
  obtain ⟨halike, hleaves⟩ := h
  obtain ⟨hvalues, hunknown⟩ := hleaves hleaf
  have hcommit : isGitCommit parent t = isGitCommit parent t' := by rw [isGitCommit, isGitCommit, halike.name]
  have hchoices := flatMap_choiceCommands_eq hvalues fun long => !(isGitCommit parent t' && long = "type".toList)
  rw [leafCommands, leafCommands, hcommit, hchoices, halike.flagWords_eq, hunknown]

/-- At the second level, commands that are alike for one level have the same arm. -/
theorem innerArm_eq {t t' : CommandTree} (h : AlikeFor 1 t t') (parent : Text) : innerArm parent t = innerArm parent t' := by
  rw [innerArm, innerArm, ← h.1.isLeaf_eq, h.1.name, h.1.branchWords_eq]
  cases hleaf : t.isLeaf with
  | true => rw [leafCommands_eq h hleaf]
  | false => rfl

/-- At the first level, commands that are alike for two levels have the same arm. -/
theorem outerArm_eq {t t' : CommandTree} (h : AlikeFor 2 t t') (root : Text) : outerArm root t = outerArm root t' := by
  have harms : t.subcommands.map (innerArm t.name) = t'.subcommands.map (innerArm t'.name) := by
    rw [← h.1.name]
    exact map_eq_map_of_forall₂ h.1.subcommands fun c c' hc => innerArm_eq hc t.name
  rw [outerArm, outerArm, ← h.1.isLeaf_eq, harms, h.1.name, h.1.branchWords_eq]
  cases hleaf : t.isLeaf with
  | true => rw [leafCommands_eq h hleaf]
  | false => rfl

/-- Trees that are alike for the first two levels below the root have the same function. -/
theorem functionLines_eq {t t' : CommandTree} (h : Alike (AlikeFor 2) t t') : functionLines t = functionLines t' := by
  have hfirst : firstWord t = firstWord t' := by rw [firstWord, firstWord, h.branchWords_eq]
  have hlater : laterWords t = laterWords t' := by
    have harms : t.subcommands.map (outerArm t.name) = t'.subcommands.map (outerArm t'.name) := by
      rw [← h.name]
      exact map_eq_map_of_forall₂ h.subcommands fun c c' hc => outerArm_eq hc t.name
    rw [laterWords, laterWords, harms]
  rw [functionLines, functionLines, hfirst, hlater]

/-- Trees have the same script if their roots have the same name and options of the same forms, and the commands below the roots are
alike for two levels and in name on the third. -/
theorem script_eq_of_alike {t t' : CommandTree} (h : Alike (AlikeFor 2) t t') : script t = script t' := by
  rw [script, script, scriptLines, scriptLines, functionLines_eq h]

/-- A tree with four levels below the root. -/
def deepTree : CommandTree :=
  { name := programName
    subcommands :=
      [{ name := "git".toList
         description := "Runs git".toList
         arguments := [{ name := "branch".toList }]
         allowUnknownOption := true
         subcommands :=
          [{ name := "commit".toList
             options := [{ long := "type".toList, choices := some ["feat".toList] }, { long := "sign".toList, choices := some [] }] },
            { name := "worktree".toList
              options := [{ long := "porcelain".toList, choices := some ["v1".toList, "v2".toList] }]
              subcommands :=
                [{ name := "list".toList
                   options := [{ long := "expire".toList }]
                   subcommands := [{ name := "all".toList }] }] }] }] }

/-- A tree that is like it as far as the script looks. -/
def shallowTree : CommandTree :=
  { name := programName
    description := "Does everything".toList
    subcommands :=
      [{ name := "git".toList
         subcommands :=
          [{ name := "commit".toList
             arguments := [{ name := "message".toList, required := true }]
             options := [{ long := "type".toList, choices := some ["feat".toList] }, { long := "sign".toList, isBoolean := true }] },
            { name := "worktree".toList
              options := [{ long := "porcelain".toList, usage := "--porcelain[=<version>]".toList }]
              subcommands := [{ name := "list".toList }] }] }] }

/-- The lower levels of the deeper tree leave no trace in its script. -/
theorem script_eq_of_alike_shallow : script deepTree = script shallowTree := by
  have hcommit : AlikeFor 1 deepTree.subcommands[0].subcommands[0] shallowTree.subcommands[0].subcommands[0] :=
    ⟨⟨rfl, .cons ⟨rfl, rfl, rfl⟩ (.cons ⟨rfl, rfl, rfl⟩ .nil), .nil⟩,
      fun _ => ⟨.cons ⟨⟨rfl, rfl, rfl⟩, rfl⟩ (.cons ⟨⟨rfl, rfl, rfl⟩, rfl⟩ .nil), rfl⟩⟩
  have hworktree : AlikeFor 1 deepTree.subcommands[0].subcommands[1] shallowTree.subcommands[0].subcommands[1] :=
    ⟨⟨rfl, .cons ⟨rfl, rfl, rfl⟩ .nil, .cons rfl .nil⟩, nofun⟩
  have hgit : AlikeFor 2 deepTree.subcommands[0] shallowTree.subcommands[0] :=
    ⟨⟨rfl, .nil, .cons hcommit (.cons hworktree .nil)⟩, nofun⟩
  exact script_eq_of_alike ⟨rfl, .nil, .cons hgit .nil⟩

end Bash

end DevWorkflow
