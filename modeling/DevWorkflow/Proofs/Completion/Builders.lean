import DevWorkflow.Proofs.Completion.Validity
import Mathlib.Data.List.Induction

/-!
# Trees that are put together step by step

The builders make an option from a flag or from an option with a value, by any steps in any order. Each step keeps the fields of the
option in agreement, and of the steps that set one field the last one counts. So a tree that is put together from such options can have
no defect but one of names, of long forms or of arguments that take all remaining words (`OptionRecipe.option_keeps_rules`).
-/

namespace DevWorkflow

/-! ## One option -/

/-- A step that changes an option. -/
inductive OptionStep where
  | short (c : Char)
  | shortOnly (c : Char)
  | choices (values : List Text)
  | variadic
deriving DecidableEq, Repr

namespace OptionStep

/-- The option after a step. -/
def apply (o : OptionEntry) : OptionStep → OptionEntry
  | short c => o.withShort c
  | shortOnly c => o.withShortOnly c
  | choices values => o.withChoices values
  | variadic => o.asVariadic

/-- The letter that a step sets. -/
def letter? : OptionStep → Option Char
  | short c => some c
  | shortOnly c => some c
  | _ => none

/-- The values that a step sets. -/
def values? : OptionStep → Option (List Text)
  | choices values => some values
  | _ => none

/-- Whether a step takes the long form away. -/
def dropsLong : OptionStep → Bool
  | shortOnly _ => true
  | _ => false

/-- What the last of some steps sets that sets anything. -/
def last? {α : Type} (setting? : OptionStep → Option α) (steps : List OptionStep) : Option α := (steps.filterMap setting?).getLast?

theorem last?_concat {α : Type} (setting? : OptionStep → Option α) (steps : List OptionStep) (s : OptionStep) :
    last? setting? (steps ++ [s]) = (setting? s).or (last? setting? steps) := by
  rw [last?, last?, List.filterMap_append]
  cases hs : setting? s <;> simp [hs]

/-- A step keeps the fields of an option in agreement. -/
theorem isCoherent_apply {o : OptionEntry} (h : o.IsCoherent) (s : OptionStep) : (s.apply o).IsCoherent := by
  cases s with
  | short c => exact ⟨fun _ => rfl, h.value⟩
  | shortOnly c => exact ⟨fun _ => rfl, h.value⟩
  | choices values => exact ⟨h.short, h.value⟩
  | variadic => exact ⟨h.short, h.value⟩

/-- Whether one option comes from another one by some steps: it has what the last steps have set, and the rest, its usage apart, from
the other option. -/
structure LeadsTo (o : OptionEntry) (steps : List OptionStep) (o' : OptionEntry) : Prop where
  long : o'.long = o.long
  description : o'.description = o.description
  required : o'.required = o.required
  isBoolean : o'.isBoolean = o.isBoolean
  valueName : o'.valueName = o.valueName
  short : o'.short = (last? letter? steps).or o.short
  shortOnly : o'.shortOnly = (o.shortOnly || steps.any dropsLong)
  isVariadic : o'.isVariadic = (o.isVariadic || steps.contains .variadic)
  choices : o'.choices = (last? values? steps).or o.choices

theorem LeadsTo.nil (o : OptionEntry) : LeadsTo o [] o :=
  ⟨rfl, rfl, rfl, rfl, rfl, rfl, (Bool.or_false _).symm, (Bool.or_false _).symm, rfl⟩

/-- One more step sets what it says and keeps the rest. -/
theorem LeadsTo.concat {o o' : OptionEntry} {steps : List OptionStep} (h : LeadsTo o steps o') (s : OptionStep) :
    LeadsTo o (steps ++ [s]) (s.apply o') := by
  have hshort : (s.apply o').short = s.letter?.or o'.short := by cases s <;> rfl
  have hshortOnly : (s.apply o').shortOnly = (o'.shortOnly || s.dropsLong) := by
    cases s with
    | shortOnly c => exact (Bool.or_true _).symm
    | _ => exact (Bool.or_false _).symm
  have hvariadic : (s.apply o').isVariadic = (o'.isVariadic || decide (.variadic = s)) := by
    cases s with
    | variadic => exact (Bool.or_true _).symm
    | _ => exact (Bool.or_false _).symm
  have hchoices : (s.apply o').choices = s.values?.or o'.choices := by cases s <;> rfl
  refine ⟨?_, ?_, ?_, ?_, ?_, ?_, ?_, ?_, ?_⟩
  · cases s <;> exact h.long
  · cases s <;> exact h.description
  · cases s <;> exact h.required
  · cases s <;> exact h.isBoolean
  · cases s <;> exact h.valueName
  · rw [hshort, h.short, last?_concat, Option.or_assoc]
  · rw [hshortOnly, h.shortOnly, List.any_append, List.any_cons, List.any_nil, Bool.or_false, Bool.or_assoc]
  · simp [hvariadic, h.isVariadic, Bool.or_assoc]
  · rw [hchoices, h.choices, last?_concat, Option.or_assoc]

/-- Any steps lead where the last of them set the fields. -/
theorem leadsTo_foldl (o : OptionEntry) (steps : List OptionStep) : LeadsTo o steps (steps.foldl apply o) := by
  -- the last step is the one that counts, so the induction is on the end of the steps
  induction steps using List.reverseRecOn with
  | nil => exact .nil o
  | append_singleton steps s ih =>
    rw [List.foldl_concat]
    exact ih.concat s

end OptionStep

/-- How an option is built: what it starts from, and the steps after that. -/
structure OptionRecipe where
  takesValue : Bool
  long : Text
  description : Text
  steps : List OptionStep

namespace OptionRecipe

open OptionStep

/-- The option that the steps start from. -/
def start (r : OptionRecipe) : OptionEntry := if r.takesValue then .value r.long r.description else .flag r.long r.description

/-- The option after all steps. -/
def option (r : OptionRecipe) : OptionEntry := r.steps.foldl OptionStep.apply r.start

theorem isCoherent_start (r : OptionRecipe) : r.start.IsCoherent := by
  rw [start]
  cases r.takesValue with
  | false => exact ⟨nofun, rfl⟩
  | true => exact ⟨nofun, rfl⟩

/-- The fields of an option that is built agree. -/
theorem isCoherent_option (r : OptionRecipe) : r.option.IsCoherent :=
  List.foldlRecOn r.steps OptionStep.apply r.isCoherent_start fun _ h s _ => isCoherent_apply h s

/-- What an option starts from has no short form and no values, and may not be repeated. -/
theorem start_eq (r : OptionRecipe) :
    r.start.short = none ∧ r.start.shortOnly = false ∧ r.start.isVariadic = false ∧ r.start.choices = none := by
  rw [start]
  cases r.takesValue with
  | false => exact ⟨rfl, rfl, rfl, rfl⟩
  | true => exact ⟨rfl, rfl, rfl, rfl⟩

theorem any_dropsLong_iff (steps : List OptionStep) : steps.any dropsLong = true ↔ ∃ c, .shortOnly c ∈ steps := by
  rw [List.any_eq_true]
  constructor
  · rintro ⟨s, hs, hdrops⟩
    cases s with
    | shortOnly c => exact ⟨c, hs⟩
    | short c => exact absurd hdrops Bool.false_ne_true
    | choices values => exact absurd hdrops Bool.false_ne_true
    | variadic => exact absurd hdrops Bool.false_ne_true
  · rintro ⟨c, hc⟩
    exact ⟨.shortOnly c, hc, rfl⟩

end OptionRecipe

/-! ## The whole tree -/

namespace CommandTree

/-- Whether a tree is put together by the builders, from options that are built. -/
inductive IsAssembled : CommandTree → Prop where
  | ofName (name description : Text) : IsAssembled (.ofName name description)
  | addOption {t : CommandTree} (h : IsAssembled t) (r : OptionRecipe) : IsAssembled (t.addOption r.option)
  | addArgument {t : CommandTree} (h : IsAssembled t) (a : ArgumentEntry) : IsAssembled (t.addArgument a)
  | addSubcommand {t c : CommandTree} (h : IsAssembled t) (hc : IsAssembled c) : IsAssembled (t.addSubcommand c)
  | passingUnknownOptions {t : CommandTree} (h : IsAssembled t) : IsAssembled t.passingUnknownOptions

/-- Whether every option of a tree is built. -/
def HasBuiltOptions (t : CommandTree) : Prop := ∀ c ∈ t.commands, ∀ o ∈ c.options, ∃ r : OptionRecipe, r.option = o

theorem hasBuiltOptions_iff (t : CommandTree) :
    t.HasBuiltOptions ↔ (∀ o ∈ t.options, ∃ r : OptionRecipe, r.option = o) ∧ ∀ c ∈ t.subcommands, c.HasBuiltOptions := by
  rw [HasBuiltOptions, commands_eq, List.forall_mem_cons, List.forall_mem_flatMap]
  rfl

/-- What the builders put together has no other options. -/
theorem IsAssembled.hasBuiltOptions {t : CommandTree} (h : IsAssembled t) : t.HasBuiltOptions := by
  induction h with
  | ofName name description => exact (hasBuiltOptions_iff _).2 ⟨List.forall_mem_nil _, List.forall_mem_nil _⟩
  | addOption _ r ih =>
    obtain ⟨hoptions, hbelow⟩ := (hasBuiltOptions_iff _).1 ih
    exact (hasBuiltOptions_iff _).2
      ⟨List.forall_mem_append.2 ⟨hoptions, List.forall_mem_singleton.2 ⟨r, rfl⟩⟩, hbelow⟩
  | @addArgument t _ a ih => exact (hasBuiltOptions_iff (t.addArgument a)).2 ((hasBuiltOptions_iff t).1 ih)
  | addSubcommand _ _ ih ihc =>
    obtain ⟨hoptions, hbelow⟩ := (hasBuiltOptions_iff _).1 ih
    exact (hasBuiltOptions_iff _).2 ⟨hoptions, List.forall_mem_append.2 ⟨hbelow, List.forall_mem_singleton.2 ihc⟩⟩
  | @passingUnknownOptions t _ ih => exact (hasBuiltOptions_iff t.passingUnknownOptions).2 ((hasBuiltOptions_iff t).1 ih)

namespace IsAssembled

variable {t : CommandTree} (h : IsAssembled t)
include h

/-- Some options that are built may be added one after another. -/
theorem addOptions {os : List OptionEntry} (hos : ∀ o ∈ os, ∃ r : OptionRecipe, r.option = o) :
    IsAssembled { t with options := t.options ++ os } := by
  induction os generalizing t with
  | nil =>
    cases t
    simpa using h
  | cons o os ih =>
    obtain ⟨⟨r, rfl⟩, hrest⟩ := List.forall_mem_cons.1 hos
    simpa [CommandTree.addOption] using ih (h.addOption r) hrest

theorem addArguments (as : List ArgumentEntry) : IsAssembled { t with arguments := t.arguments ++ as } := by
  induction as generalizing t with
  | nil =>
    cases t
    simpa using h
  | cons a as ih =>
    simpa [CommandTree.addArgument] using ih (h.addArgument a)

theorem addSubcommands {cs : List CommandTree} (hcs : ∀ c ∈ cs, IsAssembled c) :
    IsAssembled { t with subcommands := t.subcommands ++ cs } := by
  induction cs generalizing t with
  | nil =>
    cases t
    simpa using h
  | cons c cs ih =>
    obtain ⟨hc, hrest⟩ := List.forall_mem_cons.1 hcs
    simpa [CommandTree.addSubcommand] using ih (h.addSubcommand hc) hrest

end IsAssembled

/-- The trees that are put together so are all trees whose options are built. -/
theorem isAssembled_iff_hasBuiltOptions (t : CommandTree) : IsAssembled t ↔ t.HasBuiltOptions := by
  refine ⟨IsAssembled.hasBuiltOptions, fun h => ?_⟩
  induction t using induction_below with
  | step t ih =>
    obtain ⟨hoptions, hbelow⟩ := (hasBuiltOptions_iff t).1 h
    have hchildren : ∀ c ∈ t.subcommands, IsAssembled c := fun c hc => ih c hc (hbelow c hc)
    obtain ⟨name, description, options, arguments, subcommands, passes⟩ := t
    have hall : IsAssembled { name, description, options, arguments, subcommands } :=
      (((IsAssembled.ofName name description).addOptions hoptions).addArguments arguments).addSubcommands hchildren
    cases passes with
    | false => exact hall
    | true => exact hall.passingUnknownOptions

/-- The rules for a command that say nothing about the fields of an option: it has a name, its long forms and the names of its
subcommands are different, none of these is called `help`, and only its last argument may take all remaining words. -/
structure IsTidy (t : CommandTree) : Prop where
  named : t.name ≠ []
  longs : (t.options.map (·.long)).Nodup
  onlyLast : ∀ a ∈ t.arguments.dropLast, a.variadic = false
  siblings : (t.subcommands.map (·.name)).Nodup
  noHelp : ∀ c ∈ t.subcommands, c.name ≠ helpName

instance (t : CommandTree) : Decidable t.IsTidy :=
  decidable_of_iff (t.name ≠ [] ∧ (t.options.map (·.long)).Nodup ∧ (∀ a ∈ t.arguments.dropLast, a.variadic = false) ∧
      (t.subcommands.map (·.name)).Nodup ∧ ∀ c ∈ t.subcommands, c.name ≠ helpName)
    ⟨fun ⟨named, longs, onlyLast, siblings, noHelp⟩ => ⟨named, longs, onlyLast, siblings, noHelp⟩,
      fun h => ⟨h.named, h.longs, h.onlyLast, h.siblings, h.noHelp⟩⟩

/-- A command is well-formed if it follows these rules and the fields of its options agree. -/
theorem isWellFormed_iff (t : CommandTree) : t.IsWellFormed ↔ t.IsTidy ∧ ∀ o ∈ t.options, o.IsCoherent := by
  constructor
  · intro h
    exact ⟨⟨h.named, h.longs, h.onlyLast, h.siblings, h.noHelp⟩, h.coherent⟩
  · rintro ⟨h, hcoherent⟩
    exact ⟨h.named, h.longs, hcoherent, h.onlyLast, h.siblings, h.noHelp⟩

/-- In a tree whose options are built, the fields of the options are never the defect. -/
theorem HasBuiltOptions.defect?_eq_none_iff {t : CommandTree} (h : t.HasBuiltOptions) :
    t.defect? = none ↔ ∀ c ∈ t.commands, c.IsTidy := by
  rw [CommandTree.defect?_eq_none_iff]
  refine forall_congr' fun c => forall_congr' fun hc => ?_
  rw [isWellFormed_iff]
  refine and_iff_left ?_
  intro o ho
  obtain ⟨r, rfl⟩ := h c hc o ho
  exact r.isCoherent_option

end CommandTree

/-- However an option is built, its fields agree. It keeps the long form, the description and all that says whether a value follows; its
short form is the last letter that was set, the long form is gone just if a step took it away, it may be repeated just if a step says so,
and its values are those that were set last. So a tree that is put together from such options has no defect just if every command in it
is tidy. -/
theorem OptionRecipe.option_keeps_rules :
    (∀ r : OptionRecipe,
      r.option.IsCoherent ∧
      (r.option.long = r.start.long ∧ r.option.description = r.start.description ∧ r.option.isBoolean = r.start.isBoolean ∧
        r.option.required = r.start.required ∧ r.option.valueName = r.start.valueName) ∧
      r.option.short = OptionStep.last? OptionStep.letter? r.steps ∧
      (r.option.shortOnly = true ↔ ∃ c, .shortOnly c ∈ r.steps) ∧
      (r.option.isVariadic = true ↔ .variadic ∈ r.steps) ∧
      r.option.choices = OptionStep.last? OptionStep.values? r.steps) ∧
    ∀ t : CommandTree, t.IsAssembled → (t.defect? = none ↔ ∀ c ∈ t.commands, c.IsTidy) := by
  constructor
  · intro r
    obtain ⟨hshort, hshortOnly, hvariadic, hchoices⟩ := r.start_eq
    have h : OptionStep.LeadsTo r.start r.steps r.option := OptionStep.leadsTo_foldl r.start r.steps
    refine ⟨r.isCoherent_option, ⟨h.long, h.description, h.isBoolean, h.required, h.valueName⟩, ?_, ?_, ?_, ?_⟩
    · rw [h.short, hshort, Option.or_none]
    · rw [h.shortOnly, hshortOnly, Bool.false_or, any_dropsLong_iff]
    · rw [h.isVariadic, hvariadic, Bool.false_or, List.contains_iff_mem]
    · rw [h.choices, hchoices, Option.or_none]
  · intro t h
    exact (t.isAssembled_iff_hasBuiltOptions.1 h).defect?_eq_none_iff

/-- An option that is given one short form after another, and values twice. -/
def countRecipe : OptionRecipe where
  takesValue := true
  long := "num".toList
  description := "How many".toList
  steps := [.choices ["0".toList], .shortOnly 'n', .variadic, .short 'c', .choices ["1".toList, "5".toList]]

/-- A flag with a short form. -/
def quietRecipe : OptionRecipe where
  takesValue := false
  long := "quiet".toList
  description := []
  steps := [.short 'q']

/-- A command line with a command that has both options and takes all remaining words. -/
def countTree : CommandTree :=
  let log := (((CommandTree.ofName "log".toList []).addOption countRecipe.option).addOption quietRecipe.option).addArgument
    (ArgumentEntry.ofName "paths".toList []).asVariadic
  (CommandTree.ofName "devx".toList []).addSubcommand log.passingUnknownOptions

/-- The tree has no defect, and the option has the letter and the values that were set last, although its long form was gone before. -/
theorem OptionRecipe.option_keeps_rules_countTree :
    countTree.IsAssembled ∧ (∀ c ∈ countTree.commands, c.IsTidy) ∧ countTree.defect? = none ∧
    countRecipe.option.IsCoherent ∧ countRecipe.option.short = some 'c' ∧ countRecipe.option.shortOnly = true ∧
    countRecipe.option.choices = some ["1".toList, "5".toList] := by
  obtain ⟨hoption, htree⟩ := option_keeps_rules
  obtain ⟨hcoherent, -, hshort, hshortOnly, -, hchoices⟩ := hoption countRecipe
  have hassembled : countTree.IsAssembled := by
    refine .addSubcommand (.ofName _ _) (.passingUnknownOptions (.addArgument ?_ _))
    exact .addOption (.addOption (.ofName _ _) countRecipe) quietRecipe
  have htidy : ∀ c ∈ countTree.commands, c.IsTidy := by decide
  refine ⟨hassembled, htidy, (htree countTree hassembled).2 htidy, hcoherent, hshort, ?_, hchoices⟩
  exact hshortOnly.2 ⟨'n', by decide⟩

end DevWorkflow
