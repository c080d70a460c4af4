import DevWorkflow.Proofs.Completion.Bash.Reading
import DevWorkflow.Proofs.Completion.Fish.Rules
import DevWorkflow.Proofs.Completion.Quoting
import DevWorkflow.Proofs.Completion.Zsh.Specs
import Mathlib.Data.List.Infix

/-!
# Listed values in the scripts

The values that an option or an argument allows are written into one quoted list, with spaces between them and each on one line.
Wherever a shell offers them it finds the words of the values in the list, one after another (`CommandTree.values_offered`). These
are the values themselves if each of them is one word. A value with a blank in it falls apart, and one without words is lost
(`CommandTree.readList?_rehearsalTree`).
-/

namespace DevWorkflow

/-! ## What a shell makes of a list of values -/

/-- The candidates in a list that is written in parentheses between single quotes. -/
def Zsh.readList? (action : Text) : Option (List Text) :=
  match ShellWords.split (inQuotes action) with
  | some ['(' :: list] => if list.getLast? = some ')' then some (ShellWords.fields list.dropLast) else none
  | _ => none

/-- The candidates in a list that is written between double quotes. -/
def Bash.readList? (list : Text) : Option (List Text) :=
  match ShellWords.split ("\"".toList ++ list ++ "\"".toList) with
  | some [w] => some (ShellWords.fields w)
  | _ => none

/-- The candidates in a list that is written between the single quotes of fish. -/
def Fish.readList? (list : Text) : Option (List Text) :=
  match readQuoted? (list ++ ['\'']) with
  | some (w, []) => some (ShellWords.fields w)
  | _ => none

namespace Zsh

theorem quotedWords_eq (ts : List Text) : quotedWords ts = escape (Text.join [' '] (ts.map Text.singleLine)) := by
  rw [quotedWords, escape, Text.replace, Text.flatMap_join, List.map_map]
  rfl

/-- The candidates in a list of values are the words of the values. -/
theorem readList?_listing (values : List Text) : readList? (listing values) = some (values.flatMap Text.words) := by
  have hlisting : listing values = escape ('(' :: (Text.join [' '] (values.map Text.singleLine) ++ [')'])) := by
    rw [listing, quotedWords_eq, escape_cons, escape_append]
    rfl
  rw [readList?, hlisting, ShellWords.split_single]
  simp only [List.getLast?_concat, if_true, List.dropLast_concat, ShellWords.fields_join_singleLine]

end Zsh

namespace Bash

theorem wordList_eq (ts : List Text) : wordList ts = escape (Text.join [' '] (ts.map Text.singleLine)) := by
  rw [wordList, escape, Text.flatMap_join, List.map_map]
  rfl

/-- The candidates in a list of values are the words of the values. -/
theorem readList?_wordList (values : List Text) : readList? (wordList values) = some (values.flatMap Text.words) := by
  rw [readList?, wordList_eq, ShellWords.split_double]
  simp only [ShellWords.fields_join_singleLine]

end Bash

namespace Fish

/-- The candidates in a list of values are the words of the values. -/
theorem readList?_quote (values : List Text) :
    readList? (quote (Text.join [' '] values)) = some (values.flatMap Text.words) := by
  have hfields := ShellWords.fields_join_singleLine [Text.join [' '] values]
  rw [List.map_singleton, Text.join_singleton, List.flatMap_singleton, Text.words_join] at hfields
  rw [readList?, quote_eq, readQuoted?_escape]
  simp only [hfields]

end Fish

/-- Values are their own words just if each of them is one word. -/
theorem Text.flatMap_words_eq_self_iff (values : List Text) :
    values.flatMap Text.words = values ↔ ∀ v ∈ values, v ≠ [] ∧ ∀ c ∈ v, Text.isBlank c = false := by
  constructor
  · intro h v hv
    rw [← h] at hv
    obtain ⟨u, -, hu⟩ := List.mem_flatMap.1 hv
    exact Text.of_mem_words hu
  · intro h
    have hword : ∀ v ∈ values, Text.words v = [v] := fun v hv => Text.words_eq_singleton (h v hv).1 (h v hv).2
    rw [List.flatMap_congr hword]
    exact List.flatMap_singleton' values

/-! ## Lists in the zsh script -/

namespace Zsh

/-- An option with listed values is described with its value's name and the list. -/
theorem optionSpecs_of_choices {o : OptionEntry} (ho : o.isBoolean = false) {values : List Text}
    (hvalues : o.choiceList = some values) {spec : Text} (h : spec ∈ optionSpecs o) :
    ∃ form, spec =
      inQuotes (form ++ bracketed o ++ ":".toList ++ quote (o.valueName.getD o.long) ++ ":".toList ++ listing values) := by
  have hpart : valuePart o = ":".toList ++ quote (o.valueName.getD o.long) ++ ":".toList ++ listing values := by
    rw [valuePart, ho, hvalues]
    rfl
  obtain ⟨form, -, marker, -, rfl⟩ := exists_form_of_mem_optionSpecs h
  exact ⟨form ++ marker, by rw [hpart]; simp only [List.append_assoc]⟩

end Zsh

/-! ## Lists in the fish script -/

namespace Fish

theorem infix_script {t : CommandTree} {x : Place} (hx : x ∈ t.topDown []) {r : Rule} (h : r ∈ rulesOf x) :
    r.render ++ ['\n'] <:+: script t := by
  have hline : r.render ∈ (t.topDown []).flatMap sectionLines := by
    refine List.mem_flatMap.2 ⟨x, hx, ?_⟩
    exact List.mem_append_left _ (List.mem_cons_of_mem _ (List.mem_map_of_mem h))
  have hlines : r.render ++ ['\n'] <:+: ((t.topDown []).flatMap sectionLines).flatMap fun line => line ++ ['\n'] :=
    List.infix_of_mem_flatten (List.mem_map_of_mem hline)
  rw [script_eq_lines]
  exact List.infix_append_of_infix_left (List.infix_append_of_infix_right hlines)

theorem exists_render_eq_value (r : Rule) : ∃ before after, r.render = before ++ r.value.render ++ after :=
  ⟨_, _, List.append_assoc _ _ _⟩

theorem exists_render_eq_candidates {r : Rule} {list : Text} (h : r.candidates = some list) :
    ∃ before after, r.render = before ++ quotedPart " -a".toList list ++ after := by
  unfold Rule.render
  rw [h]
  exact ⟨_, _, rfl⟩

/-- The rule for an option with listed values has the list in it. -/
theorem render_optionRule_of_choices (path : List Text) (t : CommandTree) {o : OptionEntry} (ho : o.isBoolean = false)
    {values : List Text} (hvalues : o.choiceList = some values) :
    ∃ before after, (optionRule path t o).render = before ++ quotedPart " -x -a".toList (Text.join [' '] values) ++ after := by
  have hvalue : (optionRule path t o).value = .oneOf values := by
    simp only [optionRule, ho, hvalues]
    rfl
  obtain ⟨before, after, h⟩ := exists_render_eq_value (optionRule path t o)
  rw [hvalue] at h
  exact ⟨before, after, h⟩

/-- So has the rule for an argument with listed values. -/
theorem render_argumentRule?_of_choices (path : List Text) (t : CommandTree) {a : ArgumentEntry} {values : List Text}
    (hvalues : a.source t.name = .choices values) :
    ∃ r before after, argumentRule? path t a = some r ∧
      r.render = before ++ quotedPart " -a".toList (Text.join [' '] values) ++ after := by
  have hrule : ∃ r, argumentRule? path t a = some r ∧ r.candidates = some (Text.join [' '] values) := by
    rw [argumentRule?, hvalues]
    exact ⟨_, rfl, rfl⟩
  obtain ⟨r, hr, hcandidates⟩ := hrule
  obtain ⟨before, after, h⟩ := exists_render_eq_candidates hcandidates
  exact ⟨r, before, after, hr, h⟩

theorem optionRule_mem_rulesOf {x : Place} {o : OptionEntry} (ho : o ∈ x.tree.options) : optionRule x.path x.tree o ∈ rulesOf x :=
  List.mem_append_left _ (List.mem_append_left _ (List.mem_map_of_mem ho))

theorem argumentRule?_mem_rulesOf {x : Place} (hleaf : x.tree.isLeaf = true) {a : ArgumentEntry} (ha : a ∈ x.tree.arguments)
    {r : Rule} (hr : argumentRule? x.path x.tree a = some r) : r ∈ rulesOf x := by
  refine List.mem_append_left _ (List.mem_append_right _ ?_)
  rw [if_pos hleaf]
  exact List.mem_filterMap.2 ⟨a, ha, hr⟩

end Fish

/-! ## Lists in the bash script -/

namespace Bash

/-- The lines that offer listed values after a word that names their option. -/
def choiceLines (depth : Nat) (o : OptionEntry) (values : List Text) : List Text :=
  [line depth ("if [[ ".toList ++ previousTest o.flagWords ++ " ]]; then".toList),
    line (depth + 1) ("COMPREPLY=( $(compgen -W \"".toList ++ wordList values ++ "\" -- \"$\x7bcur\x7d\") )".toList)]

theorem infix_blockLines {c : Command} {cs : List Command} (h : c ∈ cs) (depth : Nat) : c.lines depth <:+: blockLines depth cs := by
  induction cs with
  | nil => exact absurd h List.not_mem_nil
  | cons d rest ih =>
    rw [blockLines]
    rcases List.mem_cons.1 h with rfl | h
    · exact List.infix_append_left
    · exact List.infix_append_of_infix_right (ih h)

theorem infix_armsLines {label : Text} {body : List Command} {arms : List Arm} (h : .mk label body ∈ arms) (depth : Nat) :
    blockLines (depth + 1) body <:+: armsLines depth arms := by
  induction arms with
  | nil => exact absurd h List.not_mem_nil
  | cons b rest ih =>
    rw [armsLines]
    rcases List.mem_cons.1 h with rfl | h
    · rw [Arm.lines]
      exact List.infix_append_of_infix_left (List.infix_append_of_infix_left (List.infix_cons List.infix_rfl))
    · exact List.infix_append_of_infix_right (ih h)

theorem infix_byWord (n depth : Nat) (arms : List Arm) : armsLines (depth + 1) arms <:+: (Command.byWord n arms).lines depth := by
  rw [Command.lines]
  exact List.infix_append_of_infix_left (List.infix_cons List.infix_rfl)

/-- The values of an option are offered among the commands for its command. -/
theorem infix_leafCommands {parent : Text} {t : CommandTree} {o : OptionEntry} (ho : o ∈ t.options)
    (hother : (isGitCommit parent t && o.long = "type".toList) = false) {values : List Text} (hvalues : o.choiceList = some values)
    (depth : Nat) : choiceLines depth o values <:+: blockLines depth (leafCommands parent t) := by
  have hkept : o ∈ t.options.filter fun o => !(isGitCommit parent t && o.long = "type".toList) :=
    List.mem_filter.2 ⟨ho, by rw [hother]; rfl⟩
  have hmem : .ifPrevious o.flagWords [.offer values, .done] ∈ leafCommands parent t := by
    rw [leafCommands]
    simp only [List.mem_append]
    refine .inl (.inl (.inl (.inr (List.mem_flatMap.2 ⟨o, hkept, ?_⟩))))
    rw [choiceCommands, hvalues]
    exact List.mem_singleton_self _
  refine List.IsInfix.trans ?_ (infix_blockLines hmem depth)
  rw [Command.lines, blockLines, Command.lines]
  exact ⟨[], _, rfl⟩

/-- What is written in the arms of the first level stands in the script. -/
theorem infix_scriptLines {t : CommandTree} {lines : List Text} (h : lines <:+: armsLines 2 (t.subcommands.map (outerArm t.name))) :
    unlines lines <:+: script t := by
  have hlater : lines <:+: (laterWords t).lines 1 := h.trans (infix_byWord 1 1 _)
  have hbody : lines <:+: bodyLines t := List.infix_append_of_infix_right (List.infix_cons hlater)
  refine List.IsInfix.flatMap ?_ _
  rw [scriptLines_eq]
  refine List.infix_append_of_infix_right (List.infix_cons (List.infix_append_of_infix_right ?_))
  exact List.infix_append_of_infix_left hbody

/-- Whether the script offers the listed values of the options of a command that stands below the one called `parent`. -/
def OffersValues (t : CommandTree) (parent : Text) (c : CommandTree) : Prop :=
  ∀ o ∈ c.options, (isGitCommit parent c && o.long = "type".toList) = false → ∀ values, o.choiceList = some values →
    ∃ depth, unlines (choiceLines depth o values) <:+: script t

theorem offersValues_outer {t c : CommandTree} (hc : c ∈ t.subcommands) (hleaf : c.isLeaf = true) : OffersValues t t.name c := by
  intro o ho hother values hvalues
  have harm : .mk c.name (leafCommands t.name c) ∈ t.subcommands.map (outerArm t.name) :=
    List.mem_map.2 ⟨c, hc, by rw [outerArm, if_pos hleaf]⟩
  exact ⟨3, infix_scriptLines ((infix_leafCommands ho hother hvalues 3).trans (infix_armsLines harm 2))⟩

theorem offersValues_inner {t c d : CommandTree} (hc : c ∈ t.subcommands) (hd : d ∈ c.subcommands) (hleaf : d.isLeaf = true) :
    OffersValues t c.name d := by
  intro o ho hother values hvalues
  have hbranch : c.isLeaf = false := CommandTree.isLeaf_of_mem_subcommands hd
  have harm : .mk d.name (leafCommands c.name d) ∈ c.subcommands.map (innerArm c.name) :=
    List.mem_map.2 ⟨d, hd, by rw [innerArm, if_pos hleaf]⟩
  have hinner := ((infix_leafCommands ho hother hvalues 5).trans (infix_armsLines harm 4)).trans (infix_byWord 2 3 _)
  have houter : .mk c.name [.ifPosition 2 [.offer (branchWords c), .done], .byWord 2 (c.subcommands.map (innerArm c.name))] ∈
      t.subcommands.map (outerArm t.name) := by
    refine List.mem_map.2 ⟨c, hc, ?_⟩
    rw [outerArm, hbranch]
    rfl
  have hword : Command.byWord 2 (c.subcommands.map (innerArm c.name)) ∈
      [.ifPosition 2 [.offer (branchWords c), .done], .byWord 2 (c.subcommands.map (innerArm c.name))] :=
    List.mem_cons_of_mem _ (List.mem_singleton_self _)
  have hblock := infix_blockLines hword 3
  exact ⟨5, infix_scriptLines ((hinner.trans hblock).trans (infix_armsLines houter 2))⟩

end Bash

/-! ## Lists in all scripts -/

namespace CommandTree

/-- The values of an option that takes one are listed in the zsh script with each form of the option, and in the fish script with
its rule; those of an argument without subcommands beside it are listed in both; and the bash script lists those of an option at
the first two levels, but for the type of a commit. Each shell reads the words of the values from its list. They are the values
just if every value is one word. -/
theorem values_offered (t : CommandTree) :
    (∀ x ∈ t.topDown [], ∀ o ∈ x.tree.options, o.isBoolean = false → ∀ values, o.choiceList = some values →
      (∀ spec ∈ Zsh.optionSpecs o, spec <:+: Zsh.script t ∧
        ∃ form, spec = Zsh.inQuotes (form ++ Zsh.bracketed o ++ ":".toList ++ Zsh.quote (o.valueName.getD o.long) ++ ":".toList
          ++ Zsh.listing values)) ∧
      (Fish.optionRule x.path x.tree o).render ++ ['\n'] <:+: Fish.script t ∧
        ∃ before after, (Fish.optionRule x.path x.tree o).render =
          before ++ Fish.quotedPart " -x -a".toList (Text.join [' '] values) ++ after) ∧
    (∀ x ∈ t.topDown [], x.tree.isLeaf = true → ∀ a ∈ x.tree.arguments, ∀ values, a.source x.tree.name = .choices values →
      (∃ position, Zsh.argumentSpec x.tree.name a position <:+: Zsh.script t ∧
        Zsh.argumentSpec x.tree.name a position =
          Zsh.inQuotes (Zsh.place a position ++ Zsh.quote a.name ++ ":".toList ++ Zsh.listing values)) ∧
      ∃ r before after, Fish.argumentRule? x.path x.tree a = some r ∧ r.render ++ ['\n'] <:+: Fish.script t ∧
        r.render = before ++ Fish.quotedPart " -a".toList (Text.join [' '] values) ++ after) ∧
    (∀ c ∈ t.subcommands, (c.isLeaf = true → Bash.OffersValues t t.name c) ∧
      ∀ d ∈ c.subcommands, d.isLeaf = true → Bash.OffersValues t c.name d) ∧
    ∀ values : List Text,
      Zsh.readList? (Zsh.listing values) = some (values.flatMap Text.words) ∧
      Bash.readList? (Bash.wordList values) = some (values.flatMap Text.words) ∧
      Fish.readList? (Fish.quote (Text.join [' '] values)) = some (values.flatMap Text.words) ∧
      (values.flatMap Text.words = values ↔ ∀ v ∈ values, v ≠ [] ∧ ∀ c ∈ v, Text.isBlank c = false) := by
  refine ⟨?_, ?_, ?_, ?_⟩
  · intro x hx o ho hboolean values hvalues
    refine ⟨fun spec hspec => ⟨?_, Zsh.optionSpecs_of_choices hboolean hvalues hspec⟩, ?_, ?_⟩
    · exact Zsh.infix_script hx (Zsh.optionSpecs_subset_specs ho spec hspec)
    · exact Fish.infix_script hx (Fish.optionRule_mem_rulesOf ho)
    · exact Fish.render_optionRule_of_choices x.path x.tree hboolean hvalues
  · intro x hx hleaf a ha values hvalues
    constructor
    · obtain ⟨position, hspec⟩ := Zsh.exists_mem_argumentSpecsFrom x.tree.name ha 1
      refine ⟨position, Zsh.infix_script hx (Zsh.argumentSpecs_subset_specs hleaf _ hspec), ?_⟩
      rw [Zsh.argumentSpec, hvalues]
      rfl
    · obtain ⟨r, before, after, hr, hrender⟩ := Fish.render_argumentRule?_of_choices x.path x.tree hvalues
      exact ⟨r, before, after, hr, Fish.infix_script hx (Fish.argumentRule?_mem_rulesOf hleaf ha hr), hrender⟩
  · intro c hc
    exact ⟨Bash.offersValues_outer hc, fun d hd => Bash.offersValues_inner hc hd⟩
  · intro values
    exact ⟨Zsh.readList?_listing values, Bash.readList?_wordList values, Fish.readList?_quote values,
      Text.flatMap_words_eq_self_iff values⟩

/-- Values of which one is two words. -/
def rehearsalValues : List Text := ["dry run".toList, "real".toList]

/-- An option with these values. -/
def rehearsalOption : OptionEntry := ((OptionEntry.value "mode".toList []).withShort 'm').withChoices rehearsalValues

/-- A command line with a command that has this option. -/
def rehearsalTree : CommandTree :=
  (CommandTree.ofName "devx".toList []).addSubcommand ((CommandTree.ofName "deploy".toList []).addOption rehearsalOption)

/-- The command that has the option. -/
def rehearsalPlace : Place := ⟨["deploy".toList], (CommandTree.ofName "deploy".toList []).addOption rehearsalOption⟩

theorem rehearsalPlace_mem : rehearsalPlace ∈ rehearsalTree.topDown [] := List.mem_cons_of_mem _ List.mem_cons_self

/-- The option's values stand in all three scripts. -/
theorem values_offered_rehearsalTree :
    rehearsalPlace ∈ rehearsalTree.topDown [] ∧ rehearsalOption ∈ rehearsalPlace.tree.options ∧
    rehearsalOption.isBoolean = false ∧ rehearsalOption.choiceList = some rehearsalValues ∧
    (∀ spec ∈ Zsh.optionSpecs rehearsalOption, spec <:+: Zsh.script rehearsalTree) ∧
    (Fish.optionRule rehearsalPlace.path rehearsalPlace.tree rehearsalOption).render ++ ['\n'] <:+: Fish.script rehearsalTree ∧
    ∃ depth, Bash.unlines (Bash.choiceLines depth rehearsalOption rehearsalValues) <:+: Bash.script rehearsalTree := by
  have hoption : rehearsalOption ∈ rehearsalPlace.tree.options := List.mem_singleton_self _
  obtain ⟨hoptions, -, hbash, -⟩ := values_offered rehearsalTree
  obtain ⟨hzsh, hfish, -⟩ := hoptions rehearsalPlace rehearsalPlace_mem rehearsalOption hoption rfl rehearsalValues rfl
  have hdeploy := (hbash rehearsalPlace.tree (List.mem_singleton_self _)).1 rfl rehearsalOption hoption rfl rehearsalValues rfl
  exact ⟨rehearsalPlace_mem, hoption, rfl, rfl, fun spec hspec => (hzsh spec hspec).1, hfish, hdeploy⟩

/-- The tree is valid and the values are not empty, but no shell reads them from its list. -/
theorem readList?_rehearsalTree :
    rehearsalTree.defect? = none ∧ rehearsalPlace ∈ rehearsalTree.topDown [] ∧ rehearsalPlace.tree.isLeaf = true ∧
    rehearsalOption ∈ rehearsalPlace.tree.options ∧ rehearsalOption.choiceList = some rehearsalValues ∧
    (∀ v ∈ rehearsalValues, v ≠ []) ∧
    Zsh.readList? (Zsh.listing rehearsalValues) ≠ some rehearsalValues ∧
    Bash.readList? (Bash.wordList rehearsalValues) ≠ some rehearsalValues ∧
    Fish.readList? (Fish.quote (Text.join [' '] rehearsalValues)) ≠ some rehearsalValues := by
  have hwords : some (rehearsalValues.flatMap Text.words) ≠ some rehearsalValues := by
    intro h
    have hone := (Text.flatMap_words_eq_self_iff rehearsalValues).1 (Option.some.inj h)
    exact absurd ((hone "dry run".toList List.mem_cons_self).2 ' ' (by decide)) (by decide)
  rw [Zsh.readList?_listing, Bash.readList?_wordList, Fish.readList?_quote]
  exact ⟨by decide, rehearsalPlace_mem, rfl, List.mem_singleton_self _, rfl, by decide, hwords, hwords, hwords⟩

end CommandTree

end DevWorkflow
