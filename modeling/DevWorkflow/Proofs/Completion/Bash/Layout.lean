import DevWorkflow.Proofs.Completion.Bash.Lines
import DevWorkflow.Proofs.Completion.Validity

/-!
# The lines of the commands of the bash dispatcher

A command of the dispatcher is written on lines with one token each (`Bash.Command.lines_eq`). For a valid tree whose names,
options and listed values are plain, all words on the lines are plain, and the labels are the names of the commands at the first
two levels (`Bash.isPlainLayout_dispatch`). For any tree, no words but forms of options are compared with the previous word, so a
line feed in the lines can only come from there (`Bash.isUnbroken_dispatch`).
-/

namespace DevWorkflow

namespace Bash

/-! ## Lines of commands -/

/-- A line of the dispatcher. -/
structure Line where
  depth : Nat
  token : Token

namespace Line

/-- The line as it is written. -/
def text (l : Line) : Text := line l.depth l.token.text

end Line

mutual

/-- The lines of a command at a depth of indentation. -/
def Command.layout (depth : Nat) : Command → List Line
  | .offer words => [⟨depth, .offer words⟩]
  | .offerFiles => [⟨depth, .offerFiles⟩]
  | .done => [⟨depth, .done⟩]
  | .ifPosition n body => ⟨depth, .ifPosition n⟩ :: layoutAll (depth + 1) body ++ [⟨depth, .endIf⟩]
  | .ifPrevious words body => ⟨depth, .ifPrevious words⟩ :: layoutAll (depth + 1) body ++ [⟨depth, .endIf⟩]
  | .byWord n arms => ⟨depth, .byWord n⟩ :: layoutArms (depth + 1) arms ++ [⟨depth, .endChoice⟩]

/-- The lines of some commands. -/
def layoutAll (depth : Nat) : List Command → List Line
  | [] => []
  | c :: rest => c.layout depth ++ layoutAll depth rest

/-- The lines of some arms. -/
def layoutArms (depth : Nat) : List Arm → List Line
  | [] => []
  | .mk label body :: rest =>
    ⟨depth, .label label⟩ :: layoutAll (depth + 1) body ++ ⟨depth + 1, .endArm⟩ :: layoutArms depth rest

end

mutual

/-- A command is written on its lines. -/
theorem Command.lines_eq : ∀ (depth : Nat) (c : Command), c.lines depth = (c.layout depth).map Line.text
  | depth, .offer words => by rw [Command.lines, Command.layout]; rfl
  | depth, .offerFiles => by rw [Command.lines, Command.layout]; rfl
  | depth, .done => by rw [Command.lines, Command.layout]; rfl
  | depth, .ifPosition n body => by
    rw [Command.lines, Command.layout, blockLines_eq, List.map_append]; rfl
  | depth, .ifPrevious words body => by
    rw [Command.lines, Command.layout, blockLines_eq, List.map_append]; rfl
  | depth, .byWord n arms => by
    rw [Command.lines, Command.layout, armsLines_eq, List.map_append]; rfl

theorem blockLines_eq : ∀ (depth : Nat) (cs : List Command), blockLines depth cs = (layoutAll depth cs).map Line.text
  | depth, [] => by rw [blockLines, layoutAll, List.map_nil]
  | depth, c :: rest => by rw [blockLines, layoutAll, List.map_append, Command.lines_eq, blockLines_eq]

theorem armsLines_eq : ∀ (depth : Nat) (arms : List Arm), armsLines depth arms = (layoutArms depth arms).map Line.text
  | depth, [] => by rw [armsLines, layoutArms, List.map_nil]
  | depth, .mk label body :: rest => by
    rw [armsLines, Arm.lines, layoutArms, blockLines_eq, armsLines_eq, List.map_append, List.append_assoc]; rfl

end

/-! ## Plain trees -/

/-- Whether the names, options and listed values of a command are plain. -/
structure HasPlainEntries (t : CommandTree) : Prop where
  name : IsPlain t.name
  longs : ∀ o ∈ t.options, IsPlain o.long
  shorts : ∀ o ∈ t.options, o.short.all isWordCharacter = true
  choices : ∀ o ∈ t.options, ∀ choices ∈ o.choices, ∀ w ∈ choices, IsPlain w

instance (t : CommandTree) : Decidable (HasPlainEntries t) :=
  decidable_of_iff (IsPlain t.name ∧ (∀ o ∈ t.options, IsPlain o.long) ∧ (∀ o ∈ t.options, o.short.all isWordCharacter = true) ∧
      ∀ o ∈ t.options, ∀ choices ∈ o.choices, ∀ w ∈ choices, IsPlain w)
    ⟨fun ⟨name, longs, shorts, choices⟩ => ⟨name, longs, shorts, choices⟩, fun h => ⟨h.name, h.longs, h.shorts, h.choices⟩⟩

/-- Whether all commands of a tree are well-formed and have plain entries. -/
def IsPlainTree (t : CommandTree) : Prop := ∀ c ∈ t.commands, c.IsWellFormed ∧ HasPlainEntries c

namespace IsPlainTree

variable {t : CommandTree} (h : IsPlainTree t)
include h

theorem root : t.IsWellFormed := (h t t.mem_commands_self).1

theorem entries : HasPlainEntries t := (h t t.mem_commands_self).2

/-- What is below a command of such a tree is such a tree. -/
theorem below {c : CommandTree} (hc : c ∈ t.subcommands) : IsPlainTree c := fun d hd =>
  h d (CommandTree.mem_commands_of_subcommand hc hd)

end IsPlainTree

/-! ## Lines and their labels -/

/-- The word of a label. -/
def Token.name? : Token → Option Text
  | label name => some name
  | _ => none

/-- Whether some lines have plain words and just the given labels, in order. -/
structure IsPlainLayout (ls : List Line) (names : List Text) : Prop where
  plain : ∀ l ∈ ls, l.token.HasPlainWords
  labels : ls.filterMap (fun l => l.token.name?) = names

namespace IsPlainLayout

theorem nil : IsPlainLayout [] [] := ⟨List.forall_mem_nil _, rfl⟩

/-- A line that is no label may come first. -/
theorem cons {l : Line} {ls : List Line} {names : List Text} (hplain : l.token.HasPlainWords) (hname : l.token.name? = none)
    (h : IsPlainLayout ls names) : IsPlainLayout (l :: ls) names :=
  ⟨List.forall_mem_cons.2 ⟨hplain, h.plain⟩, by rw [List.filterMap_cons, hname, h.labels]⟩

/-- A label may come first. -/
theorem cons_label {name : Text} {ls : List Line} {names : List Text} (depth : Nat) (hne : name ≠ []) (hplain : IsPlain name)
    (h : IsPlainLayout ls names) : IsPlainLayout (⟨depth, .label name⟩ :: ls) (name :: names) :=
  ⟨List.forall_mem_cons.2 ⟨⟨hne, hplain⟩, h.plain⟩, congrArg (name :: ·) h.labels⟩

theorem append {ls ms : List Line} {names more : List Text} (hl : IsPlainLayout ls names) (hm : IsPlainLayout ms more) :
    IsPlainLayout (ls ++ ms) (names ++ more) :=
  ⟨List.forall_mem_append.2 ⟨hl.plain, hm.plain⟩, by rw [List.filterMap_append, hl.labels, hm.labels]⟩

/-- Lines without labels may come before others. -/
theorem append_of_nil {ls ms : List Line} {names : List Text} (hl : IsPlainLayout ls []) (hm : IsPlainLayout ms names) :
    IsPlainLayout (ls ++ ms) names :=
  hl.append hm

/-- A line that is no label may come last. -/
theorem concat {ls : List Line} {names : List Text} {l : Line} (h : IsPlainLayout ls names) (hplain : l.token.HasPlainWords)
    (hname : l.token.name? = none) : IsPlainLayout (ls ++ [l]) names := by
  have hboth := h.append (nil.cons hplain hname)
  rwa [List.append_nil] at hboth

theorem flatMap {α : Type} {f : α → List Line} {g : α → List Text} {as : List α} (h : ∀ a ∈ as, IsPlainLayout (f a) (g a)) :
    IsPlainLayout (as.flatMap f) (as.flatMap g) := by
  induction as with
  | nil => exact nil
  | cons a rest ih =>
    obtain ⟨ha, hrest⟩ := List.forall_mem_cons.1 h
    exact ha.append (ih hrest)

theorem flatMap_of_nil {α : Type} {f : α → List Line} {as : List α} (h : ∀ a ∈ as, IsPlainLayout (f a) []) :
    IsPlainLayout (as.flatMap f) [] := by
  have hnone : (as.flatMap fun _ => ([] : List Text)) = [] := List.flatMap_eq_nil_iff.2 fun _ _ => rfl
  exact hnone ▸ flatMap h

end IsPlainLayout

/-! ## The lines for one command of the tree -/

theorem layoutAll_eq (depth : Nat) (cs : List Command) : layoutAll depth cs = cs.flatMap (Command.layout depth) := by
  induction cs with
  | nil => rfl
  | cons c rest ih => rw [layoutAll, ih, List.flatMap_cons]

theorem layoutAll_append (depth : Nat) (cs ds : List Command) :
    layoutAll depth (cs ++ ds) = layoutAll depth cs ++ layoutAll depth ds := by
  rw [layoutAll_eq, layoutAll_eq, layoutAll_eq, List.flatMap_append]

theorem layoutAll_flatMap {α : Type} (depth : Nat) (f : α → List Command) (as : List α) :
    layoutAll depth (as.flatMap f) = as.flatMap fun a => layoutAll depth (f a) := by
  induction as with
  | nil => rw [List.flatMap_nil, layoutAll, List.flatMap_nil]
  | cons a rest ih => rw [List.flatMap_cons, layoutAll_append, ih, List.flatMap_cons]

/-- The words that name a plain option are plain. -/
theorem isPlain_of_mem_flagWords {o : OptionEntry} (hlong : IsPlain o.long) (hshort : o.short.all isWordCharacter = true)
    {w : Text} (h : w ∈ o.flagWords) : IsPlain w := by
  rcases OptionEntry.of_mem_flagWords h with rfl | ⟨c, hc, rfl⟩
  · rw [IsPlain, List.all_append, hlong]
    rfl
  · have hletter : isWordCharacter c = true := by simpa [hc] using hshort
    rw [IsPlain, List.all_cons, List.all_cons, hletter]
    rfl

/-- Listed values are declared. -/
theorem choices_eq_of_choiceList_eq {o : OptionEntry} {choices : List Text} (h : o.choiceList = some choices) :
    o.choices = some choices := by
  rw [OptionEntry.choiceList] at h
  cases hchoices : o.choices with
  | none => rw [hchoices] at h; exact nomatch h
  | some declared =>
    rw [hchoices] at h
    cases declared with
    | nil => exact nomatch h
    | cons w ws => exact h

/-- What the commands for a command without subcommands can be. Only the forms of its options, and those of `--type`, are compared with
the previous word. -/
theorem cases_of_mem_leafCommands {parent : Text} {t : CommandTree} {c : Command} (h : c ∈ leafCommands parent t) :
    (∃ previous words, c = .ifPrevious previous [.offer words, .done] ∧
      (previous = ["--type".toList, "-t".toList] ∨ ∃ o ∈ t.options, previous = o.flagWords)) ∨
    (∃ words, c = .offer words) ∨ c = .offerFiles ∨ c = .done := by
  simp only [leafCommands, List.mem_append, List.mem_singleton] at h
  rcases h with (((htypes | hchoices) | hforms) | hfiles) | hdone
  · split at htypes
    · exact .inl ⟨_, _, List.mem_singleton.1 htypes, .inl rfl⟩
    · exact absurd htypes List.not_mem_nil
  · obtain ⟨o, ho, hc⟩ := List.mem_flatMap.1 hchoices
    rw [choiceCommands] at hc
    split at hc
    · exact .inl ⟨_, _, List.mem_singleton.1 hc, .inr ⟨o, List.mem_of_mem_filter ho, rfl⟩⟩
    · exact absurd hc List.not_mem_nil
  · exact .inr (.inl ⟨_, hforms⟩)
  · split at hfiles
    · exact .inr (.inr (.inl (List.mem_singleton.1 hfiles)))
    · exact absurd hfiles List.not_mem_nil
  · exact .inr (.inr (.inr hdone))

/-- Lines that offer plain words and end the dispatcher. -/
theorem isPlainLayout_offer_done {words : List Text} (h : ∀ w ∈ words, IsPlain w) (depth : Nat) :
    IsPlainLayout (layoutAll depth [.offer words, .done]) [] := by
  rw [layoutAll, layoutAll, layoutAll, Command.layout, Command.layout]
  exact .cons h rfl (.cons trivial rfl .nil)

/-- Lines that do so after one of some plain words. -/
theorem isPlainLayout_ifPrevious {previous words : List Text} (hne : previous ≠ []) (hprevious : ∀ w ∈ previous, IsPlain w)
    (h : ∀ w ∈ words, IsPlain w) (depth : Nat) :
    IsPlainLayout (layoutAll depth [.ifPrevious previous [.offer words, .done]]) [] := by
  have hbody := isPlainLayout_offer_done h (depth + 1)
  rw [layoutAll, layoutAll, Command.layout, List.append_nil]
  exact .concat (hbody.cons ⟨hne, hprevious⟩ rfl) trivial rfl

/-- The words that name the options of a command with plain entries are plain. -/
theorem HasPlainEntries.flagWords {t : CommandTree} (h : HasPlainEntries t) : ∀ w ∈ t.flagWords, IsPlain w := by
  intro w hw
  obtain ⟨o, ho, hw⟩ := List.mem_flatMap.1 hw
  exact isPlain_of_mem_flagWords (h.longs o ho) (h.shorts o ho) hw

/-- The lines for the listed values of an option have plain words and no labels. -/
theorem isPlainLayout_choiceCommands {t : CommandTree} (h : IsPlainTree t) {o : OptionEntry} (ho : o ∈ t.options) (depth : Nat) :
    IsPlainLayout (layoutAll depth (choiceCommands o)) [] := by
  rw [choiceCommands]
  split
  case h_1 choices hchoices =>
    refine isPlainLayout_ifPrevious ((h.root.coherent o ho).flagWords_ne_nil) ?_ ?_ depth
    · exact fun w => isPlain_of_mem_flagWords (h.entries.longs o ho) (h.entries.shorts o ho)
    · exact h.entries.choices o ho choices (choices_eq_of_choiceList_eq hchoices)
  case h_2 => exact .nil

/-- The lines for a command without subcommands have plain words and no labels. -/
theorem isPlainLayout_leafCommands {t : CommandTree} (h : IsPlainTree t) (parent : Text) (depth : Nat) :
    IsPlainLayout (layoutAll depth (leafCommands parent t)) [] := by
  have htypes : IsPlainLayout (layoutAll depth (if isGitCommit parent t then
      [.ifPrevious ["--type".toList, "-t".toList] [.offer commitTypes, .done]] else [])) [] := by
    split
    · exact isPlainLayout_ifPrevious (by decide) (by decide) (by decide) depth
    · exact .nil
  have hchoices : IsPlainLayout (layoutAll depth
      ((t.options.filter fun o => !(isGitCommit parent t && o.long = "type".toList)).flatMap choiceCommands)) [] := by
    rw [layoutAll_flatMap]
    exact .flatMap_of_nil fun o ho => isPlainLayout_choiceCommands h (List.mem_of_mem_filter ho) depth
  have hfiles : IsPlainLayout (layoutAll depth (if t.allowUnknownOption then [.offerFiles] else [])) [] := by
    split
    · exact .cons trivial rfl .nil
    · exact .nil
  rw [leafCommands, layoutAll_append, layoutAll_append, layoutAll_append, layoutAll_append]
  refine .append_of_nil (.append_of_nil (.append_of_nil (.append_of_nil htypes hchoices) ?_) hfiles) ?_
  · exact .cons h.entries.flagWords rfl .nil
  · exact .cons trivial rfl .nil

/-! ## The lines of the dispatcher -/

theorem layoutArms_map (depth : Nat) (ts : List CommandTree) (body : CommandTree → List Command) :
    layoutArms depth (ts.map fun t => .mk t.name (body t)) =
      ts.flatMap fun t => ⟨depth, .label t.name⟩ :: layoutAll (depth + 1) (body t) ++ [⟨depth + 1, .endArm⟩] := by
  induction ts with
  | nil => rw [List.map_nil, layoutArms, List.flatMap_nil]
  | cons t rest ih =>
    rw [List.map_cons, layoutArms, ih, List.flatMap_cons, List.append_assoc]
    rfl

/-- The lines of arms with the names of some commands have plain words, and labels that are the names and those of the bodies. -/
theorem isPlainLayout_layoutArms_map {ts : List CommandTree} {body : CommandTree → List Command} {names : CommandTree → List Text}
    {depth : Nat} (hnames : ∀ t ∈ ts, t.name ≠ [] ∧ IsPlain t.name)
    (hbody : ∀ t ∈ ts, IsPlainLayout (layoutAll (depth + 1) (body t)) (names t)) :
    IsPlainLayout (layoutArms depth (ts.map fun t => .mk t.name (body t))) (ts.flatMap fun t => t.name :: names t) := by
  rw [layoutArms_map]
  refine .flatMap fun t ht => ?_
  obtain ⟨hne, hplain⟩ := hnames t ht
  have harm : IsPlainLayout (layoutAll (depth + 1) (body t) ++ [⟨depth + 1, .endArm⟩]) (names t) :=
    .concat (hbody t ht) trivial rfl
  exact harm.cons_label depth hne hplain

/-- The lines of a test for the position before a choice have the labels of the choice. -/
theorem isPlainLayout_levels {offered : List Text} {arms : List Arm} {names : List Text} {depth : Nat} (position : Nat)
    (hoffered : ∀ w ∈ offered, IsPlain w) (harms : IsPlainLayout (layoutArms (depth + 1) arms) names) :
    IsPlainLayout (layoutAll depth [.ifPosition position [.offer offered, .done], .byWord position arms]) names := by
  have htest : IsPlainLayout ((Command.ifPosition position [.offer offered, .done]).layout depth) [] := by
    rw [Command.layout]
    exact .concat ((isPlainLayout_offer_done hoffered (depth + 1)).cons trivial rfl) trivial rfl
  have hchoice : IsPlainLayout ((Command.byWord position arms).layout depth) names := by
    rw [Command.layout]
    exact .concat (harms.cons trivial rfl) trivial rfl
  rw [layoutAll, layoutAll, layoutAll, List.append_nil]
  exact .append_of_nil htest hchoice

/-- The words for a command with subcommands are plain. -/
theorem IsPlainTree.branchWords {t : CommandTree} (h : IsPlainTree t) : ∀ w ∈ branchWords t, IsPlain w :=
  List.forall_mem_append.2 ⟨List.forall_mem_map.2 fun _ hc => (h.below hc).entries.name, h.entries.flagWords⟩

/-- The lines of the arms of the second level have plain words, and their labels are the names of the commands. -/
theorem isPlainLayout_innerArms {t : CommandTree} (h : IsPlainTree t) (depth : Nat) :
    IsPlainLayout (layoutArms depth (t.subcommands.map (innerArm t.name))) (t.subcommands.map (·.name)) := by
  have hnames : (t.subcommands.flatMap fun c => [c.name]) = t.subcommands.map (·.name) := List.flatMap_pure_eq_map _ _
  rw [← hnames]
  refine isPlainLayout_layoutArms_map (fun c hc => ⟨(h.below hc).root.named, (h.below hc).entries.name⟩) fun c hc => ?_
  split
  · exact isPlainLayout_leafCommands (h.below hc) t.name (depth + 1)
  · exact isPlainLayout_offer_done (h.below hc).branchWords (depth + 1)

/-- The names of the commands at the first two levels, each before those below it. -/
def labelNames (t : CommandTree) : List Text := t.subcommands.flatMap fun c => c.name :: c.subcommands.map (·.name)

/-- The lines of the arms of the first level have plain words, and their labels are the names at the first two levels. -/
theorem isPlainLayout_outerArms {t : CommandTree} (h : IsPlainTree t) (depth : Nat) :
    IsPlainLayout (layoutArms depth (t.subcommands.map (outerArm t.name))) (labelNames t) := by
  refine isPlainLayout_layoutArms_map (fun c hc => ⟨(h.below hc).root.named, (h.below hc).entries.name⟩) fun c hc => ?_
  split
  case isTrue hleaf =>
    rw [List.isEmpty_iff.1 hleaf]
    exact isPlainLayout_leafCommands (h.below hc) t.name (depth + 1)
  case isFalse => exact isPlainLayout_levels 2 (h.below hc).branchWords (isPlainLayout_innerArms (h.below hc) _)

/-- The lines of the dispatcher have plain words, and their labels are the names at the first two levels. -/
theorem isPlainLayout_dispatch {t : CommandTree} (h : IsPlainTree t) : IsPlainLayout (layoutAll 1 (dispatch t)) (labelNames t) :=
  isPlainLayout_levels 1 h.branchWords (isPlainLayout_outerArms h 2)

/-! ## Words that are written as they are -/

/-- Whether the words that the previous word is compared with have no line feeds in them. -/
def IsUnbroken (ls : List Line) : Prop := ∀ l ∈ ls, ∀ w ∈ l.token.tested, '\n' ∉ w

theorem IsUnbroken.nil : IsUnbroken [] := List.forall_mem_nil _

/-- A line without such words may come first. -/
theorem IsUnbroken.cons {l : Line} {ls : List Line} (hl : l.token.tested = []) (h : IsUnbroken ls) : IsUnbroken (l :: ls) :=
  List.forall_mem_cons.2 ⟨hl ▸ List.forall_mem_nil _, h⟩

theorem isUnbroken_append (ls ms : List Line) : IsUnbroken (ls ++ ms) ↔ IsUnbroken ls ∧ IsUnbroken ms := List.forall_mem_append

/-- Such a line may come last. -/
theorem IsUnbroken.concat {ls : List Line} {l : Line} (h : IsUnbroken ls) (hl : l.token.tested = []) : IsUnbroken (ls ++ [l]) :=
  (isUnbroken_append _ _).2 ⟨h, .cons hl .nil⟩

theorem isUnbroken_offer_done (depth : Nat) (words : List Text) : IsUnbroken (layoutAll depth [.offer words, .done]) := by
  rw [layoutAll, layoutAll, layoutAll, Command.layout, Command.layout]
  exact .cons rfl (.cons rfl .nil)

theorem isUnbroken_ifPrevious {previous : List Text} (h : ∀ w ∈ previous, '\n' ∉ w) (depth : Nat) (words : List Text) :
    IsUnbroken ((Command.ifPrevious previous [.offer words, .done]).layout depth) := by
  rw [Command.layout]
  exact .concat (List.forall_mem_cons.2 ⟨h, isUnbroken_offer_done _ _⟩) rfl

/-- A test for the position before a choice compares no words. -/
theorem isUnbroken_levels {depth : Nat} {arms : List Arm} (h : IsUnbroken (layoutArms (depth + 1) arms)) (position : Nat)
    (words : List Text) :
    IsUnbroken (layoutAll depth [.ifPosition position [.offer words, .done], .byWord position arms]) := by
  rw [layoutAll, layoutAll, layoutAll, Command.layout, Command.layout, List.append_nil, isUnbroken_append]
  exact ⟨.concat (.cons rfl (isUnbroken_offer_done _ _)) rfl, .concat (.cons rfl h) rfl⟩

theorem isUnbroken_layoutArms_map {ts : List CommandTree} {body : CommandTree → List Command} {depth : Nat}
    (h : ∀ t ∈ ts, IsUnbroken (layoutAll (depth + 1) (body t))) :
    IsUnbroken (layoutArms depth (ts.map fun t => .mk t.name (body t))) := by
  rw [layoutArms_map]
  intro l hl
  obtain ⟨t, ht, hl⟩ := List.mem_flatMap.1 hl
  exact ((h t ht).cons rfl).concat rfl l hl

/-- Whether the forms of an option have no line feeds in them. -/
def HasUnbrokenForms (o : OptionEntry) : Prop := '\n' ∉ o.long ∧ o.short ≠ some '\n'

instance (o : OptionEntry) : Decidable (HasUnbrokenForms o) := inferInstanceAs (Decidable (_ ∧ _))

theorem HasUnbrokenForms.lineFeed_not_mem {o : OptionEntry} (h : HasUnbrokenForms o) {w : Text} (hw : w ∈ o.flagWords) : '\n' ∉ w := by
  obtain ⟨hlong, hshort⟩ := h
  rcases OptionEntry.of_mem_flagWords hw with rfl | ⟨c, hc, rfl⟩
  · simpa using hlong
  · have hletter : ¬ '\n' = c := fun heq => hshort (heq ▸ hc)
    simpa using hletter

theorem isUnbroken_leafCommands {t : CommandTree} (h : ∀ o ∈ t.options, HasUnbrokenForms o) (parent : Text) (depth : Nat) :
    IsUnbroken (layoutAll depth (leafCommands parent t)) := by
  rw [layoutAll_eq]
  intro l hl
  obtain ⟨c, hc, hl⟩ := List.mem_flatMap.1 hl
  refine (?_ : IsUnbroken (c.layout depth)) l hl
  rcases cases_of_mem_leafCommands hc with ⟨previous, words, rfl, hprevious⟩ | ⟨words, rfl⟩ | rfl | rfl
  · refine isUnbroken_ifPrevious ?_ depth words
    rcases hprevious with rfl | ⟨o, ho, rfl⟩
    · decide
    · exact fun w hw => (h o ho).lineFeed_not_mem hw
  · rw [Command.layout]
    exact .cons rfl .nil
  · rw [Command.layout]
    exact .cons rfl .nil
  · rw [Command.layout]
    exact .cons rfl .nil

/-- The dispatcher compares the previous word only with forms of options. -/
theorem isUnbroken_dispatch {t : CommandTree} (h : ∀ c ∈ t.commands, ∀ o ∈ c.options, HasUnbrokenForms o) :
    IsUnbroken (layoutAll 1 (dispatch t)) := by
  refine isUnbroken_levels (isUnbroken_layoutArms_map fun c hc => ?_) 1 _
  have hbelow : ∀ d ∈ c.commands, ∀ o ∈ d.options, HasUnbrokenForms o := fun d hd =>
    h d (CommandTree.mem_commands_of_subcommand hc hd)
  split
  · exact isUnbroken_leafCommands (hbelow c c.mem_commands_self) t.name _
  · refine isUnbroken_levels (isUnbroken_layoutArms_map fun d hd => ?_) 2 _
    split
    · exact isUnbroken_leafCommands (hbelow d (CommandTree.mem_commands_of_subcommand hd d.mem_commands_self)) c.name _
    · exact isUnbroken_offer_done _ _

end Bash

end DevWorkflow
