import DevWorkflow.Completion.Fish
import DevWorkflow.Proofs.Completion.Places
import DevWorkflow.Proofs.Text.Splitting

/-!
# The rules of the fish script

The script goes through the commands in two ways at once: the rules for the subcommands of a command stand with the command, and
then comes a section for each of them. It amounts to one section for each command from the top down, with its heading and all its
rules (`Fish.items_eq`), so no rule is lost, changed in order or repeated. Names stand in the headings as they are, and forms of options
in the rules, so that line feeds in them may add lines to the script, which is all that can be added (`Fish.script_eq_sections`).
-/

namespace DevWorkflow

namespace Fish

/-! ## One section for each command -/

/-- The rules of a command: one for each option, one for each argument that has candidates if nothing is below the command, and one
for each subcommand. -/
def rulesOf (x : Place) : List Rule :=
  x.tree.options.map (optionRule x.path x.tree)
    ++ (if x.tree.isLeaf then x.tree.arguments.filterMap (argumentRule? x.path x.tree) else [])
    ++ x.tree.subcommands.map (childRule x.path x.tree)

/-- The part of the script for one command. -/
def sectionOf (x : Place) : List Item := .heading x.path :: (rulesOf x).map .rule ++ [.gap]

theorem sections_eq (path : List Text) (cs : List CommandTree) :
    sections path cs = cs.flatMap fun c =>
      .heading (path ++ [c.name]) :: (ownRules (path ++ [c.name]) c).map .rule
        ++ if c.isLeaf then [.gap] else itemsBelow (path ++ [c.name]) c := by
  induction cs with
  | nil => rfl
  | cons c rest ih =>
    rw [sections, ih, List.flatMap_cons]

theorem itemsBelow_eq (path : List Text) (t : CommandTree) :
    itemsBelow path t = t.subcommands.map (fun c => .rule (childRule path t c)) ++ .gap :: sections path t.subcommands := by
  cases t
  rw [itemsBelow]

/-- With nothing below a command, nothing but a gap follows its own rules. -/
theorem itemsBelow_of_isLeaf {t : CommandTree} (h : t.isLeaf = true) (path : List Text) : itemsBelow path t = [.gap] := by
  have hnone : t.subcommands = [] := List.isEmpty_iff.1 h
  rw [itemsBelow_eq, hnone]
  rfl

/-- A command's own rules and what follows them are the rest of its section and the sections of the commands below it. -/
theorem ownRules_append_itemsBelow (path : List Text) (t : CommandTree) :
    .heading path :: (ownRules path t).map .rule ++ itemsBelow path t = (t.topDown path).flatMap sectionOf := by
  induction t using CommandTree.induction_below generalizing path with
  | step t ih =>
    have hsections : sections path t.subcommands =
        (t.subcommands.flatMap fun c => c.topDown (path ++ [c.name])).flatMap sectionOf := by
      rw [sections_eq, List.flatMap_assoc]
      refine List.flatMap_congr fun c hc => ?_
      rw [← ih c hc]
      cases hleaf : c.isLeaf with
      | true => rw [itemsBelow_of_isLeaf hleaf]; rfl
      | false => rfl
    rw [itemsBelow_eq, hsections, CommandTree.topDown_eq, List.flatMap_cons]
    simp [sectionOf, rulesOf, ownRules]

/-- The script consists of one section for each command, from the top down. -/
theorem items_eq (t : CommandTree) : items t = (t.topDown []).flatMap sectionOf := by
  rw [items, ownRules_append_itemsBelow]

/-! ## What the rules of a command say -/

/-- The condition that the commands of a path stand on the line; for the root, that no subcommand does. -/
def condition (path : List Text) : Text :=
  if path = [] then "__fish_use_subcommand".toList
  else Text.join "; and ".toList (path.map fun name => "__fish_seen_subcommand_from ".toList ++ name)

theorem guard_cons (name : Text) (path : List Text) :
    guard (name :: path) =
      Text.join "; and ".toList ((name :: path).map fun n => "__fish_seen_subcommand_from ".toList ++ n) := rfl

theorem guard_eq_condition (path : List Text) : guard path = condition path := by
  cases path with
  | nil => exact (if_pos rfl).symm
  | cons name path => rw [guard_cons, condition, if_neg (List.cons_ne_nil name path)]

/-- Every rule of a command holds under the condition of its path and keeps file names just if the command passes unknown options
on. -/
theorem of_mem_rulesOf {x : Place} {r : Rule} (h : r ∈ rulesOf x) :
    r.guard = condition x.path ∧ r.keepsFiles = x.tree.allowUnknownOption := by
  rw [← guard_eq_condition]
  rcases List.mem_append.1 h with h | h
  · rcases List.mem_append.1 h with h | h
    · obtain ⟨o, -, rfl⟩ := List.mem_map.1 h
      exact ⟨rfl, rfl⟩
    · split at h
      · obtain ⟨a, -, ha⟩ := List.mem_filterMap.1 h
        obtain ⟨found, -, rfl⟩ := Option.map_eq_some_iff.1 ha
        exact ⟨rfl, rfl⟩
      · exact absurd h List.not_mem_nil
  · obtain ⟨c, -, rfl⟩ := List.mem_map.1 h
    exact ⟨rfl, rfl⟩

/-- Just the arguments whose candidates are computed or listed have a rule. -/
theorem isSome_argumentRule?_iff (path : List Text) (t : CommandTree) (a : ArgumentEntry) :
    (argumentRule? path t a).isSome = true ↔
      (∃ source, a.source t.name = .dynamic source) ∨ (∃ choices, a.source t.name = .choices choices) ∨
        a.source t.name = .settingKeys := by
  rw [argumentRule?, Option.isSome_map]
  cases a.source t.name with
  | dynamic source => exact iff_of_true rfl (.inl ⟨source, rfl⟩)
  | choices choices => exact iff_of_true rfl (.inr (.inl ⟨choices, rfl⟩))
  | settingKeys => exact iff_of_true rfl (.inr (.inr rfl))
  | rest => exact iff_of_false Bool.false_ne_true (by simp)
  | positional => exact iff_of_false Bool.false_ne_true (by simp)

/-! ## The lines of the script -/

/-- Whether a line is a rule with a guard. -/
def isGuardedRule (line : Text) : Bool :=
  ("complete -c ".toList ++ programName ++ " ".toList).isPrefixOf line && Text.contains " -n ".toList line

/-- A text up to its first line feed. -/
def firstLine (t : Text) : Text := t.takeWhile fun c => !decide (c = '\n')

/-- The rules with a guard among the lines of a text. -/
def guardedRules (t : Text) : List Text := (Text.splitAt (· = '\n') t).filter isGuardedRule

/-- Those of them that are below the first line. -/
def strayRules (t : Text) : List Text := (Text.splitAt (· = '\n') t).tail.filter isGuardedRule

theorem guardedRules_eq (t : Text) :
    guardedRules t = if isGuardedRule (firstLine t) = true then firstLine t :: strayRules t else strayRules t := by
  rw [guardedRules, Text.splitAt_eq_cons, List.filter_cons]
  rfl

/-- A text without line feeds is its first line. -/
theorem firstLine_eq_self_iff (t : Text) : firstLine t = t ↔ '\n' ∉ t := by
  rw [firstLine, List.takeWhile_eq_self_iff]
  exact ⟨fun h hmem => absurd (h '\n' hmem) (by decide), fun h c hc => by simpa using ne_of_mem_of_not_mem hc h⟩

theorem firstLine_append {t : Text} (h : '\n' ∉ t) (rest : Text) : firstLine (t ++ rest) = t ++ firstLine rest := by
  refine List.takeWhile_append_of_pos fun c hc => ?_
  simpa using ne_of_mem_of_not_mem hc h

/-- Nothing is below the first line of a text without line feeds. -/
theorem strayRules_of_not_mem {t : Text} (h : '\n' ∉ t) : strayRules t = [] := by
  rw [strayRules, Text.splitAt_of_forall fun c hc => decide_eq_false (ne_of_mem_of_not_mem hc h)]
  rfl

/-- A quoted text has no line feed in it. -/
theorem lineFeed_not_mem_quote (t : Text) : '\n' ∉ quote t := by
  intro h
  rcases Text.mem_of_mem_replace h with h | h
  · exact absurd h (by decide)
  · rcases Text.mem_of_mem_replace h with h | h
    · exact absurd h (by decide)
    · exact absurd (Text.eq_space_of_mem_singleLine h (by decide)) (by decide)

theorem lineFeed_not_mem_quotedPart {flag : Text} (h : '\n' ∉ flag) (t : Text) : '\n' ∉ quotedPart flag t := by
  have hquote := lineFeed_not_mem_quote t
  simp [quotedPart, h, hquote]

theorem lineFeed_not_mem_render_value (v : ValueRule) : '\n' ∉ v.render := by
  cases v with
  | none => exact List.not_mem_nil
  | any => exact (by decide : '\n' ∉ " -r".toList)
  | oneOf choices => exact lineFeed_not_mem_quotedPart (by decide) (Text.join [' '] choices)

theorem lineFeed_not_mem_start (r : Rule) :
    '\n' ∉ "complete -c ".toList ++ programName ++ (if r.keepsFiles then [] else " -f".toList)
      ++ quotedPart " -n".toList r.guard := by
  have hfiles : '\n' ∉ "complete -c ".toList ++ programName ++ if r.keepsFiles then [] else " -f".toList := by
    cases r.keepsFiles <;> decide
  have hguard := @lineFeed_not_mem_quotedPart " -n".toList (by decide) r.guard
  exact fun h => (List.mem_append.1 h).elim hfiles hguard

/-- The first line of a rule begins with the flag against file names, if the rule has one, and the guard. -/
theorem exists_render_eq (r : Rule) : ∃ rest,
    r.render = "complete -c ".toList ++ programName ++ (if r.keepsFiles then [] else " -f".toList) ++ quotedPart " -n".toList r.guard
      ++ rest ∧
    firstLine r.render = "complete -c ".toList ++ programName ++ (if r.keepsFiles then [] else " -f".toList)
      ++ quotedPart " -n".toList r.guard ++ firstLine rest := by
  have hrender : r.render = "complete -c ".toList ++ programName ++ (if r.keepsFiles then [] else " -f".toList)
      ++ quotedPart " -n".toList r.guard ++ (((r.short.map fun c => " -s ".toList ++ [c]).getD [])
      ++ (((r.long.map fun l => " -l ".toList ++ l).getD []) ++ (r.value.render
      ++ (((r.candidates.map (quotedPart " -a".toList)).getD [])
      ++ if r.description.isEmpty then [] else quotedPart " -d".toList r.description)))) := by
    unfold Rule.render
    simp only [List.append_assoc]
  refine ⟨_, hrender, ?_⟩
  rw [hrender]
  exact firstLine_append (lineFeed_not_mem_start r) _

/-- The first line of a rule is a rule with a guard, whatever the forms of the option are. -/
theorem isGuardedRule_firstLine_render (r : Rule) : isGuardedRule (firstLine r.render) = true := by
  obtain ⟨rest, -, hline⟩ := exists_render_eq r
  rw [hline, isGuardedRule, Bool.and_eq_true]
  constructor
  · cases r.keepsFiles with
    | true => rfl
    | false => rfl
  · have hguard : " -n ".toList <:+: quotedPart " -n".toList r.guard := ⟨[], '\'' :: quote r.guard ++ "'".toList, rfl⟩
    exact Text.contains_eq_true_iff.2 (hguard.trans (List.infix_append _ _ _))

theorem guardedRules_render (r : Rule) : guardedRules r.render = firstLine r.render :: strayRules r.render := by
  rw [guardedRules_eq, if_pos (isGuardedRule_firstLine_render r)]

/-- A rule is the only rule among its lines just if it is one line. -/
theorem guardedRules_render_eq_singleton_iff (r : Rule) : guardedRules r.render = [r.render] ↔ '\n' ∉ r.render := by
  rw [guardedRules_render, List.cons.injEq, firstLine_eq_self_iff]
  exact ⟨And.left, fun h => ⟨h, strayRules_of_not_mem h⟩⟩

/-- A rule is one line just if the forms of its option are. -/
theorem lineFeed_not_mem_render_iff (r : Rule) : '\n' ∉ r.render ↔ r.short ≠ some '\n' ∧ ∀ l ∈ r.long, '\n' ∉ l := by
  have hshort : '\n' ∈ (r.short.map fun c => " -s ".toList ++ [c]).getD [] ↔ r.short = some '\n' := by
    cases r.short with
    | none => simp
    | some c => simp [eq_comm]
  have hlong : '\n' ∈ (r.long.map fun l => " -l ".toList ++ l).getD [] ↔ ∃ l ∈ r.long, '\n' ∈ l := by
    cases r.long <;> simp
  have hcandidates : '\n' ∉ (r.candidates.map (quotedPart " -a".toList)).getD [] := by
    cases r.candidates with
    | none => exact List.not_mem_nil
    | some t => exact lineFeed_not_mem_quotedPart (by decide) t
  have hdescription : '\n' ∉ if r.description.isEmpty then [] else quotedPart " -d".toList r.description := by
    split
    · exact List.not_mem_nil
    · exact lineFeed_not_mem_quotedPart (by decide) r.description
  have hstart := lineFeed_not_mem_start r
  have hvalue := lineFeed_not_mem_render_value r.value
  unfold Rule.render
  rw [List.mem_append, List.mem_append, List.mem_append, List.mem_append, List.mem_append, hshort, hlong]
  simp only [hstart, hvalue, hcandidates, hdescription, false_or, or_false, not_or, not_exists, not_and, ne_eq]

/-- The rules of a command are one line each just if the forms of its options are, the long forms that are left out apart. -/
theorem lineFeed_not_mem_rulesOf_iff (x : Place) :
    (∀ r ∈ rulesOf x, '\n' ∉ r.render) ↔
      ∀ o ∈ x.tree.options, o.short ≠ some '\n' ∧ (o.shortOnly = false → '\n' ∉ o.long) := by
  have hplain : ∀ r : Rule, r.short = none → r.long = none → '\n' ∉ r.render := fun r hs hl =>
    (lineFeed_not_mem_render_iff r).2 ⟨by rw [hs]; exact nofun, by rw [hl]; exact fun _ h => nomatch h⟩
  have hoption : ∀ o, '\n' ∉ (optionRule x.path x.tree o).render ↔
      o.short ≠ some '\n' ∧ (o.shortOnly = false → '\n' ∉ o.long) := by
    intro o
    rw [lineFeed_not_mem_render_iff]
    cases hshortOnly : o.shortOnly <;> simp [optionRule, hshortOnly]
  have hargument : ∀ r ∈ if x.tree.isLeaf then x.tree.arguments.filterMap (argumentRule? x.path x.tree) else [],
      '\n' ∉ r.render := by
    intro r hr
    split at hr
    · obtain ⟨a, -, ha⟩ := List.mem_filterMap.1 hr
      obtain ⟨found, -, rfl⟩ := Option.map_eq_some_iff.1 ha
      exact hplain _ rfl rfl
    · exact absurd hr List.not_mem_nil
  have hchild : ∀ c ∈ x.tree.subcommands, '\n' ∉ (childRule x.path x.tree c).render := fun c _ => hplain _ rfl rfl
  rw [rulesOf, List.forall_mem_append, List.forall_mem_append, List.forall_mem_map, List.forall_mem_map]
  simp only [hoption]
  exact ⟨fun h => h.1.1, fun h => ⟨⟨h, hargument⟩, hchild⟩⟩

/-- The heading of a command's section. -/
def headingLine (path : List Text) : Text := Text.join [' '] ("#".toList :: programName :: path)

/-- The lines of a command's section. -/
def sectionLines (x : Place) : List Text := headingLine x.path :: (rulesOf x).map Rule.render ++ [[]]

theorem map_render_sectionOf (x : Place) : (sectionOf x).map Item.render = sectionLines x := by
  rw [sectionOf, List.map_append, List.map_cons, List.map_map]
  rfl

/-- The script is a fixed text, the lines of one section for each command from the top down, and a fixed text. -/
theorem script_eq_lines (t : CommandTree) :
    script t = header ++ (((t.topDown []).flatMap sectionLines).flatMap fun line => line ++ ['\n']) ++ trailer := by
  have hlines : (t.topDown []).flatMap sectionLines = (items t).map Item.render := by
    rw [items_eq, List.map_flatMap]
    exact List.flatMap_congr fun x _ => (map_render_sectionOf x).symm
  rw [script, hlines, List.flatMap_map]

/-- A heading is no rule, but line feeds in the names may make rules of what is behind them. -/
theorem guardedRules_headingLine (path : List Text) : guardedRules (headingLine path) = strayRules (headingLine path) := by
  rw [guardedRules_eq, if_neg]
  rw [headingLine, Text.join_cons_cons]
  exact Bool.false_ne_true

theorem flatMap_guardedRules_sectionLines (x : Place) : (sectionLines x).flatMap guardedRules =
    strayRules (headingLine x.path) ++ (rulesOf x).flatMap fun r => guardedRules r.render := by
  have hempty : guardedRules [] = [] := rfl
  simp only [sectionLines, List.flatMap_append, List.flatMap_cons, List.flatMap_nil, List.flatMap_map, guardedRules_headingLine,
    hempty, List.append_nil]

/-- The rules with a guard in a script are those that line feeds add to the headings and those of the rules of the commands from the
top down. -/
theorem guardedRules_script (t : CommandTree) : guardedRules (script t) = (t.topDown []).flatMap fun x =>
    strayRules (headingLine x.path) ++ (rulesOf x).flatMap fun r => guardedRules r.render := by
  have hheader : header = header.dropLast ++ ['\n'] := by decide +kernel
  have habove : (Text.splitAt (· = '\n') header.dropLast).filter isGuardedRule = [] := by decide +kernel
  have hbelow : (Text.splitAt (· = '\n') trailer).filter isGuardedRule = [] := by decide +kernel
  rw [guardedRules, script_eq_lines, hheader, List.append_assoc, List.append_assoc, List.singleton_append,
    Text.splitAt_append_cons _ (by decide), Text.splitAt_flatMap_concat _ (by decide), List.filter_append, List.filter_append,
    habove, hbelow, List.nil_append, List.append_nil, List.filter_flatMap, List.flatMap_assoc]
  exact List.flatMap_congr fun x _ => flatMap_guardedRules_sectionLines x

/-! ## No other rules -/

section

variable {α β : Type} {f g : α → List β} (h : ∀ a, (g a).length ≤ (f a).length)
include h

theorem length_flatMap_le (as : List α) : (as.flatMap g).length ≤ (as.flatMap f).length := by
  induction as with
  | nil => exact Nat.le_refl _
  | cons a as ih =>
    rw [List.flatMap_cons, List.flatMap_cons, List.length_append, List.length_append]
    exact Nat.add_le_add (h a) ih

/-- If every part of one list is at least as long as that of another one, the lists are equal just if the parts are. -/
theorem flatMap_eq_flatMap_iff (as : List α) : as.flatMap f = as.flatMap g ↔ ∀ a ∈ as, f a = g a := by
  refine ⟨fun heq => ?_, List.flatMap_congr⟩
  induction as with
  | nil => exact List.forall_mem_nil _
  | cons a as ih =>
    have hfirst := h a
    have hrest := length_flatMap_le h as
    have htotal := congrArg List.length heq
    rw [List.flatMap_cons, List.flatMap_cons, List.length_append, List.length_append] at htotal
    obtain ⟨ha, has⟩ := List.append_inj heq (by omega)
    exact List.forall_mem_cons.2 ⟨ha, ih has⟩

end

/-- Whether a script has no rules but those of the commands, each on one line: no name adds a rule behind a line feed to the headings,
and the forms of the options that are written have no line feeds in them. -/
structure HasNoStrayLines (t : CommandTree) : Prop where
  headings : ∀ x ∈ t.topDown [], strayRules (headingLine x.path) = []
  shorts : ∀ x ∈ t.topDown [], ∀ o ∈ x.tree.options, o.short ≠ some '\n'
  longs : ∀ x ∈ t.topDown [], ∀ o ∈ x.tree.options, o.shortOnly = false → '\n' ∉ o.long

instance (t : CommandTree) : Decidable (HasNoStrayLines t) :=
  decidable_of_iff ((∀ x ∈ t.topDown [], strayRules (headingLine x.path) = []) ∧
      (∀ x ∈ t.topDown [], ∀ o ∈ x.tree.options, o.short ≠ some '\n') ∧
      ∀ x ∈ t.topDown [], ∀ o ∈ x.tree.options, o.shortOnly = false → '\n' ∉ o.long)
    ⟨fun ⟨headings, shorts, longs⟩ => ⟨headings, shorts, longs⟩, fun h => ⟨h.headings, h.shorts, h.longs⟩⟩

theorem map_render_eq (rs : List Rule) : rs.map Rule.render = rs.flatMap fun r => [r.render] :=
  (List.flatMap_pure_eq_map Rule.render rs).symm

theorem length_singleton_le (r : Rule) : [r.render].length ≤ (guardedRules r.render).length := by
  rw [guardedRules_render]
  exact Nat.succ_le_succ (Nat.zero_le _)

/-- Each rule has at least one line. -/
theorem length_map_render_le (rs : List Rule) :
    (rs.map Rule.render).length ≤ (rs.flatMap fun r => guardedRules r.render).length := by
  rw [map_render_eq]
  exact length_flatMap_le length_singleton_le rs

/-- What stands in the lines of some rules are the rules just if each of them is one line. -/
theorem flatMap_guardedRules_eq_iff (rs : List Rule) :
    (rs.flatMap fun r => guardedRules r.render) = rs.map Rule.render ↔ ∀ r ∈ rs, '\n' ∉ r.render := by
  rw [map_render_eq, flatMap_eq_flatMap_iff length_singleton_le]
  exact forall₂_congr fun r _ => guardedRules_render_eq_singleton_iff r

/-- The rules of a command are the only ones in its section just if they are one line each and the heading adds none. -/
theorem section_eq_iff (x : Place) :
    (strayRules (headingLine x.path) ++ (rulesOf x).flatMap fun r => guardedRules r.render) =
        (rulesOf x).map Rule.render ↔
      strayRules (headingLine x.path) = [] ∧ ∀ r ∈ rulesOf x, '\n' ∉ r.render := by
  rw [← flatMap_guardedRules_eq_iff]
  constructor
  · intro h
    have hlines := length_map_render_le (rulesOf x)
    have htotal := congrArg List.length h
    rw [List.length_append] at htotal
    have hheading : strayRules (headingLine x.path) = [] := List.length_eq_zero_iff.1 (by omega)
    rw [hheading, List.nil_append] at h
    exact ⟨hheading, h⟩
  · rintro ⟨hheading, h⟩
    rw [hheading, h, List.nil_append]

/-- The rules with a guard in a script are the rules of the commands, whole and no others, just if there are no stray lines. -/
theorem guardedRules_script_eq_iff (t : CommandTree) :
    guardedRules (script t) = ((t.topDown []).flatMap rulesOf).map Rule.render ↔ HasNoStrayLines t := by
  have hlength : ∀ x : Place, ((rulesOf x).map Rule.render).length ≤
      (strayRules (headingLine x.path) ++ (rulesOf x).flatMap fun r => guardedRules r.render).length := by
    intro x
    rw [List.length_append]
    exact Nat.le_add_left_of_le (length_map_render_le (rulesOf x))
  rw [guardedRules_script, List.map_flatMap, flatMap_eq_flatMap_iff hlength]
  simp only [section_eq_iff, lineFeed_not_mem_rulesOf_iff]
  constructor
  · intro h
    exact ⟨fun x hx => (h x hx).1, fun x hx o ho => ((h x hx).2 o ho).1, fun x hx o ho => ((h x hx).2 o ho).2⟩
  · intro h x hx
    exact ⟨h.headings x hx, fun o ho => ⟨h.shorts x hx o ho, h.longs x hx o ho⟩⟩

/-- The script has one section for each command from the top down, and a section has the rules of its command, one after another. On
its first line each of them has the flag against file names, unless the command passes unknown options on, and the condition of the
command's path as its guard. An argument has a rule just if its candidates are computed or listed. So the rules with a guard in the
script are these first lines, in order, and what line feeds in a heading or in a rule may add; they are the whole rules and no others
just if there are no stray lines. -/
theorem script_eq_sections (t : CommandTree) :
    script t = header ++ (((t.topDown []).flatMap sectionLines).flatMap fun line => line ++ ['\n']) ++ trailer ∧
    (∀ x, ∀ r ∈ rulesOf x, ∃ rest,
      r.render = "complete -c ".toList ++ programName ++ (if x.tree.allowUnknownOption then [] else " -f".toList)
        ++ quotedPart " -n".toList (condition x.path) ++ rest ∧
      firstLine r.render = "complete -c ".toList ++ programName ++ (if x.tree.allowUnknownOption then [] else " -f".toList)
        ++ quotedPart " -n".toList (condition x.path) ++ firstLine rest) ∧
    (∀ path parent a, (argumentRule? path parent a).isSome = true ↔
      (∃ source, a.source parent.name = .dynamic source) ∨ (∃ choices, a.source parent.name = .choices choices) ∨
        a.source parent.name = .settingKeys) ∧
    (guardedRules (script t) = (t.topDown []).flatMap fun x =>
      strayRules (headingLine x.path) ++ (rulesOf x).flatMap fun r => firstLine r.render :: strayRules r.render) ∧
    (guardedRules (script t) = ((t.topDown []).flatMap rulesOf).map Rule.render ↔ HasNoStrayLines t) := by
  refine ⟨script_eq_lines t, fun x r hr => ?_, isSome_argumentRule?_iff, ?_, guardedRules_script_eq_iff t⟩
  · obtain ⟨hguard, hkeeps⟩ := of_mem_rulesOf hr
    rw [← hguard, ← hkeeps]
    exact exists_render_eq r
  · simp only [guardedRules_script, guardedRules_render]

/-- A command line with line feeds where they do no harm: in a name that goes on with no rule, and in a long form that is left out. -/
def brokenNameTree : CommandTree :=
  let switch := ((CommandTree.ofName "a\nb".toList []).addOption ((OptionEntry.value "x\ny".toList []).withShortOnly 'n')).addArgument
    (ArgumentEntry.ofName "branch".toList "Which one".toList)
  (CommandTree.ofName "devx".toList []).addSubcommand switch.passingUnknownOptions

/-- Its script has the rules of the two commands and no others. -/
theorem script_eq_sections_brokenNameTree :
    HasNoStrayLines brokenNameTree ∧
    guardedRules (script brokenNameTree) =
      ["complete -c devx -f -n '__fish_use_subcommand' -a 'a b'".toList,
        "complete -c devx -n '__fish_seen_subcommand_from a b' -s n -r".toList,
        "complete -c devx -n '__fish_seen_subcommand_from a b' -a '(__devx_branches)' -d 'Which one'".toList] := by
  have h : HasNoStrayLines brokenNameTree := by decide +kernel
  obtain ⟨-, -, -, -, hrules⟩ := script_eq_sections brokenNameTree
  exact ⟨h, (hrules.2 h).trans (by decide +kernel)⟩

/-- A command line with a command whose name goes on behind a line feed as a rule begins. -/
def strayTree : CommandTree :=
  (CommandTree.ofName "devx".toList []).addSubcommand (CommandTree.ofName "a\ncomplete -c devx -n 'x".toList [])

/-- The tree is valid and has one rule, but the heading of the command adds another one to the script. -/
theorem guardedRules_strayTree :
    strayTree.defect? = none ∧
    ((strayTree.topDown []).flatMap rulesOf).map Rule.render =
      ["complete -c devx -f -n '__fish_use_subcommand' -a 'a complete -c devx -n \\'x'".toList] ∧
    guardedRules (script strayTree) =
      ["complete -c devx -f -n '__fish_use_subcommand' -a 'a complete -c devx -n \\'x'".toList,
        "complete -c devx -n 'x".toList] := by
  decide +kernel

end Fish

end DevWorkflow
