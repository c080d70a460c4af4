import DevWorkflow.Completion.Validity
import Mathlib.Data.List.Nodup

/-!
# Valid trees

A tree has no defect exactly if each of its commands is well-formed on its own (`CommandTree.defect?_eq_none_iff`).
-/

namespace DevWorkflow

/-! ## One command -/

/-- Whether the fields of an option agree: an option with only a short form has one, and an option has a placeholder just if it
takes a value. -/
structure OptionEntry.IsCoherent (o : OptionEntry) : Prop where
  short : o.shortOnly = true → o.short.isSome = true
  value : o.isBoolean = !o.valueName.isSome

/-- The fields of an option agree if neither of the two rules is broken. -/
theorem OptionEntry.isCoherent_iff (o : OptionEntry) :
    o.IsCoherent ↔ (o.shortOnly && o.short.isNone) = false ∧ o.isBoolean ≠ o.valueName.isSome := by
  constructor
  · rintro ⟨hshort, hvalue⟩
    refine ⟨?_, ?_⟩
    · cases hs : o.shortOnly with
      | false => rfl
      | true => simpa [Option.isSome_iff_ne_none] using hshort hs
    · rw [hvalue]
      exact Bool.not_not_eq.2 rfl
  · rintro ⟨hshort, hvalue⟩
    refine ⟨?_, Bool.eq_not.2 hvalue⟩
    intro hs
    simpa [hs, Option.isSome_iff_ne_none] using hshort

/-- A word that names an option is its long form or its short form. -/
theorem OptionEntry.of_mem_flagWords {o : OptionEntry} {w : Text} (h : w ∈ o.flagWords) :
    w = "--".toList ++ o.long ∨ ∃ c, o.short = some c ∧ w = ['-', c] := by
  rcases List.mem_append.1 h with h | h
  · split at h
    · exact absurd h List.not_mem_nil
    · exact .inl (List.mem_singleton.1 h)
  · obtain ⟨c, hc, rfl⟩ := Option.map_eq_some_iff.1 (Option.mem_toList.1 h)
    exact .inr ⟨c, hc, rfl⟩

/-- An option whose fields agree has words that name it. -/
theorem OptionEntry.IsCoherent.flagWords_ne_nil {o : OptionEntry} (h : o.IsCoherent) : o.flagWords ≠ [] := by
  rw [OptionEntry.flagWords]
  cases hshortOnly : o.shortOnly with
  | false => simp
  | true =>
    obtain ⟨c, hc⟩ := Option.isSome_iff_exists.1 (h.short hshortOnly)
    simp [hc]

/-- Whether a command is one that the scripts can express, whatever is below its subcommands. -/
structure CommandTree.IsWellFormed (t : CommandTree) : Prop where
  named : t.name ≠ []
  longs : (t.options.map (·.long)).Nodup
  coherent : ∀ o ∈ t.options, o.IsCoherent
  onlyLast : ∀ a ∈ t.arguments.dropLast, a.variadic = false
  siblings : (t.subcommands.map (·.name)).Nodup
  noHelp : ∀ c ∈ t.subcommands, c.name ≠ helpName

/-- Whether some names are different from each other and from those seen before. -/
def AllNew (seen names : List Text) : Prop := names.Nodup ∧ ∀ n ∈ names, n ∉ seen

/-- Names are new one after another. -/
theorem allNew_cons (seen : List Text) (n : Text) (names : List Text) :
    AllNew seen (n :: names) ↔ n ∉ seen ∧ AllNew (n :: seen) names := by
  rw [AllNew, AllNew, List.nodup_cons, List.forall_mem_cons]
  constructor
  · rintro ⟨⟨hfresh, hnodup⟩, hseen, hnew⟩
    refine ⟨hseen, hnodup, ?_⟩
    intro m hm hmem
    rcases List.mem_cons.1 hmem with rfl | hmem
    · exact hfresh hm
    · exact hnew m hm hmem
  · rintro ⟨hseen, hnodup, hnew⟩
    refine ⟨⟨fun hn => hnew n hn List.mem_cons_self, hnodup⟩, hseen, ?_⟩
    exact fun m hm hmem => hnew m hm (List.mem_cons_of_mem _ hmem)

/-- With nothing seen before, names are new if they are different. -/
theorem allNew_nil (names : List Text) : AllNew [] names ↔ names.Nodup :=
  and_iff_left fun _ _ => List.not_mem_nil

/-- Where names are different, each is found by its own. -/
theorem find?_eq_of_nodup {α : Type} {name : α → Text} {as : List α} (h : (as.map name).Nodup) {a : α} (ha : a ∈ as) :
    (as.find? fun b => name b = name a) = some a := by
  cases hfound : as.find? fun b => name b = name a with
  | none => exact absurd (List.find?_eq_none.1 hfound a ha) (by simp)
  | some b =>
    have hname : name b = name a := by simpa using List.find?_some hfound
    rw [List.inj_on_of_nodup_map h (List.mem_of_find?_eq_some hfound) ha hname]

namespace CommandTree

/-- Nothing is wrong with an option if its long name is new and its fields agree. -/
theorem optionDefect?_eq_none_iff (path seen : List Text) (o : OptionEntry) :
    optionDefect? path seen o = none ↔ o.long ∉ seen ∧ o.IsCoherent := by
  rw [OptionEntry.isCoherent_iff, optionDefect?]
  split
  case isTrue hseen => exact iff_of_false nofun fun h => h.1 (by simpa using hseen)
  split
  case isTrue hshort => exact iff_of_false nofun fun h => by simp [hshort] at h
  split
  case isTrue hvalue => exact iff_of_false nofun fun h => h.2.2 hvalue
  case isFalse hseen hshort hvalue =>
    exact iff_of_true rfl ⟨by simpa using hseen, Bool.eq_false_iff.2 hshort, hvalue⟩

/-- Nothing is wrong with some options if their long names are new and their fields agree. -/
theorem optionsDefect?_eq_none_iff (path seen : List Text) (os : List OptionEntry) :
    optionsDefect? path seen os = none ↔ AllNew seen (os.map (·.long)) ∧ ∀ o ∈ os, o.IsCoherent := by
  induction os generalizing seen with
  | nil => simp [optionsDefect?, AllNew]
  | cons o rest ih =>
    rw [optionsDefect?, Option.or_eq_none_iff, optionDefect?_eq_none_iff, ih, List.map_cons, allNew_cons, List.forall_mem_cons]
    exact and_and_and_comm

/-- Nothing is wrong with some arguments if only the last one takes all remaining words. -/
theorem argumentsDefect?_eq_none_iff (path : List Text) (as : List ArgumentEntry) :
    argumentsDefect? path as = none ↔ ∀ a ∈ as.dropLast, a.variadic = false := by
  induction as with
  | nil => simp [argumentsDefect?]
  | cons a rest ih =>
    cases rest with
    | nil => simp [argumentsDefect?]
    | cons b rest =>
      rw [argumentsDefect?, List.dropLast_cons_cons, List.forall_mem_cons, ← ih]
      cases ha : a.variadic <;> simp

/-- Nothing is wrong with some subcommands if their names are new and not `help`, and nothing is wrong below them. -/
theorem siblingsDefect?_eq_none_iff (path seen : List Text) (cs : List CommandTree) :
    siblingsDefect? path seen cs = none ↔
      AllNew seen (cs.map (·.name)) ∧ ∀ c ∈ cs, c.name ≠ helpName ∧ defectBelow? path c = none := by
  induction cs generalizing seen with
  | nil => simp [siblingsDefect?, AllNew]
  | cons c rest ih =>
    rw [siblingsDefect?, List.map_cons, allNew_cons, List.forall_mem_cons]
    split
    case isTrue hhelp => simp [hhelp]
    split
    case isTrue hseen => simp_all
    case isFalse hhelp hseen =>
      have hseen : c.name ∉ seen := by simpa using hseen
      rw [Option.or_eq_none_iff, ih]
      simp only [hhelp, hseen, ne_eq, not_false_eq_true, true_and]
      exact and_left_comm

/-! ## The whole tree -/

mutual

/-- A statement about every tree may be proved from the same about its subcommands. -/
theorem induction_below {P : CommandTree → Prop} (step : ∀ t, (∀ c ∈ t.subcommands, P c) → P t) (t : CommandTree) : P t := by
  obtain ⟨name, description, options, arguments, subcommands, passes⟩ := t
  exact step _ (induction_below_all step subcommands)

theorem induction_below_all {P : CommandTree → Prop} (step : ∀ t, (∀ c ∈ t.subcommands, P c) → P t)
    (ts : List CommandTree) : ∀ c ∈ ts, P c := by
  cases ts with
  | nil => exact List.forall_mem_nil _
  | cons t rest => exact List.forall_mem_cons.2 ⟨induction_below step t, induction_below_all step rest⟩

end

mutual

/-- A command and all commands below it, each before those below it. -/
def commands : CommandTree → List CommandTree
  | t@{ subcommands, .. } => t :: commandsOfAll subcommands

/-- Some commands and all commands below them. -/
def commandsOfAll : List CommandTree → List CommandTree
  | [] => []
  | t :: rest => commands t ++ commandsOfAll rest

end

theorem commandsOfAll_eq (ts : List CommandTree) : commandsOfAll ts = ts.flatMap commands := by
  induction ts with
  | nil => rfl
  | cons t rest ih => rw [commandsOfAll, ih, List.flatMap_cons]

/-- The commands below a command come after it. -/
theorem commands_eq (t : CommandTree) : t.commands = t :: t.subcommands.flatMap commands := by
  cases t
  rw [commands, commandsOfAll_eq]

theorem mem_commands_self (t : CommandTree) : t ∈ t.commands := by
  rw [commands_eq]
  exact List.mem_cons_self

/-- A command with a subcommand is no leaf. -/
theorem isLeaf_of_mem_subcommands {t c : CommandTree} (hc : c ∈ t.subcommands) : t.isLeaf = false := by
  rw [isLeaf, List.isEmpty_eq_false_iff]
  exact List.ne_nil_of_mem hc

/-- What is below a subcommand is below the command. -/
theorem mem_commands_of_subcommand {t s c : CommandTree} (hs : s ∈ t.subcommands) (hc : c ∈ s.commands) : c ∈ t.commands := by
  rw [commands_eq]
  exact List.mem_cons_of_mem t (List.mem_flatMap.2 ⟨s, hs, hc⟩)

/-- A tree has no defect at its root if its root is well-formed, and none below its subcommands. -/
theorem defectBelow?_eq_none_iff_root (above : List Text) (t : CommandTree) :
    defectBelow? above t = none ↔
      t.IsWellFormed ∧ ∀ c ∈ t.subcommands, defectBelow? (above ++ [t.name]) c = none := by
  obtain ⟨name, description, options, arguments, subcommands, passes⟩ := t
  rw [defectBelow?]
  by_cases hname : name = []
  · simp only [hname, List.isEmpty_nil, if_true, reduceCtorEq, false_iff]
    exact fun h => h.1.named rfl
  · rw [if_neg (by simpa using hname)]
    simp only [Option.or_eq_none_iff, optionsDefect?_eq_none_iff, argumentsDefect?_eq_none_iff, siblingsDefect?_eq_none_iff,
      allNew_nil]
    constructor
    · rintro ⟨⟨⟨hlongs, hcoherent⟩, hlast⟩, hsiblings, hbelow⟩
      exact ⟨⟨hname, hlongs, hcoherent, hlast, hsiblings, fun c hc => (hbelow c hc).1⟩, fun c hc => (hbelow c hc).2⟩
    · rintro ⟨h, hbelow⟩
      exact ⟨⟨⟨h.longs, h.coherent⟩, h.onlyLast⟩, h.siblings, fun c hc => ⟨h.noHelp c hc, hbelow c hc⟩⟩

/-- A tree has no defect, wherever it stands, exactly if all its commands are well-formed. -/
theorem defectBelow?_eq_none_iff (above : List Text) (t : CommandTree) :
    defectBelow? above t = none ↔ ∀ c ∈ t.commands, c.IsWellFormed := by
  induction t using induction_below generalizing above with
  | step t ih =>
    rw [defectBelow?_eq_none_iff_root, commands_eq, List.forall_mem_cons, List.forall_mem_flatMap]
    refine and_congr_right fun _ => ?_
    exact forall_congr' fun c => forall_congr' fun hc => ih c hc (above ++ [t.name])

/-- A tree has no defect exactly if all its commands are well-formed. -/
theorem defect?_eq_none_iff (t : CommandTree) : t.defect? = none ↔ ∀ c ∈ t.commands, c.IsWellFormed :=
  defectBelow?_eq_none_iff [] t

end CommandTree

end DevWorkflow
