import DevWorkflow.Proofs.Completion.Positions
import Mathlib.Data.List.Infix
import Mathlib.Data.List.Lex

/-!
# The first defect of a tree

Each command of a tree is checked against a list of rules (`CommandTree.checksAt`), and each rule says what is reported where it is
broken. Positions are ordered like words in a dictionary: a command comes before those below it, and what is below a subcommand comes
before the later siblings. The defect of a tree is that of the first broken rule of the first command that breaks one
(`CommandTree.defect?_eq_first`).
-/

namespace DevWorkflow

/-! ## The first in depth-first order -/

/-- Whether something is what is found first, or nothing is found at all, where `f` says what is found at each position. -/
def IsFirst {α : Type} (f : List Nat → Option α) : Option α → Prop
  | none => ∀ i, f i = none
  | some a => ∃ i, f i = some a ∧ ∀ j < i, f j = none

namespace IsFirst

variable {α : Type} {f : List Nat → Option α}

/-- There is one thing at most that is found first. -/
theorem eq_some_iff {o : Option α} (h : IsFirst f o) (a : α) : o = some a ↔ ∃ i, f i = some a ∧ ∀ j < i, f j = none := by
  constructor
  · rintro rfl
    exact h
  · rintro ⟨j, hj, hbefore'⟩
    cases o with
    | none => simp [h j] at hj
    | some b =>
      obtain ⟨i, hi, hbefore⟩ := h
      rcases lt_trichotomy i j with hlt | rfl | hlt
      · simp [hbefore' i hlt] at hi
      · exact hi.symm.trans hj
      · simp [hbefore j hlt] at hj

/-- What is found at the root comes before what is found elsewhere. -/
theorem or {o : Option α} {a : Option α} {g : List Nat → Option α} (h : IsFirst g o) (hroot : f [] = a.or (g []))
    (hbelow : ∀ k rest, f (k :: rest) = g (k :: rest)) : IsFirst f (a.or o) := by
  cases a with
  | some a => exact ⟨[], hroot, fun j hj => absurd hj (List.not_lt_nil j)⟩
  | none =>
    obtain rfl : f = g := by
      funext i
      cases i with
      | nil => exact hroot
      | cons k rest => exact hbelow k rest
    exact h

/-- What is found below the first of some subcommands comes before what is found below the others. -/
theorem cons {a o : Option α} (hroot : f [] = none) (hfirst : IsFirst (fun i => f (0 :: i)) a)
    {g : List Nat → Option α} (hothers : IsFirst g o) (hnil : g [] = none) (hnext : ∀ k rest, f ((k + 1) :: rest) = g (k :: rest)) :
    IsFirst f (a.or o) := by
  cases a with
  | some a =>
    obtain ⟨i, hi, hbefore⟩ := hfirst
    refine ⟨0 :: i, hi, fun j hj => ?_⟩
    cases j with
    | nil => exact hroot
    | cons k rest =>
      rcases List.cons_lt_cons_iff.1 hj with hk | ⟨rfl, hrest⟩
      · exact absurd hk (Nat.not_lt_zero k)
      · exact hbefore rest hrest
  | none =>
    cases o with
    | none =>
      rintro (_ | ⟨k | k, rest⟩)
      · exact hroot
      · exact hfirst rest
      · exact (hnext k rest).trans (hothers _)
    | some b =>
      obtain ⟨i, hi, hbefore⟩ := hothers
      cases i with
      | nil => simp [hnil] at hi
      | cons k rest =>
        refine ⟨(k + 1) :: rest, (hnext k rest).trans hi, ?_⟩
        rintro (_ | ⟨l | l, rest'⟩) hj
        · exact hroot
        · exact hfirst rest'
        · refine (hnext l rest').trans (hbefore _ ?_)
          simpa [List.cons_lt_cons_iff] using hj

end IsFirst

/-! ## The rules for each command -/

namespace TreeDefect

/-- The path that is reported. -/
def path : TreeDefect → List Text
  | unnamed path | duplicateOption _ path | shortOnlyWithoutShort _ path | valueNameMismatch _ path | variadicNotLast _ path
  | helpCommand path | duplicateCommand _ path => path

/-- Whether something is wrong with the name of a command. -/
def concernsName : TreeDefect → Bool
  | unnamed _ | helpCommand _ | duplicateCommand _ _ => true
  | duplicateOption _ _ | shortOnlyWithoutShort _ _ | valueNameMismatch _ _ | variadicNotLast _ _ => false

/-- The path is part of the message, between quotes. -/
theorem message_eq (d : TreeDefect) :
    ∃ start rest, d.message = start ++ "'".toList ++ location d.path ++ ("'".toList ++ rest) := by
  cases d with
  | unnamed path => exact ⟨"unnamed command under ".toList, [], rfl⟩
  | duplicateOption long path =>
    refine ⟨"duplicate option '--".toList ++ long ++ "' on ".toList, [], ?_⟩
    rw [List.append_assoc _ "' on ".toList]
    rfl
  | shortOnlyWithoutShort long path =>
    refine ⟨"short-only option '".toList ++ long ++ "' on ".toList, " has no short flag".toList, ?_⟩
    rw [List.append_assoc _ "' on ".toList]
    rfl
  | valueNameMismatch long path =>
    refine ⟨"option '--".toList ++ long ++ "' on ".toList, " must have a value name iff it takes a value".toList, ?_⟩
    rw [List.append_assoc _ "' on ".toList]
    rfl
  | variadicNotLast argument path =>
    refine ⟨"variadic argument '".toList ++ argument ++ "' on ".toList, " is not the last argument".toList, ?_⟩
    rw [List.append_assoc _ "' on ".toList]
    rfl
  | helpCommand path => exact ⟨"'help' pseudo-command under ".toList, [], rfl⟩
  | duplicateCommand name path =>
    refine ⟨"duplicate subcommand '".toList ++ name ++ "' under ".toList, [], ?_⟩
    rw [List.append_assoc _ "' under ".toList]
    rfl

end TreeDefect

/-- A rule for a place in a tree: whether it is broken there, and what is then reported. -/
structure Check where
  isBroken : Bool
  defect : TreeDefect

namespace Check

/-- What is reported for the first broken rule. -/
def first? (checks : List Check) : Option TreeDefect := (checks.find? (·.isBroken)).map (·.defect)

@[simp] theorem first?_nil : first? [] = none := rfl

@[simp] theorem first?_cons (x : Check) (rest : List Check) :
    first? (x :: rest) = if x.isBroken then some x.defect else first? rest := by
  cases h : x.isBroken <;> simp [first?, h]

theorem first?_append (xs ys : List Check) : first? (xs ++ ys) = (first? xs).or (first? ys) := by
  rw [first?, List.find?_append, first?, first?]
  cases xs.find? (·.isBroken) <;> rfl

end Check

namespace CommandTree

/-- The rules for an option of the command at a path, given the options before it. -/
def optionChecks (path : List Text) (before : List OptionEntry) (o : OptionEntry) : List Check :=
  [⟨(before.map (·.long)).contains o.long, .duplicateOption o.long path⟩,
    ⟨o.shortOnly = true ∧ o.short = none, .shortOnlyWithoutShort o.long path⟩,
    ⟨¬(o.valueName.isSome ↔ ¬o.isBoolean), .valueNameMismatch o.long path⟩]

/-- The rule for an argument of the command at a path that another one follows. -/
def argumentCheck (path : List Text) (a : ArgumentEntry) : Check := ⟨a.variadic, .variadicNotLast a.name path⟩

/-- The rules for the name of a subcommand of the command at a path, given the siblings before it. -/
def siblingChecks (path : List Text) (before : List CommandTree) (c : CommandTree) : List Check :=
  [⟨c.name = helpName, .helpCommand path⟩, ⟨(before.map (·.name)).contains c.name, .duplicateCommand c.name path⟩]

/-- The rules for the command at a path, whatever its siblings are and whatever is below it: its name, its options in order and its
arguments in order. -/
def ownChecks (path : List Text) (c : CommandTree) : List Check :=
  ⟨c.name = [], .unnamed path.dropLast⟩ ::
    ((c.options.inits.zip c.options).flatMap fun x => optionChecks path x.1 x.2) ++ c.arguments.dropLast.map (argumentCheck path)

/-- The siblings before the command at a position; the root has none. -/
def eldersAt? (t : CommandTree) : List Nat → Option (List CommandTree)
  | [] => none
  | [k] => some (t.subcommands.take k)
  | k :: l :: rest => t.subcommands[k]?.bind fun c => c.eldersAt? (l :: rest)

/-- The rules for the command at a position of a tree below a path: first those for it as a subcommand, then its own. -/
def checksAt (above : List Text) (t : CommandTree) (i : List Nat) : List Check :=
  match t.at? i with
  | none => []
  | some c =>
    let path := above ++ t.name :: t.namesTo i
    (t.eldersAt? i).elim [] (fun before => siblingChecks path.dropLast before c) ++ ownChecks path c

/-- The first defect of the command at a position of a tree below a path. -/
def defectAt? (above : List Text) (t : CommandTree) (i : List Nat) : Option TreeDefect := Check.first? (checksAt above t i)

/-! ## One command -/

theorem optionDefect?_eq (path seen : List Text) (before : List OptionEntry) (h : ∀ n, n ∈ seen ↔ n ∈ before.map (·.long))
    (o : OptionEntry) : optionDefect? path seen o = Check.first? (optionChecks path before o) := by
  have hshort : (o.shortOnly && o.short.isNone) = decide (o.shortOnly = true ∧ o.short = none) := by
    cases o.shortOnly <;> cases o.short <;> rfl
  have hvalue : (o.isBoolean = o.valueName.isSome) ↔ ¬(o.valueName.isSome ↔ ¬o.isBoolean) := by
    cases o.isBoolean <;> cases o.valueName.isSome <;> simp
  simp only [optionDefect?, optionChecks, Check.first?_cons, Check.first?_nil, List.contains_iff_mem, h, hshort, hvalue,
    decide_eq_true_eq]

/-- The options of a command are checked in order, each against the options before it. -/
theorem optionsDefect?_eq (path seen : List Text) (before : List OptionEntry) (h : ∀ n, n ∈ seen ↔ n ∈ before.map (·.long))
    (os : List OptionEntry) : optionsDefect? path seen os =
      Check.first? ((os.inits.zip os).flatMap fun x => optionChecks path (before ++ x.1) x.2) := by
  induction os generalizing seen before with
  | nil => rfl
  | cons o rest ih =>
    have hnext : ∀ n, n ∈ o.long :: seen ↔ n ∈ (before ++ [o]).map (·.long) := by
      intro n
      simp [h n, or_comm]
    rw [optionsDefect?, List.inits_cons, List.zip_cons_cons, List.flatMap_cons, Check.first?_append, List.append_nil,
      optionDefect?_eq path seen before h, ih _ _ hnext, List.zip_map_left, List.flatMap_map]
    simp

theorem argumentsDefect?_eq (path : List Text) (as : List ArgumentEntry) :
    argumentsDefect? path as = Check.first? (as.dropLast.map (argumentCheck path)) := by
  induction as with
  | nil => rfl
  | cons a rest ih =>
    cases rest with
    | nil => rfl
    | cons b rest => rw [argumentsDefect?, List.dropLast_cons_cons, List.map_cons, Check.first?_cons, ← ih, argumentCheck]

/-- The first defect of a tree is the first of its root, or else the first below its subcommands. -/
theorem defectBelow?_eq (above : List Text) (t : CommandTree) : defectBelow? above t =
    (Check.first? (ownChecks (above ++ [t.name]) t)).or (siblingsDefect? (above ++ [t.name]) [] t.subcommands) := by
  obtain ⟨name, description, options, arguments, subcommands, passes⟩ := t
  rw [defectBelow?, ownChecks, List.cons_append, Check.first?_cons, Check.first?_append]
  cases name with
  | nil => simp
  | cons c name =>
    simp [optionsDefect?_eq _ [] [] (by simp), argumentsDefect?_eq]

/-! ## The whole tree -/

theorem defectAt?_nil (above : List Text) (t : CommandTree) :
    defectAt? above t [] = Check.first? (ownChecks (above ++ [t.name]) t) := by
  simp [defectAt?, checksAt, at?, eldersAt?, namesTo]

/-- The first defect at a position among some subcommands of the command at a path, given the siblings before them. -/
def defectAmong? (path : List Text) (before cs : List CommandTree) : List Nat → Option TreeDefect
  | [] => none
  | k :: rest => cs[k]?.bind fun c =>
    (if rest = [] then Check.first? (siblingChecks path (before ++ cs.take k) c) else none).or (defectAt? path c rest)

/-- Below the root, the defects are those among the subcommands. -/
theorem defectAt?_cons (above : List Text) (t : CommandTree) (k : Nat) (rest : List Nat) :
    defectAt? above t (k :: rest) = defectAmong? (above ++ [t.name]) [] t.subcommands (k :: rest) := by
  rw [defectAt?, checksAt, defectAmong?]
  cases hc : t.subcommands[k]? with
  | none => simp [at?, hc]
  | some c =>
    cases rest with
    | nil => simp [at?, eldersAt?, namesTo, hc, Check.first?_append, defectAt?_nil]
    | cons l rest =>
      simp [at?, eldersAt?, namesTo, hc, defectAt?, checksAt]

/-- The first defect among some subcommands is found first, if the first defect below each of them is. -/
theorem isFirst_siblingsDefect? {path : List Text} {cs : List CommandTree}
    (h : ∀ c ∈ cs, IsFirst (defectAt? path c) (defectBelow? path c)) {seen : List Text} {before : List CommandTree}
    (hseen : ∀ n, n ∈ seen ↔ n ∈ before.map (·.name)) :
    IsFirst (defectAmong? path before cs) (siblingsDefect? path seen cs) := by
  induction cs generalizing seen before with
  | nil =>
    rintro (_ | ⟨k, rest⟩)
    · rfl
    · simp [defectAmong?]
  | cons c cs ih =>
    obtain ⟨hc, hcs⟩ := List.forall_mem_cons.1 h
    have hnext : ∀ n, n ∈ c.name :: seen ↔ n ∈ (before ++ [c]).map (·.name) := by
      intro n
      simp [hseen n, or_comm]
    have hstep : siblingsDefect? path seen (c :: cs) =
        ((Check.first? (siblingChecks path before c)).or (defectBelow? path c)).or (siblingsDefect? path (c.name :: seen) cs) := by
      simp only [siblingsDefect?, siblingChecks, Check.first?_cons, Check.first?_nil, List.contains_iff_mem, hseen,
        decide_eq_true_eq]
      by_cases hhelp : c.name = helpName
      · rw [if_pos hhelp, if_pos hhelp, Option.some_or, Option.some_or]
      · by_cases hclash : c.name ∈ before.map (·.name)
        · rw [if_neg hhelp, if_neg hhelp, if_pos hclash, if_pos hclash, Option.some_or, Option.some_or]
        · rw [if_neg hhelp, if_neg hhelp, if_neg hclash, if_neg hclash, Option.none_or]
    rw [hstep]
    refine IsFirst.cons rfl (IsFirst.or hc ?_ ?_) (ih hcs hnext) rfl ?_
    · simp [defectAmong?]
    · simp [defectAmong?]
    · simp [defectAmong?]

/-- What a tree is reported for is found first. -/
theorem isFirst_defectBelow? (above : List Text) (t : CommandTree) : IsFirst (defectAt? above t) (defectBelow? above t) := by
  induction t using induction_below generalizing above with
  | step t ih =>
    rw [defectBelow?_eq]
    refine IsFirst.or (isFirst_siblingsDefect? (fun c hc => ih c hc _) (by simp)) ?_ (defectAt?_cons above t)
    rw [defectAt?_nil, defectAmong?, Option.or_none]

/-! ## Where a defect is reported -/

/-- A defect in a command's own name is reported at the command above, any other where it is. -/
theorem path_of_mem_ownChecks {path : List Text} {c : CommandTree} {x : Check} (hx : x ∈ ownChecks path c) :
    x.defect.path = if x.defect.concernsName then path.dropLast else path := by
  rw [ownChecks, List.cons_append, List.mem_cons, List.mem_append, List.mem_flatMap, List.mem_map] at hx
  rcases hx with rfl | ⟨⟨before, o⟩, -, hx⟩ | ⟨a, -, rfl⟩
  · rfl
  · simp only [optionChecks, List.mem_cons, List.not_mem_nil, or_false] at hx
    rcases hx with rfl | rfl | rfl <;> rfl
  · rfl

/-- A defect in the name of a subcommand is reported at the command that has it. -/
theorem path_of_mem_siblingChecks {path : List Text} {before : List CommandTree} {c : CommandTree} {x : Check}
    (hx : x ∈ siblingChecks path before c) : x.defect.concernsName = true ∧ x.defect.path = path := by
  simp only [siblingChecks, List.mem_cons, List.not_mem_nil, or_false] at hx
  rcases hx with rfl | rfl <;> exact ⟨rfl, rfl⟩

/-- A defect in the name of a command is reported at the command above, any other at the command that has it. -/
theorem path_of_defectAt? {t : CommandTree} {i : List Nat} {d : TreeDefect} (h : defectAt? [] t i = some d) :
    d.path = if d.concernsName then (t.name :: t.namesTo i).dropLast else t.name :: t.namesTo i := by
  obtain ⟨x, hx, rfl⟩ := Option.map_eq_some_iff.1 h
  have hmem := List.mem_of_find?_eq_some hx
  unfold checksAt at hmem
  split at hmem
  · nomatch hmem
  · next c _ =>
    rcases List.mem_append.1 hmem with hmem | hmem
    · cases hbefore : t.eldersAt? i with
      | none => simp [hbefore] at hmem
      | some before =>
        rw [hbefore] at hmem
        obtain ⟨hname, hpath⟩ := path_of_mem_siblingChecks hmem
        rw [hname, if_pos rfl]
        exact hpath
    · exact path_of_mem_ownChecks hmem

/-- A tree has no defect exactly if all its commands are well-formed. If it has one, then it is the first one at the first position
at which there is one, and it is reported with the names on the way to the command that has it, or that is above it if something is
wrong with its name. -/
theorem defect?_eq_first (t : CommandTree) :
    (t.defect? = none ↔ ∀ c ∈ t.commands, c.IsWellFormed) ∧
    (∀ d, t.defect? = some d ↔ ∃ i, defectAt? [] t i = some d ∧ ∀ j < i, defectAt? [] t j = none) ∧
    ∀ i d, defectAt? [] t i = some d →
      d.path = (if d.concernsName then (t.name :: t.namesTo i).dropLast else t.name :: t.namesTo i) ∧
      ∃ start rest, d.message = start ++ "'".toList ++ TreeDefect.location d.path ++ ("'".toList ++ rest) :=
  ⟨defect?_eq_none_iff t, (isFirst_defectBelow? [] t).eq_some_iff, fun _ d h => ⟨path_of_defectAt? h, d.message_eq⟩⟩

/-- A tree with several defects: one below a subcommand, and two at a later one. -/
def faultyTree : CommandTree :=
  { name := "devx".toList
    subcommands :=
      [{ name := "git".toList
         subcommands := [{ name := "add".toList, options := [.flag "all".toList [], .value "all".toList []] }] },
        { name := "git".toList, arguments := [(ArgumentEntry.ofName "files".toList []).asVariadic, .ofName "to".toList []] }] }

/-- What is below a subcommand is looked at before the later siblings. -/
theorem defect?_eq_first_faultyTree :
    faultyTree.defect? = some (.duplicateOption "all".toList ["devx".toList, "git".toList, "add".toList]) ∧
    (∃ i, defectAt? [] faultyTree i = some (.duplicateOption "all".toList ["devx".toList, "git".toList, "add".toList]) ∧
      ∀ j < i, defectAt? [] faultyTree j = none) ∧
    defectAt? [] faultyTree [1] = some (.duplicateCommand "git".toList ["devx".toList]) ∧
    ∃ start rest, (TreeDefect.duplicateCommand "git".toList ["devx".toList]).message =
      start ++ "'".toList ++ "devx".toList ++ ("'".toList ++ rest) := by
  have hfirst : faultyTree.defect? = some (.duplicateOption "all".toList ["devx".toList, "git".toList, "add".toList]) := by decide
  have hlater : defectAt? [] faultyTree [1] = some (.duplicateCommand "git".toList ["devx".toList]) := by decide
  obtain ⟨-, hiff, hreport⟩ := defect?_eq_first faultyTree
  exact ⟨hfirst, (hiff _).1 hfirst, hlater, (hreport [1] _ hlater).2⟩

end CommandTree

end DevWorkflow
