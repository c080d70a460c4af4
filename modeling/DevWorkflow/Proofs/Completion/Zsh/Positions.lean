import DevWorkflow.Proofs.Completion.Bash.Lines
import DevWorkflow.Proofs.Completion.Zsh.Specs

/-!
# Positions on the line

How a specification begins says what it is about (`Zsh.subject?`): an option, the word at a position, or all words that no other
one takes. A command without subcommands describes its options first and then its arguments in order; the last specification may be
about the remaining words, either because the last argument takes them or because the command passes unknown options on, and no other
one is. So positions are counted from one without a gap, and none comes after the remaining words (`Zsh.leafSpecs_in_order`).
-/

namespace DevWorkflow

namespace Zsh

/-! ## How a specification begins -/

/-- What a specification is about. -/
inductive Subject where
  /-- An option. -/
  | option
  /-- The word at a position. -/
  | word (position : Nat)
  /-- All words that no other specification takes. -/
  | rest
deriving DecidableEq, Repr

/-- What a specification between quotes is about. A dash begins that of an option and an asterisk that of the remaining words;
any other one has the number of a word in front of its first colon. -/
def subject? : Text → Option Subject
  | '\'' :: '-' :: _ => some .option
  | '\'' :: '*' :: _ => some .rest
  | '\'' :: t => (Bash.number? (t.takeWhile (· ≠ ':'))).map .word
  | _ => none

/-- How the specification of the argument at a position of the command called `parent` begins. -/
def argumentStart (parent : Text) (a : ArgumentEntry) (position : Nat) : Text :=
  if a.variadic = true ∨ a.source parent = .rest then "'*:".toList
  else if a.required then "'".toList ++ Nat.toDigits 10 position ++ ":".toList
  else "'".toList ++ Nat.toDigits 10 position ++ "::".toList

/-- An argument that is completed as the rest of the line takes all remaining words. -/
theorem variadic_of_source_eq_rest {a : ArgumentEntry} {parent : Text} (h : a.source parent = .rest) : a.variadic = true := by
  unfold ArgumentEntry.source at h
  split at h
  · cases h
  split at h
  · cases h
  split at h
  · cases h
  split at h
  · cases h
  split at h
  · assumption
  · cases h

/-- The place of an argument is how its specification begins, behind the quote. -/
theorem argumentStart_eq (parent : Text) (a : ArgumentEntry) (position : Nat) :
    argumentStart parent a position = "'".toList ++ place a position := by
  have hrest : (a.variadic = true ∨ a.source parent = .rest) ↔ a.variadic = true :=
    or_iff_left_of_imp variadic_of_source_eq_rest
  unfold argumentStart place
  simp only [hrest]
  split
  · rfl
  split <;> exact List.append_assoc _ _ _

theorem argumentStart_prefix (parent : Text) (a : ArgumentEntry) (position : Nat) :
    argumentStart parent a position <+: argumentSpec parent a position := by
  rw [argumentStart_eq, argumentSpec, inQuotes]
  simp only [List.append_assoc]
  exact (List.prefix_append_right_inj _).2 (List.prefix_append _ _)

theorem dash_prefix_of_mem_optionSpecs {o : OptionEntry} {spec : Text} (h : spec ∈ optionSpecs o) : "'-".toList <+: spec := by
  obtain ⟨form, hform, marker, -, rfl⟩ := exists_form_of_mem_optionSpecs h
  rcases OptionEntry.of_mem_flagWords hform with rfl | ⟨c, -, rfl⟩
  · exact ⟨_, rfl⟩
  · exact ⟨_, rfl⟩

/-! ## What each specification is about -/

theorem subject?_of_dash {spec : Text} (h : "'-".toList <+: spec) : subject? spec = some .option := by
  obtain ⟨t, rfl⟩ := h
  rfl

/-- The specifications about the remaining words are those that begin with an asterisk. -/
theorem subject?_eq_rest_iff (spec : Text) : subject? spec = some .rest ↔ "'*".toList <+: spec := by
  constructor
  · intro h
    unfold subject? at h
    split at h
    · cases h
    · exact ⟨_, rfl⟩
    · obtain ⟨n, -, hn⟩ := Option.map_eq_some_iff.1 h
      cases hn
    · cases h
  · rintro ⟨t, rfl⟩
    rfl

/-- A number in front of a colon is that of the word. -/
theorem subject?_of_digits {spec : Text} {n : Nat} (h : "'".toList ++ Nat.toDigits 10 n ++ ":".toList <+: spec) :
    subject? spec = some (.word n) := by
  obtain ⟨t, rfl⟩ := h
  have hcolon : (Nat.toDigits 10 n ++ ':' :: t).takeWhile (· ≠ ':') = Nat.toDigits 10 n := by
    have hdigits : ∀ c ∈ Nat.toDigits 10 n, decide (c ≠ ':') = true := fun c hc =>
      decide_eq_true (ne_of_mem_of_not_mem hc (Bash.not_mem_toDigits (by decide) n))
    rw [List.takeWhile_append_of_pos hdigits]
    exact List.append_nil _
  have hspec : "'".toList ++ Nat.toDigits 10 n ++ ":".toList ++ t = '\'' :: (Nat.toDigits 10 n ++ ':' :: t) := by
    simp [List.append_assoc]
  have hdash : '-' ∉ Nat.toDigits 10 n := Bash.not_mem_toDigits (by decide) n
  have hasterisk : '*' ∉ Nat.toDigits 10 n := Bash.not_mem_toDigits (by decide) n
  rw [hspec]
  cases hn : Nat.toDigits 10 n with
  | nil => exact absurd hn Nat.toDigits_ne_nil
  | cons c digits =>
    rw [hn] at hcolon hdash hasterisk
    have hc : c ≠ '-' ∧ c ≠ '*' := ⟨fun h => hdash (h ▸ List.mem_cons_self), fun h => hasterisk (h ▸ List.mem_cons_self)⟩
    rw [List.cons_append] at hcolon ⊢
    unfold subject?
    split
    · simp_all
    · simp_all
    · rename_i hspec
      obtain ⟨-, rfl⟩ := List.cons.inj hspec
      rw [hcolon, ← hn, Bash.number?_toDigits]
      rfl
    · simp_all

/-- A specification of an argument that takes all remaining words is about these, and any other one about the word at its position. -/
theorem subject?_argumentSpec (parent : Text) (a : ArgumentEntry) (position : Nat) :
    subject? (argumentSpec parent a position) = some (if a.variadic then .rest else .word position) := by
  have hstart := argumentStart_prefix parent a position
  rw [argumentStart_eq, place] at hstart
  by_cases hvariadic : a.variadic = true
  · rw [if_pos hvariadic] at hstart ⊢
    have hasterisk : "'*".toList <+: "'".toList ++ "*:".toList := by decide
    exact (subject?_eq_rest_iff _).2 (hasterisk.trans hstart)
  · rw [if_neg hvariadic] at hstart ⊢
    refine subject?_of_digits (List.IsPrefix.trans ?_ hstart)
    rw [List.append_assoc, List.prefix_append_right_inj]
    split
    · exact List.prefix_rfl
    · exact (List.prefix_append_right_inj _).2 (by decide)

/-! ## All specifications of a command -/

/-- The arguments are described in order, each at its own position. -/
theorem argumentSpecsFrom_eq (parent : Text) (position : Nat) (arguments : List ArgumentEntry) :
    argumentSpecsFrom parent position arguments = (arguments.zipIdx position).map fun x => argumentSpec parent x.1 x.2 := by
  induction arguments generalizing position with
  | nil => rfl
  | cons a rest ih => rw [argumentSpecsFrom, ih, List.zipIdx_cons, List.map_cons]

/-- Whether the last argument takes all remaining words. -/
def EndsVariadic (arguments : List ArgumentEntry) : Prop := ∃ a ∈ arguments.getLast?, a.variadic = true

instance (arguments : List ArgumentEntry) : Decidable (EndsVariadic arguments) :=
  decidable_of_iff (arguments.getLast?.any (·.variadic) = true) (by cases h : arguments.getLast? <;> simp [EndsVariadic, h])

/-- How many arguments take one word each. -/
def wordCount (arguments : List ArgumentEntry) : Nat := arguments.countP fun a => !a.variadic

/-- Where only the last argument may take all remaining words, the arguments are described at one position after another and then,
if it does, with the remaining words. -/
theorem map_subject?_argumentSpecsFrom (parent : Text) (position : Nat) {arguments : List ArgumentEntry}
    (h : ∀ a ∈ arguments.dropLast, a.variadic = false) :
    (argumentSpecsFrom parent position arguments).map subject? =
      (List.range' position (wordCount arguments)).map (fun n => some (.word n))
        ++ if EndsVariadic arguments then [some .rest] else [] := by
  induction arguments generalizing position with
  | nil => simp [argumentSpecsFrom, wordCount, EndsVariadic]
  | cons a rest ih =>
    rw [argumentSpecsFrom, List.map_cons, subject?_argumentSpec]
    cases rest with
    | nil =>
      -- The last argument takes one word or all that remain.
      cases ha : a.variadic <;> simp [argumentSpecsFrom, wordCount, EndsVariadic, ha]
    | cons b rest =>
      rw [List.dropLast_cons_cons, List.forall_mem_cons] at h
      have hends : EndsVariadic (a :: b :: rest) ↔ EndsVariadic (b :: rest) := by
        unfold EndsVariadic
        rw [List.getLast?_cons_cons]
      have hcount : wordCount (a :: b :: rest) = wordCount (b :: rest) + 1 := by
        unfold wordCount
        rw [List.countP_cons_of_pos (by simp [h.1])]
      simp only [h.1, Bool.false_eq_true, if_false, ih (position + 1) h.2, hends, hcount, List.range'_succ, List.map_cons,
        List.cons_append]

/-- Where only the last argument may take all remaining words, some argument does just if the last one does. -/
theorem any_variadic_iff {arguments : List ArgumentEntry} (h : ∀ a ∈ arguments.dropLast, a.variadic = false) :
    arguments.any (·.variadic) = true ↔ EndsVariadic arguments := by
  rw [List.any_eq_true]
  constructor
  · rintro ⟨a, ha, hvariadic⟩
    rcases List.eq_nil_or_concat arguments with rfl | ⟨front, last, rfl⟩
    · cases ha
    · rw [List.concat_eq_append] at h ha ⊢
      rw [List.dropLast_concat] at h
      rcases List.mem_append.1 ha with ha | ha
      · rw [h a ha] at hvariadic
        cases hvariadic
      · obtain rfl := List.mem_singleton.1 ha
        exact ⟨a, by simp, hvariadic⟩
  · rintro ⟨a, ha, hvariadic⟩
    exact ⟨a, List.mem_of_getLast? ha, hvariadic⟩

/-- Whether a command takes all remaining words, by its last argument or because it passes unknown options on. -/
def TakesRest (t : CommandTree) : Prop := EndsVariadic t.arguments ∨ t.allowUnknownOption = true

instance (t : CommandTree) : Decidable (TakesRest t) := inferInstanceAs (Decidable (_ ∨ _))

/-- A well-formed command without subcommands describes its options, then one position after another, and then, if it takes them, the
remaining words. -/
theorem map_subject?_leafSpecs {t : CommandTree} (h : t.IsWellFormed) :
    (leafSpecs t).map subject? =
      List.replicate (t.options.flatMap optionSpecs).length (some .option)
        ++ (List.range' 1 (wordCount t.arguments)).map (fun n => some (.word n))
        ++ if TakesRest t then [some .rest] else [] := by
  have hoptions : (t.options.flatMap optionSpecs).map subject? =
      List.replicate (t.options.flatMap optionSpecs).length (some .option) := by
    rw [List.map_eq_replicate_iff]
    intro spec hspec
    obtain ⟨o, -, hspec⟩ := List.mem_flatMap.1 hspec
    exact subject?_of_dash (dash_prefix_of_mem_optionSpecs hspec)
  have hany := any_variadic_iff h.onlyLast
  unfold leafSpecs TakesRest
  rw [List.map_append, List.map_append, hoptions, map_subject?_argumentSpecsFrom t.name 1 h.onlyLast]
  simp only [List.append_assoc]
  refine congrArg _ (congrArg _ ?_)
  by_cases hends : EndsVariadic t.arguments
  · simp [hends, hany.2 hends]
  · have hnone : t.arguments.any (·.variadic) = false := Bool.eq_false_iff.2 (mt hany.1 hends)
    by_cases hallow : t.allowUnknownOption = true
    · simp only [hends, hnone, hallow]
      rfl
    · simp [hends, hallow]

/-- The options and the positions leave the remaining words out. -/
theorem rest_not_mem_front (t : CommandTree) :
    some Subject.rest ∉ List.replicate (t.options.flatMap optionSpecs).length (some Subject.option)
      ++ (List.range' 1 (wordCount t.arguments)).map (fun n => some (Subject.word n)) := by
  simp

/-- A specification that begins with an asterisk is the last one. -/
theorem not_asterisk_of_mem_dropLast {t : CommandTree} (h : t.IsWellFormed) :
    ∀ spec ∈ (leafSpecs t).dropLast, ¬"'*".toList <+: spec := by
  intro spec hspec hasterisk
  have hrest : some Subject.rest ∈ ((leafSpecs t).map subject?).dropLast := by
    rw [← List.map_dropLast]
    exact List.mem_map.2 ⟨spec, hspec, (subject?_eq_rest_iff spec).2 hasterisk⟩
  rw [map_subject?_leafSpecs h] at hrest
  split at hrest
  · rw [List.dropLast_concat] at hrest
    exact rest_not_mem_front t hrest
  · rw [List.append_nil] at hrest
    exact rest_not_mem_front t (List.dropLast_subset _ hrest)

/-- A specification begins with an asterisk just if the command takes the remaining words. -/
theorem exists_asterisk_iff {t : CommandTree} (h : t.IsWellFormed) :
    (∃ spec ∈ leafSpecs t, "'*".toList <+: spec) ↔ TakesRest t := by
  have hrest : (∃ spec ∈ leafSpecs t, "'*".toList <+: spec) ↔ some Subject.rest ∈ (leafSpecs t).map subject? := by
    simp only [List.mem_map, subject?_eq_rest_iff]
  rw [hrest, map_subject?_leafSpecs h, List.mem_append, or_iff_right (rest_not_mem_front t)]
  split <;> simp [*]

/-- The function of a command without subcommands in a valid tree gives `_arguments` the specifications of the options, each of which
begins with a dash, and then one for each argument in order. The one of the argument at a position begins with the position and a colon
if the argument must be given, with two colons if it may be left out, and with an asterisk if it takes all remaining words. One with an
asterisk is the last of all if there is one, and there is one just if the last argument takes the remaining words or the command passes
unknown options on. So the options come first, then the positions from one on without a gap, and then the remaining words, if these are
taken. -/
theorem leafSpecs_in_order {t : CommandTree} (hvalid : t.defect? = none) {x : Place} (hx : x ∈ t.topDown [])
    (hleaf : x.tree.isLeaf = true) :
    (functionOf x.path x.tree ∈ functionsAt [] t ∧ (functionOf x.path x.tree).body = .leaf (leafSpecs x.tree)) ∧
    (∃ arguments ending,
      leafSpecs x.tree = x.tree.options.flatMap optionSpecs ++ arguments ++ ending ∧
      (∀ spec ∈ x.tree.options.flatMap optionSpecs, "'-".toList <+: spec) ∧
      List.Forall₂ (fun a spec => argumentStart x.tree.name a.1 a.2 <+: spec) (x.tree.arguments.zipIdx 1) arguments ∧
      ending = if x.tree.allowUnknownOption = true ∧ ¬EndsVariadic x.tree.arguments then [restSpec] else []) ∧
    (∀ spec ∈ (leafSpecs x.tree).dropLast, ¬"'*".toList <+: spec) ∧
    ((∃ spec ∈ leafSpecs x.tree, "'*".toList <+: spec) ↔
      EndsVariadic x.tree.arguments ∨ x.tree.allowUnknownOption = true) ∧
    (leafSpecs x.tree).map subject? =
      List.replicate (x.tree.options.flatMap optionSpecs).length (some .option)
        ++ (List.range' 1 (wordCount x.tree.arguments)).map (fun n => some (.word n))
        ++ if EndsVariadic x.tree.arguments ∨ x.tree.allowUnknownOption = true then [some .rest] else [] := by
  have hwell : x.tree.IsWellFormed :=
    (CommandTree.defect?_eq_none_iff t).1 hvalid x.tree (CommandTree.mem_commands_of_mem_topDown hx)
  have hfunction : functionOf x.path x.tree ∈ functionsAt [] t := by
    rw [functionsAt_eq]
    exact List.mem_map_of_mem ((CommandTree.bottomUp_perm_topDown [] t).mem_iff.2 hx)
  refine ⟨⟨hfunction, by simp only [functionOf, hleaf, if_true]⟩, ?_, not_asterisk_of_mem_dropLast hwell,
    exists_asterisk_iff hwell, map_subject?_leafSpecs hwell⟩
  refine ⟨argumentSpecsFrom x.tree.name 1 x.tree.arguments, _, ?_, ?_, ?_, rfl⟩
  · unfold leafSpecs
    simp only [← any_variadic_iff hwell.onlyLast, Bool.and_eq_true, Bool.not_eq_true', Bool.not_eq_true]
  · intro spec hspec
    obtain ⟨o, -, hspec⟩ := List.mem_flatMap.1 hspec
    exact dash_prefix_of_mem_optionSpecs hspec
  · rw [argumentSpecsFrom_eq, List.forall₂_map_right_iff, List.forall₂_same]
    intro a _
    exact argumentStart_prefix x.tree.name a.1 a.2

/-- A command that passes unknown options on, with an option, a mandatory argument, an optional one and one for all remaining words. -/
def launchCommand : CommandTree :=
  ((((CommandTree.ofName "launch".toList []).addOption ((OptionEntry.flag "dry".toList []).withShort 'd')).addArgument
    (ArgumentEntry.ofName "branch".toList []).asRequired).addArgument (ArgumentEntry.ofName "path".toList [])).addArgument
      (ArgumentEntry.ofName "remote".toList []).asVariadic |>.passingUnknownOptions

/-- A tree with this command. -/
def launchTree : CommandTree := (CommandTree.ofName "devx".toList []).addSubcommand launchCommand

/-- Its specifications are about the option twice, then about the words one and two, and then about the remaining words once. -/
theorem leafSpecs_in_order_launchTree :
    launchTree.defect? = none ∧ ⟨["launch".toList], launchCommand⟩ ∈ launchTree.topDown [] ∧ launchCommand.isLeaf = true ∧
    leafSpecs launchCommand =
      ["'-d[]'", "'--dry[]'", "'1:branch:__devx_branches'", "'2::path:_default'", "'*:remote:__devx_remotes'"].map String.toList ∧
    (leafSpecs launchCommand).map subject? =
      [some .option, some .option, some (.word 1), some (.word 2), some .rest] := by
  have hvalid : launchTree.defect? = none := by decide
  have hplace : ⟨["launch".toList], launchCommand⟩ ∈ launchTree.topDown [] := by
    rw [CommandTree.topDown_eq]
    exact List.mem_cons_of_mem _ List.mem_cons_self
  obtain ⟨-, -, -, -, hmap⟩ := leafSpecs_in_order hvalid hplace rfl
  exact ⟨hvalid, hplace, rfl, by decide, hmap⟩

end Zsh

end DevWorkflow
