import DevWorkflow.Proofs.CommandLine.Rendering

/-!
# Words that are passed on

Two commands hand words on to another program: `agent` to the agent, and `git push` to git after the name of a remote. The first
of these words decides. Unless the command takes it for the two dashes or for one of the options that every command has
(`Invocation.IsIntercepted`), it is passed on, and from there on so is every word, whatever it looks like
(`Invocation.parse_passThrough`).
-/

namespace DevWorkflow

/-! ## The shape of a word -/

namespace WordShape

/-- The name before the first equals sign is the given one if the text is that name, or goes on with an equals sign after it. -/
theorem fst_splitValue_eq_iff {name : Text} (h : '=' ∉ name) (t : Text) :
    (splitValue t).1 = name ↔ t = name ∨ name ++ ['='] <+: t := by
  constructor
  · intro hname
    have hparts : t.takeWhile (· ≠ '=') ++ t.dropWhile (· ≠ '=') = t := List.takeWhile_append_dropWhile
    rw [splitValue] at hname
    cases hdrop : t.dropWhile (· ≠ '=') with
    | nil =>
      rw [hdrop] at hname
      exact .inl hname
    | cons c value =>
      have hc : c = '=' := by
        have hhead := List.head?_dropWhile_not (fun c : Char => decide (c ≠ '=')) t
        rw [hdrop] at hhead
        simpa using hhead
      rw [hdrop] at hname hparts
      subst hc hname
      exact .inr ⟨value, by rw [List.append_assoc]; exact hparts⟩
  · rintro (rfl | ⟨value, rfl⟩)
    · rw [splitValue_of_not_mem h]
    · rw [List.append_assoc, List.singleton_append, splitValue_append h]

theorem of_dash_cons {c : Char} (h : c ≠ '-') (rest : Text) : of ('-' :: c :: rest) = short (c :: rest) := by
  unfold of
  split <;> simp_all

/-- A word that does not begin with a dash is no option. -/
theorem of_eq_plain {w : Text} (h : w.head? ≠ some '-') : of w = .plain := by
  cases w with
  | nil => rfl
  | cons c rest =>
    have hc : c ≠ '-' := by simpa using h
    unfold of
    split <;> simp_all

end WordShape

/-! ## An argument that takes all remaining words -/

/-- Whether an argument keeps all remaining words, whatever they look like. -/
structure ArgDeclaration.PassesOn (a : ArgDeclaration) : Prop where
  action : a.effectiveAction = .append
  hyphens : a.allowHyphenValues = true
  rest : a.takesRest = true

namespace Declaration

/-- Whether a command takes a word for the two dashes or for its own options, although a value may look like an option. -/
def intercepts (d : Declaration) (w : Text) : Bool :=
  match WordShape.of w with
  | .dashes => true
  | .long name _ => (d.long? name).isSome
  | .short letters => letters.all fun c => (d.short? c).isSome
  | .plain => false

variable {d : Declaration} {r : Reader} {a : ArgDeclaration} {as : List ArgDeclaration}

theorem readPositional_of_passesOn (ha : a.PassesOn) (has : r.positionals = a :: as) (w : Text) :
    d.readPositional r w = ([⟨a, some w, false⟩], .more { r with onlyPositional := true }) := by
  rw [readPositional, has]
  simp [ha.action, ha.rest]

/-- A word that the command does not intercept is the argument's first word, and after it only positional words follow. -/
theorem readWord_of_not_intercepts (hleaf : d.subcommands = []) (hwait : r.awaiting = none) (honly : r.onlyPositional = false)
    (ha : a.PassesOn) (has : r.positionals = a :: as) {w : Text} (hw : d.intercepts w = false) (later : List Text) :
    d.readWord r w later = ([⟨a, some w, false⟩], .more { r with onlyPositional := true }) := by
  have hallows : r.allowsHyphens = true := by rw [Reader.allowsHyphens, has]; exact ha.hyphens
  rw [readWord_of_no_child hwait honly (child?_of_leaf hleaf w), ← readPositional_of_passesOn (d := d) ha has w]
  rw [intercepts] at hw
  cases hshape : WordShape.of w with
  | dashes =>
    rw [hshape] at hw
    exact absurd hw Bool.noConfusion
  | long name value =>
    have hlong : d.long? name = none := by simpa [hshape] using hw
    simp [readLong, hlong, hallows]
  | short letters =>
    have hletters : (letters.any fun c => (d.short? c).isNone) = true := by simpa [hshape] using hw
    simp only [hallows, hletters, Bool.and_self, if_true]
  | plain => rfl

/-- All words from the first one on are the argument's, unless that one is intercepted. -/
theorem outlineFrom_of_not_intercepts (hleaf : d.subcommands = []) (hwait : r.awaiting = none)
    (honly : r.onlyPositional = false) (ha : a.PassesOn) (has : r.positionals = [a]) {ws : List Text}
    (hws : ∀ w ∈ ws.head?, d.intercepts w = false) : d.outlineFrom r ws = .ends d (Part.ofWords a ws).given := by
  cases ws with
  | nil => rw [outlineFrom, Reader.unanswered, hwait]; rfl
  | cons w ws =>
    have hread := readWord_of_not_intercepts hleaf hwait honly ha has (hws w rfl) ws
    have hrest : d.outlineFrom { r with onlyPositional := true } ws = .ends d (Part.ofWords a ws).given := by
      have hall := outlineFrom_operands (d := d) (OperandsFit.all ws ha.action)
        (r := { r with onlyPositional := true }) hwait rfl has
      simpa using hall
    rw [outlineFrom_cons_more hread, hrest]
    rfl

end Declaration

namespace Command

/-- The words after the path of a command ask for it if they give its parts. -/
theorem parse_path {c : Command} (h : c.IsWritable) {ws : List Text}
    (houtline : c.declaration.outline ws = .ends c.declaration (c.parts.flatMap (·.given))) (program : Text) :
    Invocation.parse (program :: (c.path ++ ws)) = .ok ⟨false, c⟩ := by
  have hleaf : c.declaration.subcommands = [] := (isPlain_declarationAt (path_mem c)).noSubcommands
  have hcheck : (c.declaration.outline ws).check = .ok ⟨[], c.parts.flatMap (·.given), []⟩ := by
    rw [houtline, Outline.check, Part.firstAmong_parts (allowed_parts h) (ids_parts c)]
    simp [hleaf]
  have hline : (Invocation.grammar.outline (c.path ++ ws)).check = .ok (c.given []) := by
    rw [Declaration.check_path (find?_declarationAt (path_mem c)) (not_help_mem (path_mem c)), ← declaration, hcheck,
      Except.map, List.append_nil, given]
  have hcommand : (c.given []).command? = some c := command?_given h []
  have hverbose : (c.given []).hasAnywhere "verbose".toList = false := by
    rw [Given.hasAnywhere, has_given_flag h [] (a := Interface.verboseOption) (b := false) (givenFor_verbose c)]
    rfl
  rw [Invocation.parse, List.tail_cons, Invocation.ofWords, hline]
  simp only [hcommand, hverbose]

end Command

/-! ## The words that are intercepted -/

namespace Declaration

theorem isSome_long?_iff (d : Declaration) (name : Text) : (d.long? name).isSome = true ↔ name ∈ d.args.filterMap (·.long) := by
  rw [long?, List.find?_isSome, List.mem_filterMap]
  simp only [decide_eq_true_eq]

theorem isSome_short?_iff (d : Declaration) (c : Char) : (d.short? c).isSome = true ↔ c ∈ d.args.filterMap (·.short) := by
  rw [short?, List.find?_isSome, List.mem_filterMap]
  simp only [decide_eq_true_eq]

/-- Whether a command has no options but those that every command has, `-v`, `--verbose`, `-h` and `--help`. -/
structure HasCommonOptions (d : Declaration) : Prop where
  longs : d.args.filterMap (·.long) = ["verbose".toList, "help".toList]
  shorts : d.args.filterMap (·.short) = ['v', 'h']

end Declaration

namespace Invocation

/-- Whether a word is the long form of an option, with or without a value behind an equals sign. -/
def HasForm (w name : Text) : Prop := w = "--".toList ++ name ∨ "--".toList ++ name ++ ['='] <+: w

instance (w name : Text) : Decidable (HasForm w name) :=
  inferInstanceAs (Decidable (w = "--".toList ++ name ∨ "--".toList ++ name ++ ['='] <+: w))

/-- Whether a word is a dash and at least one letter, each of which is `v` or `h`. -/
def IsCluster (w : Text) : Prop := w.head? = some '-' ∧ w.tail ≠ [] ∧ ∀ c ∈ w.tail, c = 'v' ∨ c = 'h'

-- Only the letters of the word are looked at, not all characters.
instance (w : Text) : Decidable (IsCluster w) :=
  have : Decidable (∀ c ∈ w.tail, c = 'v' ∨ c = 'h') := List.decidableBAll (fun c => c = 'v' ∨ c = 'h') w.tail
  inferInstanceAs (Decidable (w.head? = some '-' ∧ w.tail ≠ [] ∧ ∀ c ∈ w.tail, c = 'v' ∨ c = 'h'))

/-- Whether a word that comes first is not passed on: the two dashes, or a form of the options that every command has. -/
def IsIntercepted (w : Text) : Prop :=
  w = "--".toList ∨ HasForm w "verbose".toList ∨ HasForm w "help".toList ∨ IsCluster w

instance (w : Text) : Decidable (IsIntercepted w) :=
  inferInstanceAs (Decidable (w = "--".toList ∨ HasForm w "verbose".toList ∨ HasForm w "help".toList ∨ IsCluster w))

theorem hasForm_dashes_iff {name : Text} (h : '=' ∉ name) (t : Text) :
    HasForm ("--".toList ++ t) name ↔ (WordShape.splitValue t).1 = name := by
  rw [WordShape.fst_splitValue_eq_iff h, HasForm, List.append_assoc, List.prefix_append_right_inj, List.append_cancel_left_eq]

theorem not_hasForm {w : Text} (h : ¬"--".toList <+: w) (name : Text) : ¬HasForm w name := by
  rintro (rfl | hprefix)
  · exact h (List.prefix_append _ _)
  · rw [List.append_assoc] at hprefix
    exact h ((List.prefix_append _ _).trans hprefix)

theorem not_isCluster_dashes (t : Text) : ¬IsCluster ("--".toList ++ t) := fun h =>
  absurd (h.2.2 '-' List.mem_cons_self) (by decide)

/-- A command with no other options intercepts just these words. -/
theorem intercepts_iff {d : Declaration} (hd : d.HasCommonOptions) (w : Text) : d.intercepts w = true ↔ IsIntercepted w := by
  by_cases hdashes : "--".toList <+: w
  · obtain ⟨t, rfl⟩ := hdashes
    cases t with
    | nil => exact iff_of_true rfl (.inl rfl)
    | cons c rest =>
      have hne : "--".toList ++ c :: rest ≠ "--".toList := by simp
      rw [Declaration.intercepts, WordShape.of_dashes_append (List.cons_ne_nil c rest), IsIntercepted,
        hasForm_dashes_iff (by decide), hasForm_dashes_iff (by decide)]
      dsimp only
      rw [Declaration.isSome_long?_iff, hd.longs]
      simp only [hne, not_isCluster_dashes, List.mem_cons, List.not_mem_nil, or_false, false_or]
  · have hother : IsIntercepted w ↔ IsCluster w := by
      have hne : w ≠ "--".toList := by rintro rfl; exact hdashes List.prefix_rfl
      rw [IsIntercepted]
      simp only [hne, not_hasForm hdashes, false_or]
    rw [hother, Declaration.intercepts]
    by_cases hhead : w.head? = some '-'
    · obtain ⟨rest, rfl⟩ := List.head?_eq_some_iff.1 hhead
      cases rest with
      | nil => exact iff_of_false Bool.false_ne_true (by decide)
      | cons c rest =>
        have hc : c ≠ '-' := by rintro rfl; exact hdashes ⟨rest, rfl⟩
        rw [WordShape.of_dash_cons hc]
        simp [IsCluster, Declaration.isSome_short?_iff, hd.shorts]
    · rw [WordShape.of_eq_plain hhead]
      exact iff_of_false Bool.false_ne_true fun h => hhead h.1

theorem intercepts_eq_false {d : Declaration} (hd : d.HasCommonOptions) {w : Text} (hw : ¬IsIntercepted w) :
    d.intercepts w = false :=
  Bool.eq_false_iff.2 fun h => hw ((intercepts_iff hd w).1 h)

/-! ## The two commands -/

/-- The argument of `agent`. -/
def agentArgs : ArgDeclaration := Interface.remainder "args".toList "Arguments passed to the agent".toList

/-- The first argument of `git push`. -/
def pushRemote : ArgDeclaration := Interface.argument "remote".toList "Remote to push to".toList false

/-- The second argument of `git push`. -/
def pushArgs : ArgDeclaration := Interface.remainder "args".toList "Extra git push arguments".toList

/-- The declaration of `git push`. -/
def pushDeclaration : Declaration := Command.declarationAt ["git".toList, "push".toList]

theorem hasCommonOptions_agent : (Command.declarationAt ["agent".toList]).HasCommonOptions := ⟨by decide, by decide⟩

theorem hasCommonOptions_push : pushDeclaration.HasCommonOptions := ⟨by decide, by decide⟩

/-- The words after `agent` are its arguments. -/
theorem outline_agent {ws : List Text} (hws : ∀ w ∈ ws.head?, ¬IsIntercepted w) :
    (Command.agent ws).declaration.outline ws =
      .ends (Command.agent ws).declaration ((Command.agent ws).parts.flatMap (·.given)) := by
  have hnot := fun w hw => intercepts_eq_false hasCommonOptions_agent (hws w hw)
  have hwords : (Command.agent ws).declaration.outline ws =
      .ends (Command.agent ws).declaration (Part.ofWords agentArgs ws).given :=
    Declaration.outlineFrom_of_not_intercepts rfl rfl rfl ⟨rfl, rfl, rfl⟩ rfl hnot
  exact hwords.trans (congrArg _ (List.append_nil _).symm)

/-- The words after a remote are the arguments for pushing. -/
theorem outline_push {remote : Text} (hremote : WordShape.of remote = .plain) {ws : List Text}
    (hws : ∀ w ∈ ws.head?, ¬IsIntercepted w) :
    pushDeclaration.outline (remote :: ws) =
      .ends pushDeclaration ((Command.git (.push (some remote) ws)).parts.flatMap (·.given)) := by
  have hread : pushDeclaration.readWord (.start pushDeclaration) remote ws =
      ([⟨pushRemote, some remote, false⟩], .more { positionals := [pushArgs] }) := by
    rw [Declaration.readWord_of_no_child rfl rfl rfl, hremote]
    rfl
  have hnot := fun w hw => intercepts_eq_false hasCommonOptions_push (hws w hw)
  have hrest : pushDeclaration.outlineFrom { positionals := [pushArgs] } ws =
      .ends pushDeclaration (Part.ofWords pushArgs ws).given :=
    Declaration.outlineFrom_of_not_intercepts rfl rfl rfl ⟨rfl, rfl, rfl⟩ rfl hnot
  rw [Declaration.outline, Declaration.outlineFrom_cons_more hread, hrest]
  exact congrArg (fun given => Outline.ends pushDeclaration (⟨pushRemote, some remote, false⟩ :: given)) (List.append_nil _).symm

/-- A remote with words after it, the first of which is not intercepted, is pushed to with these words. -/
theorem parse_remote {remote : Text} (hremote : WordShape.of remote = .plain) {ws : List Text}
    (hws : ∀ w ∈ ws.head?, ¬IsIntercepted w) (program : Text) :
    parse (program :: "git".toList :: "push".toList :: remote :: ws) = .ok ⟨false, .git (.push (some remote) ws)⟩ :=
  Command.parse_path (c := .git (.push (some remote) ws)) (fun h => nomatch h) (outline_push hremote hws) program

/-- The words after `agent`, and those after the remote of `git push`, are passed on one by one, unless the first one is
intercepted. -/
theorem parse_passThrough (program : Text) :
    (∀ ws : List Text, (∀ w ∈ ws.head?, ¬IsIntercepted w) →
      parse (program :: "agent".toList :: ws) = .ok ⟨false, .agent ws⟩) ∧
    ∀ (remote : Text) (ws : List Text), remote.head? ≠ some '-' → (∀ w ∈ ws.head?, ¬IsIntercepted w) →
      parse (program :: "git".toList :: "push".toList :: remote :: ws) = .ok ⟨false, .git (.push (some remote) ws)⟩ := by
  constructor
  · intro ws hws
    exact Command.parse_path (c := .agent ws) trivial (outline_agent hws) program
  · intro remote ws hremote hws
    exact parse_remote (WordShape.of_eq_plain hremote) hws program

/-- Behind a first word that is passed on, even the words that would have been intercepted in its place are. -/
theorem parse_passThrough_lookalikes :
    (¬IsIntercepted "-vx".toList ∧
      parse (["dx", "agent", "-vx", "--", "-v", "--help", "--version", ""].map String.toList) =
        .ok ⟨false, .agent (["-vx", "--", "-v", "--help", "--version", ""].map String.toList)⟩) ∧
    ("upstream".toList.head? ≠ some '-' ∧ ¬IsIntercepted "--force-with-lease".toList ∧
      parse (["dx", "git", "push", "upstream", "--force-with-lease", "--"].map String.toList) =
        .ok ⟨false, .git (.push (some "upstream".toList) (["--force-with-lease", "--"].map String.toList))⟩) :=
  ⟨⟨by decide, (parse_passThrough "dx".toList).1 _ (by decide)⟩,
    ⟨by decide, by decide, (parse_passThrough "dx".toList).2 _ _ (by decide) (by decide)⟩⟩

end Invocation

end DevWorkflow
