import DevWorkflow.Proofs.CommandLine.Operands
import DevWorkflow.Proofs.CommandLine.PassThrough
import DevWorkflow.Run.Command

/-!
# Pushing without a remote

The remote of `git push` may be left out, but then no arguments for git can be given: the first word is the remote, and one that
looks like an option cannot be. It is refused before anything is done, and `Invocation.remoteRefusal?` says with which error
(`Invocation.push_without_remote`).
-/

namespace DevWorkflow

/-! ## What is wrong with a line -/

namespace UsageError

/-- After arguments in which nothing is wrong, the first error is the first one among those that follow. -/
theorem firstAmong_append {front before : List Occurrence} (h : firstAmong front none before = none)
    (stop : Option UsageError) (given : List Occurrence) :
    firstAmong front stop (before ++ given) = firstAmong (front ++ before) stop given := by
  induction before generalizing front with
  | nil => rw [List.nil_append, List.append_nil]
  | cons o rest ih =>
    rw [firstAmong_none_cons, Option.or_eq_none_iff] at h
    rw [List.cons_append, firstAmong, h.1]
    dsimp only
    rw [ih h.2, List.append_assoc, List.singleton_append]

end UsageError

namespace Outline

/-- An option with which something is wrong, after arguments in which nothing is, is what is wrong with the line. -/
theorem check_give_of_error (before : List Occurrence) {o : Occurrence} {e : UsageError}
    (hbefore : UsageError.firstAmong [] none before = none) (ho : o.error? before = some e) (hattached : o.attached = true)
    (outline : Outline) : (outline.give (before ++ [o])).check = .error e := by
  have hfirst : ∀ stop given, UsageError.firstAmong [] stop (before ++ [o] ++ given) = some e := by
    intro stop given
    rw [List.append_assoc, UsageError.firstAmong_append hbefore, List.nil_append, List.singleton_append,
      UsageError.firstAmong, ho]
    simp [Occurrence.isDeferred, hattached]
  cases outline with
  | ends c given => simp only [give, check, hfirst]
  | stops c given e => simp only [give, check, hfirst]; rfl
  | enters c given below => simp only [give, check, hfirst]

end Outline

namespace Declaration

/-- The outline after a word, by what is given in the word and what follows it. -/
def outlineAfter (d : Declaration) (step : List Occurrence × Continuation) (ws : List Text) : Outline :=
  match step.2 with
  | .more r => (d.outlineFrom r ws).give step.1
  | .enter c => .enters d step.1 (c.outline ws)
  | .stop e => .stops d step.1 e

theorem outlineFrom_cons (d : Declaration) (r : Reader) (w : Text) (ws : List Text) :
    d.outlineFrom r (w :: ws) = d.outlineAfter (d.readWord r w ws) ws := by
  rw [outlineFrom, outlineAfter]
  rcases d.readWord r w ws with ⟨given, _ | _ | _⟩ <;> rfl

/-- Arguments given first in a word stand in front of the outline. -/
theorem outlineAfter_append (d : Declaration) (before given : List Occurrence) (next : Continuation) (ws : List Text) :
    d.outlineAfter (before ++ given, next) ws = (d.outlineAfter (given, next) ws).give before := by
  cases next with
  | more r => exact (Outline.give_give before given _).symm
  | enter c => rfl
  | stop e => rfl

/-- A letter that is a flag, before other letters. -/
theorem readLetters_flag {d : Declaration} {c : Char} {a : ArgDeclaration} (hc : d.short? c = some a)
    (ha : a.takesValues = false) (r : Reader) (rest : Text) :
    d.readLetters r (c :: rest) = ([⟨a, none, true⟩] ++ (d.readLetters r rest).1, (d.readLetters r rest).2) := by
  simp only [readLetters, hc, ha]
  rfl

end Declaration

/-! ## A word in the place of the remote -/

namespace Invocation

/-- What is wrong with letters after a dash where only `v` and `h` are options: the first letter that cannot stand there says it. -/
def letterRefusal? : Text → Option UsageError
  | 'h' :: _ | 'v' :: 'h' :: _ => some .displayHelp
  | 'v' :: 'v' :: _ => some .conflict
  | [] | ['v'] => none
  | _ => some .unknownArgument

/-- What is wrong with a word that looks like an option where the remote is read. -/
def remoteRefusal? (w : Text) : Option UsageError :=
  match WordShape.of w with
  | .long name value =>
    if name = "verbose".toList then value.map fun _ => .tooManyValues
    else if name = "help".toList then some (if value.isSome then .tooManyValues else .displayHelp)
    else some .unknownArgument
  | .short letters => letterRefusal? letters
  | _ => none

theorem short?_push_eq_none {c : Char} (hv : c ≠ 'v') (hh : c ≠ 'h') : pushDeclaration.short? c = none := by
  rw [← Option.not_isSome_iff_eq_none, Declaration.isSome_short?_iff, hasCommonOptions_push.shorts]
  simp [hv, hh]

theorem long?_push_eq_none {name : Text} (hv : name ≠ "verbose".toList) (hh : name ≠ "help".toList) :
    pushDeclaration.long? name = none := by
  rw [← Option.not_isSome_iff_eq_none, Declaration.isSome_long?_iff, hasCommonOptions_push.longs]
  simp only [List.mem_cons, hv, hh, List.not_mem_nil, or_self, not_false_eq_true]

/-- Letters that are refused make the line one that is. -/
theorem check_readLetters (r : Reader) {letters : Text} {e : UsageError} (h : letterRefusal? letters = some e) (ws : List Text) :
    (pushDeclaration.outlineAfter (pushDeclaration.readLetters r letters) ws).check = .error e := by
  have hv := Declaration.readLetters_flag (d := pushDeclaration) (c := 'v') (a := Interface.verboseOption) rfl rfl r
  have hh := Declaration.readLetters_flag (d := pushDeclaration) (c := 'h') (a := .helpOption) rfl rfl r
  have hother : ∀ c rest, c ≠ 'v' → c ≠ 'h' →
      pushDeclaration.readLetters r (c :: rest) = ([], .stop .unknownArgument) := by
    intro c rest hcv hch
    rw [Declaration.readLetters, short?_push_eq_none hcv hch]
  unfold letterRefusal? at h
  split at h
  · obtain rfl := Option.some.inj h
    rw [hh, Declaration.outlineAfter_append]
    exact Outline.check_give_of_error [] rfl rfl rfl _
  · obtain rfl := Option.some.inj h
    rw [hv, hh, ← List.append_assoc, Declaration.outlineAfter_append]
    exact Outline.check_give_of_error [⟨Interface.verboseOption, none, true⟩] rfl rfl rfl _
  · obtain rfl := Option.some.inj h
    rw [hv, hv, ← List.append_assoc, Declaration.outlineAfter_append]
    exact Outline.check_give_of_error [⟨Interface.verboseOption, none, true⟩] rfl rfl rfl _
  · cases h
  · cases h
  · rename_i hnh hnvh hnvv hnil hnv
    obtain rfl := Option.some.inj h
    rcases letters with _ | ⟨c, letters⟩
    · exact absurd rfl hnil
    · by_cases hc : c = 'v'
      · subst hc
        rcases letters with _ | ⟨c, letters⟩
        · exact absurd rfl hnv
        · rw [hv, hother c letters (fun h => hnvv letters (h ▸ rfl)) (fun h => hnvh letters (h ▸ rfl))]
          rfl
      · rw [hother c letters hc (fun h => hnh letters (h ▸ rfl))]
        rfl

/-- A word that is refused makes the line one that is, whatever comes after it. -/
theorem check_of_remoteRefusal {w : Text} {e : UsageError} (h : remoteRefusal? w = some e) (ws : List Text) :
    (pushDeclaration.outline (w :: ws)).check = .error e := by
  rw [Declaration.outline, Declaration.outlineFrom_cons, Declaration.readWord_of_no_child rfl rfl rfl]
  unfold remoteRefusal? at h
  split at h
  · rename_i name value hshape
    rw [hshape]
    by_cases hv : name = "verbose".toList
    · subst hv
      obtain ⟨v, rfl, rfl⟩ := Option.map_eq_some_iff.1 h
      rfl
    · rw [if_neg hv] at h
      by_cases hh : name = "help".toList
      · subst hh
        obtain rfl := Option.some.inj h
        cases value with
        | none => exact Outline.check_give_of_error [] rfl rfl rfl _
        | some v => rfl
      · rw [if_neg hh] at h
        obtain rfl := Option.some.inj h
        dsimp only
        rw [Declaration.readLong, long?_push_eq_none hv hh]
        rfl
  · rename_i letters hshape
    rw [hshape]
    exact check_readLetters _ h ws
  · cases h

theorem exists_letterRefusal? {letters : Text} (hnil : letters ≠ []) (hv : letters ≠ ['v']) :
    ∃ e, letterRefusal? letters = some e := by
  unfold letterRefusal?
  split
  all_goals first | exact ⟨_, rfl⟩ | contradiction

/-- A word that begins with a dash is refused, unless it is the dash, the two dashes or the option for debug messages. -/
theorem exists_remoteRefusal? {w : Text} (hhead : w.head? = some '-')
    (hw : w ∉ (["-", "--", "-v", "--verbose"].map String.toList)) : ∃ e, remoteRefusal? w = some e := by
  obtain ⟨rest, rfl⟩ := List.head?_eq_some_iff.1 hhead
  rcases rest with _ | ⟨c, rest⟩
  · exact absurd (by decide) hw
  · by_cases hc : c = '-'
    · subst hc
      have hrest : rest ≠ [] := by rintro rfl; exact hw (by decide)
      have hverbose : rest ≠ "verbose".toList := by rintro rfl; exact hw (by decide)
      rw [remoteRefusal?, show '-' :: '-' :: rest = "--".toList ++ rest from rfl, WordShape.of_dashes_append hrest]
      dsimp only
      by_cases hname : (WordShape.splitValue rest).1 = "verbose".toList
      · rw [if_pos hname]
        rcases (WordShape.fst_splitValue_eq_iff (by decide) rest).1 hname with h | ⟨v, rfl⟩
        · exact absurd h hverbose
        · exact ⟨_, rfl⟩
      · rw [if_neg hname]
        split <;> exact ⟨_, rfl⟩
    · have hv : c :: rest ≠ ['v'] := by
        intro h
        obtain ⟨rfl, rfl⟩ := List.cons.inj h
        exact hw (by decide)
      rw [remoteRefusal?, WordShape.of_dash_cons hc]
      exact exists_letterRefusal? (List.cons_ne_nil c rest) hv

/-! ## Lines that are read -/

/-- The words of `git push` are read on their own. -/
theorem check_push (ws : List Text) :
    (grammar.outline ("git".toList :: "push".toList :: ws)).check =
      (pushDeclaration.outline ws).check.map fun g => { g with path := "git".toList :: "push".toList :: g.path } := by
  have hpath : ["git".toList, "push".toList] ∈ Command.paths := List.mem_of_elem_eq_true rfl
  exact Declaration.check_path (Command.find?_declarationAt hpath) (Command.not_help_mem hpath) ws

theorem parse_of_remoteRefusal {w : Text} {e : UsageError} (h : remoteRefusal? w = some e) (program : Text) (ws : List Text) :
    parse (program :: "git".toList :: "push".toList :: w :: ws) = .error e := by
  rw [parse, List.tail_cons, ofWords, check_push, check_of_remoteRefusal h]
  rfl

/-- Among options only there are no arguments for git, and before the first of them comes a remote. -/
theorem values_args_of_comesFirst {g : Given} (h : pushDeclaration.ComesFirst pushRemote g.last)
    (hremote : g.value? "remote".toList = none) : g.values "args".toList = [] := by
  have hoptions : ∀ a ∈ pushDeclaration.options, a.id ≠ "remote".toList ∧ a.id ≠ "args".toList := by decide
  rcases h with h | ⟨before, w, after, hlast, hbefore⟩
  · have hnone : g.last.filter (fun o => o.arg.id = "args".toList) = [] := by
      rw [List.filter_eq_nil_iff]
      intro o ho
      exact mt of_decide_eq_true (hoptions o.arg (h o ho)).2
    rw [Given.values, hnone]
    rfl
  · have hfind : g.last.find? (fun o => o.arg.id = "remote".toList) = some ⟨pushRemote, some w, false⟩ := by
      have hnone : before.find? (fun o => o.arg.id = "remote".toList) = none := by
        rw [List.find?_eq_none]
        intro o ho
        exact mt of_decide_eq_true (hoptions o.arg (hbefore o ho)).1
      rw [hlast, List.find?_append, hnone]
      rfl
    rw [Given.value?, hfind] at hremote
    cases hremote

/-- A line that pushes without a remote has no arguments for git. -/
theorem command_of_parse_push {program : Text} {ws : List Text} {i : Invocation}
    (h : parse (program :: "git".toList :: "push".toList :: ws) = .ok i) :
    ∃ remote args, i.command = .git (.push remote args) ∧ (remote = none → args = []) := by
  rw [parse, List.tail_cons, ofWords, check_push] at h
  cases hcheck : (pushDeclaration.outline ws).check with
  | error e =>
    rw [hcheck] at h
    cases h
  | ok g =>
    obtain ⟨path, last, above⟩ := g
    obtain ⟨rfl, hfirst⟩ := Declaration.comesFirst_of_check (a := pushRemote) rfl rfl hcheck
    rw [hcheck] at h
    obtain rfl := Except.ok.inj h
    exact ⟨_, _, rfl, values_args_of_comesFirst hfirst⟩

/-- A word after `git push` that looks like an option and is none is refused, and nothing is done; the single dash is the remote.
So whenever a line with `git push` is read, there are arguments for git only behind a remote. -/
theorem push_without_remote (program : Text) :
    (∀ (w : Text) (ws : List Text), w.head? = some '-' → w ∉ (["-", "--", "-v", "--verbose"].map String.toList) →
      ∃ e, remoteRefusal? w = some e ∧ parse (program :: "git".toList :: "push".toList :: w :: ws) = .error e ∧
        ∀ (s : Session) (world : World),
          Run.run s (program :: "git".toList :: "push".toList :: w :: ws) world = (.usage e, world)) ∧
    (∀ ws : List Text, (∀ w ∈ ws.head?, ¬IsIntercepted w) →
      parse (program :: "git".toList :: "push".toList :: "-".toList :: ws) = .ok ⟨false, .git (.push (some "-".toList) ws)⟩) ∧
    ∀ (ws : List Text) (i : Invocation), parse (program :: "git".toList :: "push".toList :: ws) = .ok i →
      ∃ remote args, i.command = .git (.push remote args) ∧ (remote = none → args = []) := by
  refine ⟨?_, fun ws hws => parse_remote rfl hws program, fun ws i h => command_of_parse_push h⟩
  intro w ws hhead hw
  obtain ⟨e, he⟩ := exists_remoteRefusal? hhead hw
  have hparse := parse_of_remoteRefusal he program ws
  refine ⟨e, he, hparse, ?_⟩
  intro s world
  rw [Run.run, hparse]

/-- `-u origin` is refused as an option that there is not, a single dash is pushed to, and without words nothing is passed on. -/
theorem push_without_remote_upstream :
    ("-u".toList.head? = some '-' ∧ "-u".toList ∉ (["-", "--", "-v", "--verbose"].map String.toList) ∧
      parse (["dx", "git", "push", "-u", "origin"].map String.toList) = .error .unknownArgument ∧
      ∀ (s : Session) (world : World),
        Run.run s (["dx", "git", "push", "-u", "origin"].map String.toList) world = (.usage .unknownArgument, world)) ∧
    (¬IsIntercepted "--force".toList ∧ parse (["dx", "git", "push", "-", "--force"].map String.toList) =
      .ok ⟨false, .git (.push (some "-".toList) ["--force".toList])⟩) ∧
    (parse (["dx", "git", "push"].map String.toList) = .ok ⟨false, .git (.push none [])⟩ ∧
      ∃ remote args, Command.git (.push none []) = .git (.push remote args) ∧ (remote = none → args = [])) := by
  obtain ⟨hrefused, hdash, hread⟩ := push_without_remote "dx".toList
  refine ⟨⟨by decide, by decide, ?_⟩, ⟨by decide, hdash _ (by decide)⟩, rfl, hread [] ⟨false, .git (.push none [])⟩ rfl⟩
  obtain ⟨e, he, hparse, hrun⟩ := hrefused "-u".toList ["origin".toList] (by decide) (by decide)
  obtain rfl := Option.some.inj he
  exact ⟨hparse, hrun⟩

/-- Not every word that looks like an option but is none of the program's own is passed on to git without a remote. -/
theorem not_push_forceWithLease :
    ¬∀ (w : Text) (ws : List Text), w.head? = some '-' →
      w ∉ (["--", "-v", "--verbose", "-h", "--help"].map String.toList) →
      ∃ i, parse (programName :: "git".toList :: "push".toList :: w :: ws) = .ok i ∧ i.command = .git (.push none (w :: ws)) := by
  intro h
  have hparse : parse (["devx", "git", "push", "--force-with-lease"].map String.toList) = .error .unknownArgument := rfl
  obtain ⟨i, hi, -⟩ := h "--force-with-lease".toList [] (by decide) (by decide)
  exact nomatch hparse.symm.trans hi

end Invocation

end DevWorkflow
