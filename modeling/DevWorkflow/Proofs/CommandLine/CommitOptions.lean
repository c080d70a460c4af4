import DevWorkflow.Proofs.CommandLine.Rendering
import DevWorkflow.Proofs.CommandLine.Spellings

/-!
# The options of a commit

The options of `git commit` may come in any order and in any spelling. What is read of them is said without their order: which
options there are and which values they have (`CommitOption.AsksFor`). So a line with the options in another order is read as the same
or not at all, and the option for debug messages may as well stand further up (`Invocation.parse_commitOptions`).
-/

namespace DevWorkflow

theorem CommitType.ofName?_eq_some_iff {v : Text} {t : CommitType} : ofName? v = some t ↔ t.name = v := by
  constructor
  · intro h
    simpa using List.find?_some h
  · rintro rfl
    exact ofName?_name t

/-! ## The options -/

/-- An option of a commit with a value. -/
inductive CommitField where
  | type
  | scope
  | message
deriving DecidableEq, Repr

/-- An option of a commit. -/
inductive CommitOptionKind where
  | value (field : CommitField)
  | breaking
  | all
  | verbose
deriving DecidableEq, Repr

/-- An option of a commit as it is written, with its value if it has one. -/
inductive CommitOption where
  | value (field : CommitField) (spelling : ValueSpelling) (value : Text)
  | breaking
  | all (spelling : FlagSpelling)
  | verbose (spelling : FlagSpelling)
deriving DecidableEq, Repr

namespace CommitField

/-- The argument of an option with a value. -/
def arg : CommitField → ArgDeclaration
  | type =>
    { Interface.option "type".toList "Commit type".toList with
      short := some 't', values := some (Interface.choiceOf commitTypes) }
  | scope => { Interface.option "scope".toList "Commit scope".toList with short := some 's' }
  | message => { Interface.option "message".toList "Commit summary".toList with short := some 'm', required := true }

/-- The name of the option. -/
def name : CommitField → Text
  | type => "type".toList
  | scope => "scope".toList
  | message => "message".toList

/-- The letter of the option. -/
def letter : CommitField → Char
  | type => 't'
  | scope => 's'
  | message => 'm'

end CommitField

namespace CommitOptionKind

/-- Every option of a commit. -/
def list : List CommitOptionKind := [value .type, value .scope, value .message, breaking, all, verbose]

/-- The name of an option. -/
def name : CommitOptionKind → Text
  | value field => field.name
  | breaking => "breaking".toList
  | all => "all".toList
  | verbose => "verbose".toList

theorem mem_list (k : CommitOptionKind) : k ∈ list := by
  cases k with
  | value field => cases field <;> decide
  | _ => decide

theorem name_injective : Function.Injective name := by
  intro k k' h
  have hnames : (list.map name).Nodup := by decide
  exact List.inj_on_of_nodup_map hnames (mem_list k) (mem_list k') h

end CommitOptionKind

namespace CommitOption

/-- The words of an option. -/
def words : CommitOption → List Text
  | value field spelling v => spelling.words field.letter field.name v
  | breaking => ["--breaking".toList]
  | all spelling => [spelling.word 'a' "all".toList]
  | verbose spelling => [spelling.word 'v' "verbose".toList]

/-- The words after `git` that ask for a commit with the given options. -/
def line (options : List CommitOption) : List Text := "commit".toList :: options.flatMap words

/-- Whether an option can be written like that. -/
def Fits : CommitOption → Prop
  | value _ spelling v => spelling.Fits v
  | breaking | all _ | verbose _ => True

instance : (x : CommitOption) → Decidable x.Fits
  | value _ spelling v => inferInstanceAs (Decidable (spelling.Fits v))
  | breaking | all _ | verbose _ => inferInstanceAs (Decidable True)

/-- Which option it is, in whatever spelling it is written. -/
def kind : CommitOption → CommitOptionKind
  | value field _ _ => .value field
  | breaking => .breaking
  | all _ => .all
  | verbose _ => .verbose

/-- The argument that has changes staged first. -/
def allArg : ArgDeclaration :=
  { Interface.flag "all".toList "all".toList "Stage tracked changes first".toList with short := some 'a' }

/-- The argument that an option makes on the line. -/
def occurrence : CommitOption → Occurrence
  | value field spelling v => ⟨field.arg, some (spelling.read v), spelling.isAttached⟩
  | breaking => ⟨Interface.flag "breaking".toList "breaking".toList "Mark as a breaking change".toList, none, true⟩
  | all _ => ⟨allArg, none, true⟩
  | verbose _ => ⟨Interface.verboseOption, none, true⟩

end CommitOption

/-- The declaration of `git commit`. -/
def commitDeclaration : Declaration := Command.declarationAt ["git".toList, "commit".toList]

/-! ## Reading the words -/

namespace CommitField

theorem spells_arg (field : CommitField) : commitDeclaration.Spells field.letter field.arg := by
  cases field with
  | type => exact ⟨⟨rfl, by decide, by decide⟩, rfl, by decide⟩
  | scope => exact ⟨⟨rfl, by decide, by decide⟩, rfl, by decide⟩
  | message => exact ⟨⟨rfl, by decide, by decide⟩, rfl, by decide⟩

end CommitField

namespace CommitOption

theorem outlineFrom_words {x : CommitOption} (hx : x.Fits) (ws : List Text) :
    commitDeclaration.outlineFrom (.start commitDeclaration) (x.words ++ ws) =
      (commitDeclaration.outlineFrom (.start commitDeclaration) ws).give [x.occurrence] := by
  cases x with
  | value field spelling v =>
    have hname : field.arg.longName = field.name := by cases field <;> rfl
    have htakes : field.arg.takesValues = true := by cases field <;> rfl
    have hread := Declaration.outlineFrom_value (r := .start commitDeclaration) rfl rfl rfl rfl field.spells_arg htakes hx ws
    rw [hname] at hread
    exact hread
  | breaking => rfl
  | all spelling =>
    exact Declaration.outlineFrom_flag (r := .start commitDeclaration) (a := allArg) rfl rfl rfl
      ⟨⟨rfl, by decide, by decide⟩, rfl, by decide⟩ rfl rfl ws
  | verbose spelling =>
    exact Declaration.outlineFrom_flag (r := .start commitDeclaration) (a := Interface.verboseOption) rfl rfl rfl
      ⟨⟨rfl, by decide, by decide⟩, rfl, by decide⟩ rfl rfl ws

theorem outline_words {options : List CommitOption} (h : ∀ x ∈ options, x.Fits) :
    commitDeclaration.outline (options.flatMap words) = .ends commitDeclaration (options.map occurrence) := by
  have hread := Declaration.outlineFrom_flatMap (fun x hx ws => outlineFrom_words (h x hx) ws) []
  rw [List.append_nil] at hread
  rw [Declaration.outline, hread]
  exact congrArg (Outline.ends commitDeclaration) (List.append_nil _)

/-! ## What the options ask for -/

/-- Whether an option is given with a value, in some spelling of it. -/
def Gives (options : List CommitOption) (field : CommitField) (v : Text) : Prop :=
  ∃ spelling written, value field spelling written ∈ options ∧ spelling.read written = v

/-- Whether a commit is what the options say. -/
structure Describe (options : List CommitOption) (r : CommitRequest) : Prop where
  type : ∀ t, r.type = some t ↔ Gives options .type t.name
  scope : ∀ v, r.scope = some v ↔ Gives options .scope v
  summary : Gives options .message r.summary
  breaking : r.breaking = true ↔ .breaking ∈ options
  all : r.all = true ↔ ∃ spelling, .all spelling ∈ options

/-- Whether options ask for something: none is given twice, a type is one of those of a commit, and they say of the commit and of
debug messages what is asked for. -/
structure AsksFor (options : List CommitOption) (i : Invocation) : Prop where
  once : (options.map kind).Nodup
  isType : ∀ v, Gives options .type v → v ∈ commitTypes
  request : ∃ r, i.command = .git (.commit r) ∧ Describe options r
  verbose : i.verbose = true ↔ ∃ spelling, .verbose spelling ∈ options

section Perm

variable {options options' : List CommitOption}

theorem Gives.perm (h : options.Perm options') {field : CommitField} {v : Text} :
    Gives options field v ↔ Gives options' field v := by
  simp only [Gives, h.mem_iff]

/-- The order of the options does not matter. -/
theorem AsksFor.perm (h : options.Perm options') {i : Invocation} (ha : AsksFor options i) : AsksFor options' i := by
  obtain ⟨r, hi, hr⟩ := ha.request
  refine ⟨(h.map kind).nodup_iff.1 ha.once, fun v hv => ha.isType v ((Gives.perm h).2 hv), ⟨r, hi, ?_⟩, ?_⟩
  · exact {
      type := fun t => (hr.type t).trans (Gives.perm h)
      scope := fun v => (hr.scope v).trans (Gives.perm h)
      summary := (Gives.perm h).1 hr.summary
      breaking := hr.breaking.trans h.mem_iff
      all := hr.all.trans (exists_congr fun _ => h.mem_iff) }
  · exact ha.verbose.trans (exists_congr fun _ => h.mem_iff)

end Perm

/-! ## What is given -/

theorem id_occurrence (x : CommitOption) : x.occurrence.arg.id = x.kind.name := by
  cases x with
  | value field spelling v => cases field <;> rfl
  | breaking => rfl
  | all spelling => rfl
  | verbose spelling => rfl

theorem kind_of_id {x : CommitOption} {k : CommitOptionKind} (h : x.occurrence.arg.id = k.name) : x.kind = k :=
  CommitOptionKind.name_injective ((id_occurrence x).symm.trans h)

theorem nodup_ids_iff {options : List CommitOption} :
    ((options.map occurrence).map (·.arg.id)).Nodup ↔ (options.map kind).Nodup := by
  have hnames : (options.map occurrence).map (·.arg.id) = (options.map kind).map CommitOptionKind.name := by
    rw [List.map_map, List.map_map]
    exact List.map_congr_left fun x _ => id_occurrence x
  rw [hnames, List.nodup_map_iff CommitOptionKind.name_injective]

/-- What is given on a line with options of a commit, with some arguments further up. -/
def given (above : List Occurrence) (options : List CommitOption) : Given :=
  ⟨["git".toList, "commit".toList], options.map occurrence, above⟩

section Given

variable {above : List Occurrence} {options : List CommitOption}

/-- If no option is given twice, the value of one is the value it is given. -/
theorem value?_given_iff (h : (options.map kind).Nodup) {field : CommitField} {v : Text} :
    (given above options).value? field.name = some v ↔ Gives options field v := by
  rw [Given.value?, Option.bind_eq_some_iff]
  constructor
  · rintro ⟨o, ho, hv⟩
    obtain ⟨x, hx, rfl⟩ := List.mem_map.1 (List.mem_of_find?_eq_some ho)
    have hid := List.find?_some ho
    have hkind : x.kind = .value field := kind_of_id (of_decide_eq_true hid)
    cases x with
    | value field' spelling written =>
      cases hkind
      exact ⟨spelling, written, hx, Option.some.inj hv⟩
    | _ => cases hkind
  · rintro ⟨spelling, written, hx, rfl⟩
    have hfound := find?_eq_of_nodup (nodup_ids_iff.2 h) (List.mem_map_of_mem hx)
    rw [id_occurrence] at hfound
    exact ⟨_, hfound, rfl⟩

theorem has_given_iff {k : CommitOptionKind} : (given above options).has k.name = true ↔ ∃ x ∈ options, x.kind = k := by
  rw [Given.has, given, List.any_map, List.any_eq_true]
  simp only [Function.comp_apply, decide_eq_true_eq, id_occurrence, CommitOptionKind.name_injective.eq_iff]

theorem has_breaking_iff : (given above options).has "breaking".toList = true ↔ .breaking ∈ options := by
  refine (has_given_iff (k := .breaking)).trans ⟨?_, fun hx => ⟨_, hx, rfl⟩⟩
  rintro ⟨_ | _ | _ | _, hx, ⟨⟩⟩
  exact hx

theorem has_all_iff : (given above options).has "all".toList = true ↔ ∃ spelling, .all spelling ∈ options := by
  refine (has_given_iff (k := .all)).trans ⟨?_, fun ⟨_, hx⟩ => ⟨_, hx, rfl⟩⟩
  rintro ⟨_ | _ | _ | _, hx, ⟨⟩⟩
  exact ⟨_, hx⟩

theorem has_verbose_iff : (given above options).has "verbose".toList = true ↔ ∃ spelling, .verbose spelling ∈ options := by
  refine (has_given_iff (k := .verbose)).trans ⟨?_, fun ⟨_, hx⟩ => ⟨_, hx, rfl⟩⟩
  rintro ⟨_ | _ | _ | _, hx, ⟨⟩⟩
  exact ⟨_, hx⟩

theorem command?_given (above : List Occurrence) (options : List CommitOption) :
    (given above options).command? = ((given above options).value? "message".toList).map fun summary =>
      .git (.commit ⟨((given above options).value? "type".toList).bind CommitType.ofName?,
        (given above options).value? "scope".toList, summary, (given above options).has "breaking".toList,
        (given above options).has "all".toList⟩) := rfl

/-- The command on the line is the commit that the options ask for. -/
theorem command?_given_iff (h : (options.map kind).Nodup) {c : Command} :
    (given above options).command? = some c ↔ ∃ r, c = .git (.commit r) ∧ Describe options r := by
  let g := given above options
  have hvalue : ∀ field v, g.value? field.name = some v ↔ Gives options field v := fun field v => value?_given_iff h
  have htype : ∀ t, (g.value? "type".toList).bind CommitType.ofName? = some t ↔ Gives options .type t.name := by
    intro t
    rw [← hvalue, Option.bind_eq_some_iff]
    constructor
    · rintro ⟨v, hv, ht⟩
      rwa [CommitType.ofName?_eq_some_iff.1 ht]
    · intro ht
      exact ⟨_, ht, CommitType.ofName?_name t⟩
  rw [command?_given, Option.map_eq_some_iff]
  constructor
  · rintro ⟨summary, hsummary, rfl⟩
    exact ⟨_, rfl, htype, hvalue .scope, (hvalue .message summary).1 hsummary, has_breaking_iff, has_all_iff⟩
  · rintro ⟨r, rfl, hr⟩
    refine ⟨r.summary, (hvalue .message _).2 hr.summary, ?_⟩
    have htypes : (g.value? "type".toList).bind CommitType.ofName? = r.type :=
      Option.ext fun t => (htype t).trans (hr.type t).symm
    have hscopes : g.value? "scope".toList = r.scope := Option.ext fun v => (hvalue .scope v).trans (hr.scope v).symm
    have hbreaking : g.has "breaking".toList = r.breaking := Bool.eq_iff_iff.2 (has_breaking_iff.trans hr.breaking.symm)
    have hall : g.has "all".toList = r.all := Bool.eq_iff_iff.2 (has_all_iff.trans hr.all.symm)
    rw [htypes, hscopes, hbreaking, hall]

theorem accepts_type {v : Text} : CommitField.type.arg.effectiveValues.accepts v = true ↔ v ∈ commitTypes := by
  have hvalues : CommitField.type.arg.effectiveValues = Interface.choiceOf commitTypes := rfl
  rw [hvalues, Interface.choiceOf, ValueKind.accepts, List.any_map, List.any_eq_true]
  simp

/-- On its own, an option is wrong only if it is a type that there is not. -/
theorem error?_occurrence_iff {x : CommitOption} :
    x.occurrence.error? [] = none ↔ ∀ spelling v, x = value .type spelling v → spelling.read v ∈ commitTypes := by
  cases x with
  | value field spelling v =>
    cases field with
    | type =>
      have herror : (value .type spelling v).occurrence.error? [] =
          if CommitField.type.arg.effectiveValues.accepts (spelling.read v) then none else some .invalidValue := rfl
      rw [herror]
      constructor
      · rintro h _ _ ⟨⟩
        by_contra hno
        rw [if_neg (mt accepts_type.1 hno)] at h
        cases h
      · intro h
        exact if_pos (accepts_type.2 (h spelling v rfl))
    | _ => exact iff_of_true rfl fun _ _ h => nomatch h
  | _ => exact iff_of_true rfl fun _ _ h => nomatch h

/-- Nothing is wrong with the arguments if no option is given twice and a type is one of those of a commit. -/
theorem firstAmong_given_iff : UsageError.firstAmong [] none (options.map occurrence) = none ↔
    (options.map kind).Nodup ∧ ∀ v, Gives options .type v → v ∈ commitTypes := by
  have honce : ∀ o ∈ options.map occurrence, o.IsOnce := by
    rintro o ho
    obtain ⟨x, -, rfl⟩ := List.mem_map.1 ho
    cases x with
    | value field => cases field <;> exact ⟨nofun, nofun⟩
    | _ => exact ⟨nofun, nofun⟩
  rw [UsageError.firstAmong_eq_none_iff honce, nodup_ids_iff, and_comm, List.forall_mem_map]
  refine and_congr_right fun _ => ⟨?_, ?_⟩
  · rintro h v ⟨spelling, written, hx, rfl⟩
    exact error?_occurrence_iff.1 (h _ hx) spelling written rfl
  · intro h x hx
    refine error?_occurrence_iff.2 ?_
    rintro spelling v rfl
    exact h _ ⟨spelling, v, hx, rfl⟩

end Given

/-! ## Reading lines -/

/-- What a line is read as with the options of a commit and some arguments further up. -/
def outcome (above : List Occurrence) (options : List CommitOption) : Except UsageError Invocation :=
  match UsageError.firstAmong [] none (options.map occurrence), (given above options).command? with
  | some e, _ => .error e
  | none, some c => .ok ⟨(given above options).hasAnywhere "verbose".toList, c⟩
  | none, none => .error .missingArgument

theorem outcome_eq_ok_iff {options : List CommitOption} {i : Invocation} : outcome [] options = .ok i ↔ AsksFor options i := by
  have hhas : (given [] options).hasAnywhere "verbose".toList = true ↔ ∃ spelling, .verbose spelling ∈ options := by
    rw [Given.hasAnywhere, given, List.any_nil, Bool.or_false]
    exact has_verbose_iff
  have hverbose : (given [] options).hasAnywhere "verbose".toList = i.verbose ↔
      (i.verbose = true ↔ ∃ spelling, .verbose spelling ∈ options) := by
    rw [← hhas, Bool.eq_iff_iff]
    exact iff_comm
  constructor
  · intro h
    unfold outcome at h
    split at h
    · cases h
    · rename_i c hfirst hcommand
      obtain ⟨hnodup, htypes⟩ := firstAmong_given_iff.1 hfirst
      obtain rfl := Except.ok.inj h
      exact ⟨hnodup, htypes, (command?_given_iff hnodup).1 hcommand, hverbose.1 rfl⟩
    · cases h
  · intro h
    have hfirst := firstAmong_given_iff.2 ⟨h.once, h.isType⟩
    have hcommand : (given [] options).command? = some i.command := (command?_given_iff h.once).2 h.request
    simp only [outcome, hfirst, hcommand, hverbose.2 h.verbose]

section Verbose

variable {before after : List CommitOption} {spelling : FlagSpelling} {above above' : List Occurrence}

/-- Where something else than debug messages is looked for, the option for these may be left out. -/
theorem find?_verbose {p : Occurrence → Bool} (hp : p (verbose spelling).occurrence = false) :
    ((before ++ verbose spelling :: after).map occurrence).find? p = ((before ++ after).map occurrence).find? p := by
  rw [List.map_append, List.map_cons, List.find?_append, List.find?_cons_of_neg (by rw [hp]; exact Bool.false_ne_true),
    ← List.find?_append, ← List.map_append]

theorem command?_verbose :
    (given above (before ++ verbose spelling :: after)).command? = (given above' (before ++ after)).command? := by
  have hvalue : ∀ id : Text, id ≠ "verbose".toList →
      (given above (before ++ verbose spelling :: after)).value? id = (given above' (before ++ after)).value? id := by
    intro id hid
    exact congrArg (fun o : Option Occurrence => o.bind (·.value)) (find?_verbose (decide_eq_false hid.symm))
  have hhas : ∀ id : Text, id ≠ "verbose".toList →
      (given above (before ++ verbose spelling :: after)).has id = (given above' (before ++ after)).has id := by
    intro id hid
    rw [Given.has, Given.has, ← List.isSome_find?, ← List.isSome_find?]
    exact congrArg Option.isSome (find?_verbose (decide_eq_false hid.symm))
  rw [command?_given, command?_given, hvalue "message".toList (by decide), hvalue "type".toList (by decide),
    hvalue "scope".toList (by decide), hhas "breaking".toList (by decide), hhas "all".toList (by decide)]

/-- The option for debug messages may as well be an argument further up. -/
theorem outcome_verbose (h : ∀ x ∈ before ++ after, x.kind ≠ .verbose) :
    outcome [(verbose spelling).occurrence] (before ++ after) = outcome [] (before ++ verbose spelling :: after) := by
  have hother : ∀ x ∈ before ++ after, x.occurrence.arg.id ≠ "verbose".toList := by
    intro x hx hid
    exact h x hx (kind_of_id (k := .verbose) hid)
  have hfirst : UsageError.firstAmong [] none ((before ++ verbose spelling :: after).map occurrence) =
      UsageError.firstAmong [] none ((before ++ after).map occurrence) := by
    rw [List.map_append, List.map_cons, List.map_append]
    refine UsageError.firstAmong_insert ?_ (List.forall_mem_nil _) ?_
    · intro front hfront
      exact Occurrence.error?_of_apart rfl fun b hb => .inr (hfront b hb)
    · rw [← List.map_append]
      exact List.forall_mem_map.2 hother
  have hverbose : (given [] (before ++ verbose spelling :: after)).hasAnywhere "verbose".toList =
      (given [(verbose spelling).occurrence] (before ++ after)).hasAnywhere "verbose".toList := by
    have hhas : (given [] (before ++ verbose spelling :: after)).has "verbose".toList = true :=
      has_verbose_iff.2 ⟨spelling, List.mem_append_right before List.mem_cons_self⟩
    rw [Given.hasAnywhere, hhas, Given.hasAnywhere, given]
    exact (Bool.or_true _).symm
  rw [outcome, outcome, hfirst, command?_verbose, hverbose]

end Verbose

end CommitOption

namespace Invocation

theorem toOption_eq_some_iff {ε α : Type} {x : Except ε α} {a : α} : x.toOption = some a ↔ x = .ok a := by
  cases x <;> simp [Except.toOption]

/-- What the words of `git` take. -/
def gitDeclaration : Declaration := (grammar.child? "git".toList).getD default

/-- The word for debug messages gives its argument to a command with others below it. -/
theorem outline_verboseWord {d : Declaration} (hd : d.Spells 'v' Interface.verboseOption)
    (hhyphens : (Reader.start d).allowsHyphens = false) {spelling : FlagSpelling}
    (hchild : d.child? (spelling.word 'v' "verbose".toList) = none) (ws : List Text) :
    d.outline ((CommitOption.verbose spelling).words ++ ws) = (d.outline ws).give [(CommitOption.verbose spelling).occurrence] :=
  Declaration.outlineFrom_flag rfl rfl hhyphens hd rfl hchild ws

theorem firstAmong_nil : UsageError.firstAmong [] none [] = none := rfl

theorem check_git {before : List Occurrence} (ws : List Text) (h : UsageError.firstAmong [] none before = none) :
    ((grammar.outline ("git".toList :: ws)).give before).check =
      (gitDeclaration.outline ws).check.map fun g => { g with path := "git".toList :: g.path, above := before ++ g.above } :=
  Declaration.check_subcommand rfl (by decide) h ws

theorem check_line {before : List Occurrence} (options : List CommitOption) (h : UsageError.firstAmong [] none before = none) :
    ((gitDeclaration.outline (CommitOption.line options)).give before).check =
      (commitDeclaration.outline (options.flatMap CommitOption.words)).check.map fun g =>
        { g with path := "commit".toList :: g.path, above := before ++ g.above } :=
  Declaration.check_subcommand rfl (by decide) h _

section Lines

variable {options : List CommitOption} (h : ∀ x ∈ options, x.Fits) (program : Text) (spelling : FlagSpelling)
include h

/-- What is given on a line with options of a commit. -/
theorem check_commitWords :
    (commitDeclaration.outline (options.flatMap CommitOption.words)).check =
      match UsageError.firstAmong [] none (options.map CommitOption.occurrence) with
      | some e => .error e
      | none => .ok ⟨[], options.map CommitOption.occurrence, []⟩ := by
  rw [CommitOption.outline_words h, Outline.check]
  rfl

/-- A line whose arguments are the options of a commit and some arguments further up. -/
theorem ofWords_of_check {ws : List Text} {above : List Occurrence}
    (hcheck : (grammar.outline ws).check = (commitDeclaration.outline (options.flatMap CommitOption.words)).check.map fun g =>
      { g with path := "git".toList :: "commit".toList :: g.path, above := above ++ g.above }) :
    ofWords ws = CommitOption.outcome above options := by
  rw [ofWords, hcheck, check_commitWords h, CommitOption.outcome]
  cases UsageError.firstAmong [] none (options.map CommitOption.occurrence) with
  | some e => rfl
  | none =>
    have hgiven : CommitOption.given above options =
        ⟨["git".toList, "commit".toList], options.map CommitOption.occurrence, above ++ []⟩ := by
      rw [List.append_nil, CommitOption.given]
    rw [hgiven]
    dsimp only [Except.map]
    split <;> simp_all

theorem parse_commit : parse (program :: "git".toList :: CommitOption.line options) = CommitOption.outcome [] options := by
  have hpath : ["git".toList, "commit".toList] ∈ Command.paths := List.mem_of_elem_eq_true rfl
  exact ofWords_of_check h (Declaration.check_path (Command.find?_declarationAt hpath) (Command.not_help_mem hpath) _)

theorem parse_verbose_git_commit :
    parse (program :: ((CommitOption.verbose spelling).words ++ "git".toList :: CommitOption.line options)) =
      CommitOption.outcome [(CommitOption.verbose spelling).occurrence] options := by
  refine ofWords_of_check h ?_
  have hbelow := check_line options firstAmong_nil
  rw [Outline.give_nil] at hbelow
  have hchild : grammar.child? (spelling.word 'v' "verbose".toList) = none := by cases spelling <;> rfl
  rw [List.tail_cons, outline_verboseWord ⟨⟨rfl, by decide, by decide⟩, rfl, by decide⟩ rfl hchild, check_git _ rfl, hbelow]
  cases (commitDeclaration.outline (options.flatMap CommitOption.words)).check <;> rfl

theorem parse_git_verbose_commit :
    parse (program :: "git".toList :: ((CommitOption.verbose spelling).words ++ CommitOption.line options)) =
      CommitOption.outcome [(CommitOption.verbose spelling).occurrence] options := by
  refine ofWords_of_check h ?_
  have habove := check_git ((CommitOption.verbose spelling).words ++ CommitOption.line options) firstAmong_nil
  rw [Outline.give_nil] at habove
  have hchild : gitDeclaration.child? (spelling.word 'v' "verbose".toList) = none := by cases spelling <;> rfl
  rw [List.tail_cons, habove, outline_verboseWord ⟨⟨rfl, by decide, by decide⟩, rfl, by decide⟩ rfl hchild,
    check_line options rfl]
  cases (commitDeclaration.outline (options.flatMap CommitOption.words)).check <;> rfl

end Lines

/-- The options of a commit in any order and spelling. A line with them is read as what they ask for, and is not read if they ask for
nothing. With the options in another order it is read as the same, or again not read. And if the option for debug messages is among
them once, the line is read as it is with that option before `git` or before `commit`. -/
theorem parse_commitOptions (program : Text) :
    (∀ options : List CommitOption, (∀ x ∈ options, x.Fits) → ∀ i,
      parse (program :: "git".toList :: CommitOption.line options) = .ok i ↔ CommitOption.AsksFor options i) ∧
    (∀ options options' : List CommitOption, (∀ x ∈ options, x.Fits) → options.Perm options' →
      (parse (program :: "git".toList :: CommitOption.line options)).toOption =
        (parse (program :: "git".toList :: CommitOption.line options')).toOption) ∧
    ∀ (before after : List CommitOption) (spelling : FlagSpelling),
      (∀ x ∈ before ++ after, x.Fits ∧ x.kind ≠ .verbose) →
      parse (program :: ((CommitOption.verbose spelling).words ++ "git".toList :: CommitOption.line (before ++ after))) =
          parse (program :: "git".toList :: CommitOption.line (before ++ .verbose spelling :: after)) ∧
        parse (program :: "git".toList :: ((CommitOption.verbose spelling).words ++ CommitOption.line (before ++ after))) =
          parse (program :: "git".toList :: CommitOption.line (before ++ .verbose spelling :: after)) := by
  have hread : ∀ options : List CommitOption, (∀ x ∈ options, x.Fits) → ∀ i,
      parse (program :: "git".toList :: CommitOption.line options) = .ok i ↔ CommitOption.AsksFor options i := by
    intro options h i
    rw [parse_commit h, CommitOption.outcome_eq_ok_iff]
  refine ⟨hread, ?_, ?_⟩
  · intro options options' h hperm
    have h' : ∀ x ∈ options', x.Fits := fun x hx => h x (hperm.mem_iff.2 hx)
    refine Option.ext fun i => ?_
    rw [toOption_eq_some_iff, toOption_eq_some_iff, hread options h, hread options' h']
    exact ⟨CommitOption.AsksFor.perm hperm, CommitOption.AsksFor.perm hperm.symm⟩
  · intro before after spelling h
    have hrest : ∀ x ∈ before ++ after, x.Fits := fun x hx => (h x hx).1
    have hall : ∀ x ∈ before ++ .verbose spelling :: after, x.Fits := by
      intro x hx
      rcases List.mem_append.1 hx with hx | hx
      · exact hrest x (List.mem_append_left after hx)
      rcases List.mem_cons.1 hx with rfl | hx
      · exact trivial
      · exact hrest x (List.mem_append_right before hx)
    rw [parse_commit hall, parse_verbose_git_commit hrest, parse_git_verbose_commit hrest,
      CommitOption.outcome_verbose fun x hx => (h x hx).2]
    exact ⟨rfl, rfl⟩

/-- Options of a commit, one of which has an equals sign behind its letter and one an empty value. -/
def mixedOptions : List CommitOption :=
  [.value .message .letterJoined "=x y".toList, .value .type .nameApart "fix".toList, .verbose .letter,
    .value .scope .letterEquals [], .all .name]

/-- The options are read in this order and in the other one, and with debug messages asked for first. -/
theorem parse_commitOptions_mixed :
    ((∀ x ∈ mixedOptions, x.Fits) ∧ mixedOptions.Perm mixedOptions.reverse) ∧
    CommitOption.AsksFor mixedOptions
      ⟨true, .git (.commit { type := some .fix, scope := some [], summary := "x y".toList, all := true })⟩ ∧
    (parse (["dx", "git", "commit", "-m=x y", "--type", "fix", "-v", "-s=", "--all"].map String.toList)).toOption =
      (parse (["dx", "git", "commit", "--all", "-s=", "-v", "--type", "fix", "-m=x y"].map String.toList)).toOption ∧
    parse (["dx", "-v", "git", "commit", "-m=x y", "--type", "fix", "-s=", "--all"].map String.toList) =
      .ok ⟨true, .git (.commit { type := some .fix, scope := some [], summary := "x y".toList, all := true })⟩ := by
  obtain ⟨hread, hperm, hverbose⟩ := parse_commitOptions "dx".toList
  have hfits : ∀ x ∈ mixedOptions, x.Fits := by decide
  have hreverse : mixedOptions.Perm mixedOptions.reverse := mixedOptions.reverse_perm.symm
  have hline := (hread mixedOptions hfits _).1 rfl
  refine ⟨⟨hfits, hreverse⟩, hline, hperm _ _ hfits hreverse, ?_⟩
  exact (hverbose (mixedOptions.take 2) (mixedOptions.drop 3) .letter (by decide)).1.trans ((hread mixedOptions hfits _).2 hline)

end Invocation

end DevWorkflow
