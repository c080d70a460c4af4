import DevWorkflow.Proofs.CommandLine.Reading

/-!
# The parts of a command line

The parts that the words of a command make may be given together, and each is found again by the identifier of its argument
(`Part.firstAmong_parts`, `Part.filter_flatMap`). From there the words of a command with nothing below it are read whole
(`Declaration.check_wordsOf`); after a path of subcommand names any words are read as they are on their own
(`Declaration.check_path`).
-/

namespace DevWorkflow

/-! ## Whether the parts may be given like that -/

/-- Whether an argument may follow another one on the line whatever their values are. -/
def Occurrence.Apart (b o : Occurrence) : Prop := o.arg.effectiveAction = .append ∨ b.arg.id ≠ o.arg.id

namespace Occurrence

/-- An argument that may be given first may follow those that it stands apart from. -/
theorem error?_of_apart {o : Occurrence} {before : List Occurrence} (hfirst : o.error? [] = none)
    (hapart : ∀ b ∈ before, b.Apart o) : o.error? before = none := by
  by_cases happend : o.arg.effectiveAction = .append
  · rw [error?, happend]
  · have hany : (before.any fun b => b.arg.id = o.arg.id) = false := by
      rw [List.any_eq_false]
      intro b hb
      rcases hapart b hb with h | h
      · exact absurd h happend
      · simpa using h
    rw [error?] at hfirst ⊢
    rw [hany]
    exact hfirst

end Occurrence

namespace UsageError

/-- At the end of a line the first error is the first argument's, or one after it. -/
theorem firstAmong_none_cons (before : List Occurrence) (o : Occurrence) (rest : List Occurrence) :
    firstAmong before none (o :: rest) = (o.error? before).or (firstAmong (before ++ [o]) none rest) := by
  rw [firstAmong]
  cases o.error? before with
  | none => rfl
  | some e => simp

/-- Arguments that may be given first and stand apart from each other may be given together. -/
theorem firstAmong_of_apart {before given : List Occurrence} (hfirst : ∀ o ∈ given, o.error? [] = none)
    (hgiven : given.Pairwise Occurrence.Apart) (hbefore : ∀ b ∈ before, ∀ o ∈ given, b.Apart o) :
    firstAmong before none given = none := by
  induction given generalizing before with
  | nil => rfl
  | cons o rest ih =>
    obtain ⟨hapart, hrest⟩ := List.pairwise_cons.1 hgiven
    have ho : o.error? before = none := Occurrence.error?_of_apart (hfirst o (by simp)) fun b hb => hbefore b hb o (by simp)
    rw [firstAmong_none_cons, ho, Option.none_or]
    refine ih (fun p hp => hfirst p (by simp [hp])) hrest ?_
    intro b hb p hp
    rcases List.mem_append.1 hb with hb | hb
    · exact hbefore b hb p (by simp [hp])
    · obtain rfl := List.mem_singleton.1 hb
      exact hapart p hp

end UsageError

/-- Whether what is given for an argument may be given for it. -/
structure Part.Allowed (p : Part) : Prop where
  own : ∀ o ∈ p.given, o.arg = p.arg
  first : ∀ o ∈ p.given, o.error? [] = none
  once : p.arg.effectiveAction = .append ∨ p.given.length ≤ 1

namespace Part

/-- An option may be given as it suits it. -/
theorem allowed_ofGiving {a : ArgDeclaration} {g : Giving} (h : g.Suits a) : (ofGiving a g).Allowed := by
  cases g with
  | absent => exact ⟨by simp [ofGiving, Giving.occurrences], by simp [ofGiving, Giving.occurrences], .inr (Nat.zero_le 1)⟩
  | alone =>
    have haction : a.effectiveAction = .setTrue := h
    refine ⟨by simp [ofGiving, Giving.occurrences], ?_, .inr (Nat.le_refl 1)⟩
    simp [ofGiving, Giving.occurrences, Occurrence.error?, haction]
  | value v =>
    obtain ⟨haction, haccepts⟩ := h
    refine ⟨by simp [ofGiving, Giving.occurrences], ?_, .inr (Nat.le_refl 1)⟩
    simp [ofGiving, Giving.occurrences, Occurrence.error?, haction, haccepts]

/-- Positional arguments may be given the words that fit them. -/
theorem allowed_ofWords {as : List ArgDeclaration} {wss : List (List Text)} (h : OperandsFit as wss) :
    ∀ p ∈ as.zipWith ofWords wss, p.Allowed := by
  induction h with
  | @none as wss hnone =>
    intro p hp
    have hnothing : (as.zipWith ofWords wss).flatMap (·.given) = [] := given_ofWords_nil hnone
    have hgiven : p.given = [] := List.flatMap_eq_nil_iff.1 hnothing p hp
    exact ⟨by simp [hgiven], by simp [hgiven], by simp [hgiven]⟩
  | @one a as wss w haction haccepts _ ih =>
    intro p hp
    rcases List.mem_cons.1 hp with rfl | hp
    · refine ⟨by simp [ofWords], ?_, .inr (Nat.le_refl 1)⟩
      simp [ofWords, Occurrence.error?, haction, haccepts]
    · exact ih p hp
  | @all a ws haction =>
    intro p hp
    obtain rfl := List.mem_singleton.1 hp
    refine ⟨?_, ?_, .inl haction⟩
    · simp [ofWords]
    · simp [ofWords, Occurrence.error?, haction]

/-- Parts that may be given, of arguments with different identifiers, may be given together. -/
theorem firstAmong_parts {parts : List Part} (hallowed : ∀ p ∈ parts, p.Allowed)
    (hids : (parts.map (·.arg.id)).Nodup) : UsageError.firstAmong [] none (parts.flatMap (·.given)) = none := by
  refine UsageError.firstAmong_of_apart ?_ ?_ (by simp)
  · intro o ho
    obtain ⟨p, hp, hop⟩ := List.mem_flatMap.1 ho
    exact (hallowed p hp).first o hop
  · refine List.pairwise_flatMap.2 ⟨?_, ?_⟩
    · intro p hp
      rcases (hallowed p hp).once with happend | hlength
      · refine List.pairwise_of_forall_mem_list ?_
        intro b _ o ho
        exact .inl (by rw [(hallowed p hp).own o ho, happend])
      · rcases hgiven : p.given with _ | ⟨o, _ | ⟨o', rest⟩⟩
        · exact List.Pairwise.nil
        · exact List.pairwise_singleton _ o
        · simp [hgiven] at hlength
    · refine (List.pairwise_map.1 hids).imp_of_mem ?_
      intro p q hp hq hne b hb o ho
      exact .inr (by rw [(hallowed p hp).own b hb, (hallowed q hq).own o ho]; exact hne)

/-- Parts of arguments keep the order of the arguments. -/
theorem arg_zipWith_sublist {β : Type} {f : ArgDeclaration → β → Part} (hf : ∀ a b, (f a b).arg = a)
    (as : List ArgDeclaration) (bs : List β) : ((as.zipWith f bs).map (·.arg)).Sublist as := by
  induction as generalizing bs with
  | nil => exact List.nil_sublist []
  | cons a as ih =>
    cases bs with
    | nil => exact List.nil_sublist _
    | cons b bs =>
      rw [List.zipWith_cons_cons, List.map_cons, hf]
      exact (ih bs).cons_cons a

/-! ## Finding what is given -/

/-- What is given for the argument with an identifier. -/
def givenFor (parts : List Part) (id : Text) : List Occurrence :=
  ((parts.find? fun p => p.arg.id = id).map (·.given)).getD []

/-- The arguments on the line with an identifier are those of its part. -/
theorem filter_flatMap {parts : List Part} (hown : ∀ p ∈ parts, ∀ o ∈ p.given, o.arg = p.arg)
    (hids : (parts.map (·.arg.id)).Nodup) (id : Text) :
    (parts.flatMap (·.given)).filter (fun o => o.arg.id = id) = givenFor parts id := by
  induction parts with
  | nil => rfl
  | cons p rest ih =>
    obtain ⟨hfresh, hrest⟩ := List.nodup_cons.1 hids
    have hown' : ∀ q ∈ rest, ∀ o ∈ q.given, o.arg = q.arg := fun q hq => hown q (by simp [hq])
    rw [List.flatMap_cons, List.filter_append]
    by_cases hid : p.arg.id = id
    · have hall : p.given.filter (fun o => o.arg.id = id) = p.given := by
        rw [List.filter_eq_self]
        intro o ho
        simp [hown p (by simp) o ho, hid]
      have hnone : (rest.flatMap (·.given)).filter (fun o => o.arg.id = id) = [] := by
        rw [List.filter_eq_nil_iff]
        intro o ho
        obtain ⟨q, hq, hoq⟩ := List.mem_flatMap.1 ho
        have hne : q.arg.id ≠ id := fun h => hfresh (List.mem_map.2 ⟨q, hq, h.trans hid.symm⟩)
        simp [hown' q hq o hoq, hne]
      rw [hall, hnone, List.append_nil, givenFor, List.find?_cons_of_pos (by simpa using hid)]
      rfl
    · have hnone : p.given.filter (fun o => o.arg.id = id) = [] := by
        rw [List.filter_eq_nil_iff]
        intro o ho
        simp [hown p (by simp) o ho, hid]
      rw [hnone, List.nil_append, ih hown' hrest, givenFor, givenFor, List.find?_cons_of_neg (by simpa using hid)]

end Part

namespace Giving

/-- A flag suits an option without a value. -/
theorem suits_ofFlag {a : ArgDeclaration} (ha : a.effectiveAction = .setTrue) (b : Bool) : (ofFlag b).Suits a := by
  cases b with
  | false => exact trivial
  | true => exact ha

/-- A value that is accepted suits an option with a value. -/
theorem suits_ofValue {a : ArgDeclaration} (ha : a.effectiveAction = .set) {v : Option Text}
    (hv : ∀ t, v = some t → a.effectiveValues.accepts t = true) : (ofValue v).Suits a := by
  cases v with
  | none => exact trivial
  | some t => exact ⟨ha, hv t rfl⟩

/-- The value of an option is the one it is given. -/
theorem value?_ofValue (a : ArgDeclaration) (v : Option Text) : ((ofValue v).occurrences a).head?.bind (·.value) = v := by
  cases v <;> rfl

/-- A flag is given if it is set. -/
theorem isEmpty_ofFlag (a : ArgDeclaration) (b : Bool) : (!((ofFlag b).occurrences a).isEmpty) = b := by
  cases b <;> rfl

end Giving

namespace Given

variable {parts : List Part} (hown : ∀ p ∈ parts, ∀ o ∈ p.given, o.arg = p.arg) (hids : (parts.map (·.arg.id)).Nodup)
include hown hids

/-- The value of an argument is the first one of its part. -/
theorem value?_parts (path : List Text) (above : List Occurrence) (id : Text) :
    Given.value? ⟨path, parts.flatMap (·.given), above⟩ id = (Part.givenFor parts id).head?.bind (·.value) := by
  rw [Given.value?, ← List.head?_filter, Part.filter_flatMap hown hids]

/-- The values of an argument are those of its part. -/
theorem values_parts (path : List Text) (above : List Occurrence) (id : Text) :
    Given.values ⟨path, parts.flatMap (·.given), above⟩ id = (Part.givenFor parts id).filterMap (·.value) := by
  rw [Given.values, Part.filter_flatMap hown hids]

/-- An argument is given if something is given in its part. -/
theorem has_parts (path : List Text) (above : List Occurrence) (id : Text) :
    Given.has ⟨path, parts.flatMap (·.given), above⟩ id = !(Part.givenFor parts id).isEmpty := by
  rw [← Part.filter_flatMap hown hids]
  generalize parts.flatMap (·.given) = given
  rw [Given.has, Bool.eq_iff_iff]
  simp

end Given

/-! ## Whole lines -/

namespace Declaration

/-- The options, in order. -/
def options (d : Declaration) : List ArgDeclaration := d.args.filter fun a => !a.isPositional

/-- A command with nothing below it, whose arguments have different identifiers and whose options go by their long forms. -/
structure IsPlain (d : Declaration) : Prop where
  noSubcommands : d.subcommands = []
  ids : (d.args.map (·.id)).Nodup
  names : ∀ a ∈ d.options, d.Names a

/-- The options of a command, each with what is given for it. -/
def settings (d : Declaration) (givings : List Giving) : List (ArgDeclaration × Giving) := d.options.zip givings

/-- The parts of a line that gives the options what is given for them, and the positional arguments their words. -/
def parts (d : Declaration) (givings : List Giving) (operands : List (List Text)) : List Part :=
  (d.settings givings).map (fun x => Part.ofGiving x.1 x.2) ++ d.positionals.zipWith Part.ofWords operands

/-- The words of positional arguments, after two dashes unless there are none. -/
def afterDashes : List Text → List Text
  | [] => []
  | w :: ws => "--".toList :: w :: ws

/-- The words of a command with nothing below it. -/
def wordsOf (d : Declaration) (givings : List Giving) (operands : List (List Text)) : List Text :=
  ((d.settings givings).flatMap fun x => x.2.words x.1.longName) ++ afterDashes operands.flatten

/-- What is given for the options and for the positional arguments makes the parts. -/
theorem flatMap_parts (d : Declaration) (givings : List Giving) (operands : List (List Text)) :
    (d.parts givings operands).flatMap (·.given) = ((d.settings givings).flatMap fun x => x.2.occurrences x.1) ++
      (d.positionals.zipWith Part.ofWords operands).flatMap (·.given) := by
  rw [parts, List.flatMap_append, List.flatMap_map]
  rfl

variable {d : Declaration} {givings : List Giving} {operands : List (List Text)}

/-- The arguments of the parts have different identifiers. -/
theorem ids_parts (hd : d.IsPlain) : ((d.parts givings operands).map (·.arg.id)).Nodup := by
  have hperm : (d.positionals ++ d.options).Perm d.args := List.filter_append_perm _ d.args
  have hargs : ((d.parts givings operands).map (·.arg)).Sublist (d.options ++ d.positionals) := by
    rw [parts, List.map_append]
    refine List.Sublist.append ?_ ?_
    · rw [settings, List.map_zip_eq_zipWith]
      exact Part.arg_zipWith_sublist (fun _ _ => rfl) d.options givings
    · exact Part.arg_zipWith_sublist (fun _ _ => rfl) d.positionals operands
  have hids : ((d.options ++ d.positionals).map (·.id)).Nodup :=
    ((List.perm_append_comm.trans hperm).map _).nodup_iff.2 hd.ids
  have h := hids.sublist (hargs.map (·.id))
  rwa [List.map_map] at h

/-- What the parts are given may be given. -/
theorem allowed_parts (hsuits : ∀ x ∈ d.settings givings, x.2.Suits x.1) (hfit : OperandsFit d.positionals operands) :
    ∀ p ∈ d.parts givings operands, p.Allowed := by
  intro p hp
  rcases List.mem_append.1 hp with hp | hp
  · obtain ⟨x, hx, rfl⟩ := List.mem_map.1 hp
    exact Part.allowed_ofGiving (hsuits x hx)
  · exact Part.allowed_ofWords hfit p hp

/-- The words of the positional arguments make their parts. -/
theorem outline_afterDashes (hleaf : d.subcommands = []) (hfit : OperandsFit d.positionals operands) :
    d.outlineFrom (.start d) (afterDashes operands.flatten) =
      .ends d ((d.positionals.zipWith Part.ofWords operands).flatMap (·.given)) := by
  rcases hwords : operands.flatten with _ | ⟨w, ws⟩
  · rw [Part.given_ofWords_nil (List.flatten_eq_nil_iff.1 hwords)]
    rfl
  · rw [afterDashes, outlineFrom_cons_more (readWord_dashes hleaf rfl rfl _), Outline.give_nil, ← hwords]
    exact outlineFrom_operands hfit rfl rfl rfl

/-- The words of a command with nothing below it give what its parts are given. -/
theorem check_wordsOf (hd : d.IsPlain) (hsuits : ∀ x ∈ d.settings givings, x.2.Suits x.1)
    (hfit : OperandsFit d.positionals operands) :
    (d.outline (d.wordsOf givings operands)).check = .ok ⟨[], (d.parts givings operands).flatMap (·.given), []⟩ := by
  have hnames : ∀ x ∈ d.settings givings, d.Names x.1 := fun x hx => hd.names x.1 (List.of_mem_zip hx).1
  rw [outline, wordsOf, outlineFrom_options hd.noSubcommands rfl rfl hnames hsuits, outline_afterDashes hd.noSubcommands hfit,
    Outline.give, ← flatMap_parts, Outline.check, Part.firstAmong_parts (allowed_parts hsuits hfit) (ids_parts hd)]
  simp [hd.noSubcommands]

/-- The words of a subcommand, after its name and after some arguments of the command, are read as they are on their own. -/
theorem check_subcommand {d c : Declaration} {name : Text} (hchild : d.child? name = some c) (hhelp : name ≠ helpCommand.name)
    {before : List Occurrence} (hbefore : UsageError.firstAmong [] none before = none) (ws : List Text) :
    ((d.outline (name :: ws)).give before).check =
      (c.outline ws).check.map fun g => { g with path := name :: g.path, above := before ++ g.above } := by
  have hname : c.name = name := by simpa using List.find?_some hchild
  have hread : d.readWord (.start d) name ws = ([], .enter c) := by
    rw [readWord]
    simp only [Reader.start, readFree, hchild, hname, if_neg hhelp]
    rfl
  have hcommand : (c.outline ws).command.name = name := by rw [outline, command_outlineFrom, hname]
  rw [outline, outlineFrom_cons_enter hread, Outline.give, List.append_nil, Outline.check, hbefore]
  cases (c.outline ws).check with
  | error e => rfl
  | ok g => simp only [hcommand, Except.map]

/-- The words of a command below, after the path that leads to it, are read as they are on their own. -/
theorem check_path {d leaf : Declaration} {path : List Text} (hfind : d.find? path = some leaf)
    (hhelp : helpCommand.name ∉ path) (ws : List Text) :
    (d.outline (path ++ ws)).check = (leaf.outline ws).check.map fun g => { g with path := path ++ g.path } := by
  induction path generalizing d with
  | nil =>
    obtain rfl : d = leaf := Option.some.inj hfind
    rw [List.nil_append]
    cases (d.outline ws).check <;> rfl
  | cons name rest ih =>
    obtain ⟨c, hchild, hrest⟩ := Option.bind_eq_some_iff.1 hfind
    have hname : name ≠ helpCommand.name := fun h => hhelp (by simp [h])
    have hnone : UsageError.firstAmong [] none [] = none := rfl
    have hc := check_subcommand hchild hname hnone (rest ++ ws)
    rw [Outline.give_nil, ih hrest fun h => hhelp (List.mem_cons_of_mem _ h)] at hc
    rw [List.cons_append, hc]
    cases (leaf.outline ws).check <;> rfl

end Declaration

end DevWorkflow
