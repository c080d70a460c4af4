import DevWorkflow.Proofs.CommandLine.PassThrough
import DevWorkflow.Proofs.Completion.Validity

/-!
# Spellings of options

An option is written with its letter or with its name, and its value in the same word or in the next one. However it is written, it
makes one argument on the line, and options that are written one after another make theirs in this order
(`Declaration.outlineFrom_flatMap`). Of options that may be given once, nothing is wrong if each one may be given on its own and none
is given twice, in whatever order they are (`UsageError.firstAmong_eq_none_iff`).
-/

namespace DevWorkflow

/-- How an option with a value is written. -/
inductive ValueSpelling where
  /-- `-t value` -/
  | letterApart
  /-- `-tvalue` -/
  | letterJoined
  /-- `-t=value` -/
  | letterEquals
  /-- `--type value` -/
  | nameApart
  /-- `--type=value` -/
  | nameEquals
deriving DecidableEq, Repr

namespace ValueSpelling

/-- The words of an option with a letter, a name and a value. -/
def words (letter : Char) (name value : Text) : ValueSpelling → List Text
  | letterApart => [['-', letter], value]
  | letterJoined => ['-' :: letter :: value]
  | letterEquals => ['-' :: letter :: '=' :: value]
  | nameApart => ["--".toList ++ name, value]
  | nameEquals => ["--".toList ++ (name ++ '=' :: value)]

/-- Whether a value can be written like that: a word of its own does not look like an option, and something follows a letter. -/
def Fits (value : Text) : ValueSpelling → Prop
  | letterApart | nameApart => value.head? ≠ some '-'
  | letterJoined => value ≠ []
  | letterEquals | nameEquals => True

instance (value : Text) : (s : ValueSpelling) → Decidable (s.Fits value)
  | letterApart | nameApart => inferInstanceAs (Decidable (value.head? ≠ some '-'))
  | letterJoined => inferInstanceAs (Decidable (value ≠ []))
  | letterEquals | nameEquals => inferInstanceAs (Decidable True)

/-- The value that is read. Right behind a letter an equals sign does not belong to it. -/
def read (value : Text) : ValueSpelling → Text
  | letterJoined => if value.head? = some '=' then value.tail else value
  | letterApart | letterEquals | nameApart | nameEquals => value

/-- Whether the value is in the word that names the option. -/
def isAttached : ValueSpelling → Bool
  | letterApart | nameApart => false
  | letterJoined | letterEquals | nameEquals => true

end ValueSpelling

/-- How an option without a value is written. -/
inductive FlagSpelling where
  /-- `-a` -/
  | letter
  /-- `--all` -/
  | name
deriving DecidableEq, Repr

/-- The word of an option with a letter and a name. -/
def FlagSpelling.word (letter : Char) (name : Text) : FlagSpelling → Text
  | .letter => ['-', letter]
  | .name => "--".toList ++ name

/-- The letter and the long form of an argument name it, among the arguments of a command. -/
structure Declaration.Spells (d : Declaration) (letter : Char) (a : ArgDeclaration) : Prop extends d.Names a where
  short : d.short? letter = some a
  ne_dash : letter ≠ '-'

namespace Declaration

variable {d : Declaration} {r : Reader} {a : ArgDeclaration} {letter : Char}

/-! ## Reading one option -/

/-- A word of letters is read letter by letter, unless it may be a positional argument. -/
theorem readWord_letters (hwait : r.awaiting = none) (honly : r.onlyPositional = false) (hhyphens : r.allowsHyphens = false)
    (hletter : letter ≠ '-') {rest : Text} (hchild : d.child? ('-' :: letter :: rest) = none) (later : List Text) :
    d.readWord r ('-' :: letter :: rest) later = d.readLetters r (letter :: rest) := by
  rw [readWord_of_no_child hwait honly hchild, WordShape.of_dash_cons hletter]
  simp only [hhyphens, Bool.false_and, Bool.false_eq_true, if_false]

/-- A word that is a name is read as the option of that name. -/
theorem readWord_name (hwait : r.awaiting = none) (honly : r.onlyPositional = false) (ha : d.Names a)
    (hchild : d.child? ("--".toList ++ a.longName) = none) (later : List Text) :
    d.readWord r ("--".toList ++ a.longName) later = d.readLong r ("--".toList ++ a.longName) a.longName none := by
  rw [readWord_of_no_child hwait honly hchild, WordShape.of_dashes_append ha.ne_nil, WordShape.splitValue_of_not_mem ha.not_mem]

/-- Where the value of an option is awaited, a word that does not look like an option is the value. -/
theorem readWord_awaiting {value : Text} (hvalue : value.head? ≠ some '-') (later : List Text) :
    d.readWord { r with awaiting := some a } value later = ([⟨a, some value, false⟩], .more { r with awaiting := none }) := by
  rw [readWord]
  simp only [WordShape.of_eq_plain hvalue, if_true]

/-- After a word that leaves the value open, the next word is the value. -/
theorem outlineFrom_apart (hwait : r.awaiting = none) {w value : Text} (hvalue : value.head? ≠ some '-') {ws : List Text}
    (hread : d.readWord r w (value :: ws) = ([], .more { r with awaiting := some a })) :
    d.outlineFrom r (w :: value :: ws) = (d.outlineFrom r ws).give [⟨a, some value, false⟩] := by
  have hback : { r with awaiting := none } = r := by
    obtain ⟨positionals, awaiting, onlyPositional⟩ := r
    obtain rfl : awaiting = none := hwait
    rfl
  have hnext := readWord_awaiting (d := d) (r := r) (a := a) hvalue ws
  rw [hback] at hnext
  rw [outlineFrom_cons_more hread, Outline.give_nil, outlineFrom_cons_more hnext]

/-- An option with a value makes one argument with the value that is read. -/
theorem outlineFrom_value (hleaf : d.subcommands = []) (hwait : r.awaiting = none) (honly : r.onlyPositional = false)
    (hhyphens : r.allowsHyphens = false) (ha : d.Spells letter a) (htakes : a.takesValues = true) {s : ValueSpelling}
    {value : Text} (hfits : s.Fits value) (ws : List Text) :
    d.outlineFrom r (s.words letter a.longName value ++ ws) =
      (d.outlineFrom r ws).give [⟨a, some (s.read value), s.isAttached⟩] := by
  have hletters : ∀ rest later, d.readWord r ('-' :: letter :: rest) later = d.readLetters r (letter :: rest) :=
    fun rest later => readWord_letters hwait honly hhyphens ha.ne_dash (child?_of_leaf hleaf _) later
  cases s with
  | letterApart =>
    refine outlineFrom_apart hwait hfits ?_
    rw [hletters, readLetters, ha.short]
    simp only [htakes, if_true]
  | letterJoined =>
    refine outlineFrom_cons_more ?_
    rw [hletters, readLetters, ha.short]
    simp only [htakes, if_true]
    cases value with
    | nil => exact absurd rfl hfits
    | cons c value =>
      by_cases hc : c = '='
      · subst hc
        rfl
      · have hread : ValueSpelling.letterJoined.read (c :: value) = c :: value := if_neg (by simpa using hc)
        rw [hread]
        split <;> simp_all [ValueSpelling.isAttached]
  | letterEquals =>
    refine outlineFrom_cons_more ?_
    rw [hletters, readLetters, ha.short]
    simp only [htakes, if_true]
    rfl
  | nameApart =>
    refine outlineFrom_apart hwait hfits ?_
    rw [readWord_name hwait honly ha.toNames (child?_of_leaf hleaf _), readLong, ha.found]
    simp only [htakes, if_true]
  | nameEquals =>
    refine outlineFrom_cons_more ?_
    rw [readWord_of_no_child hwait honly (child?_of_leaf hleaf _), WordShape.of_dashes_append (by simp),
      WordShape.splitValue_append ha.not_mem]
    simp only [readLong, ha.found, htakes, if_true]
    rfl

/-- An option without a value makes one argument. -/
theorem outlineFrom_flag (hwait : r.awaiting = none) (honly : r.onlyPositional = false) (hhyphens : r.allowsHyphens = false)
    (ha : d.Spells letter a) (htakes : a.takesValues = false) {s : FlagSpelling}
    (hchild : d.child? (s.word letter a.longName) = none) (ws : List Text) :
    d.outlineFrom r (s.word letter a.longName :: ws) = (d.outlineFrom r ws).give [⟨a, none, true⟩] := by
  refine outlineFrom_cons_more ?_
  cases s with
  | letter =>
    rw [FlagSpelling.word, readWord_letters hwait honly hhyphens ha.ne_dash hchild, readLetters, ha.short]
    simp only [htakes, Bool.false_eq_true, if_false]
    rfl
  | name =>
    rw [FlagSpelling.word, readWord_name hwait honly ha.toNames hchild, readLong, ha.found]
    simp only [htakes, Bool.false_eq_true, if_false]

/-! ## Reading options one after another -/

/-- If the words of each one of some things make an argument, so do the words of all of them. -/
theorem outlineFrom_flatMap {α : Type} {words : α → List Text} {occurrence : α → Occurrence} {items : List α}
    (h : ∀ x ∈ items, ∀ ws, d.outlineFrom r (words x ++ ws) = (d.outlineFrom r ws).give [occurrence x]) (ws : List Text) :
    d.outlineFrom r (items.flatMap words ++ ws) = (d.outlineFrom r ws).give (items.map occurrence) := by
  induction items with
  | nil => exact (Outline.give_nil _).symm
  | cons x rest ih =>
    obtain ⟨hx, hrest⟩ := List.forall_mem_cons.1 h
    rw [List.flatMap_cons, List.append_assoc, hx, ih hrest, Outline.give_give]
    rfl

end Declaration

/-! ## Options that may be given once -/

namespace Occurrence

/-- Whether the argument may be given only once. -/
def IsOnce (o : Occurrence) : Prop := o.arg.effectiveAction ≠ .append ∧ o.arg.effectiveAction ≠ .count

instance (o : Occurrence) : Decidable o.IsOnce := inferInstanceAs (Decidable (_ ∧ _))

/-- Only which arguments are given before matters. -/
theorem error?_congr {o : Occurrence} {before before' : List Occurrence}
    (h : (before.any fun b => b.arg.id = o.arg.id) = before'.any fun b => b.arg.id = o.arg.id) :
    o.error? before = o.error? before' := by
  unfold error?
  rw [h]

/-- Nothing is wrong with such an argument if nothing is wrong with it on its own and it is not given before. -/
theorem error?_eq_none_iff {o : Occurrence} (ho : o.IsOnce) (before : List Occurrence) :
    o.error? before = none ↔ o.error? [] = none ∧ ∀ b ∈ before, b.arg.id ≠ o.arg.id := by
  constructor
  · intro h
    have hany : (before.any fun b => b.arg.id = o.arg.id) = false := by
      cases hany : before.any fun b => b.arg.id = o.arg.id with
      | false => rfl
      | true =>
        unfold error? at h
        rw [hany] at h
        cases haction : o.arg.effectiveAction with
        | append => exact absurd haction ho.1
        | count => exact absurd haction ho.2
        | set => cases hvalue : o.value <;> simp [haction, hvalue] at h
        | _ => simp [haction] at h
    refine ⟨(error?_congr hany).symm.trans h, fun b hb => ?_⟩
    simpa using List.any_eq_false.1 hany b hb
  · rintro ⟨hfirst, hfresh⟩
    exact error?_of_apart hfirst fun b hb => .inr (hfresh b hb)

end Occurrence

namespace UsageError

theorem firstAmong_none_eq_none_iff {before given : List Occurrence} (h : ∀ o ∈ given, o.IsOnce) :
    firstAmong before none given = none ↔ (∀ o ∈ given, o.error? [] = none) ∧ (given.map (·.arg.id)).Nodup ∧
      ∀ b ∈ before, ∀ o ∈ given, b.arg.id ≠ o.arg.id := by
  induction given generalizing before with
  | nil => simp [firstAmong]
  | cons o rest ih =>
    obtain ⟨ho, hrest⟩ := List.forall_mem_cons.1 h
    rw [firstAmong_none_cons, Option.or_eq_none_iff, Occurrence.error?_eq_none_iff ho, ih hrest]
    simp only [List.forall_mem_append, List.forall_mem_singleton, List.forall_mem_cons, List.map_cons, List.nodup_cons,
      List.mem_map, not_exists, not_and]
    grind

/-- Nothing is wrong with arguments that may be given once if nothing is with each of them, and none is given twice. -/
theorem firstAmong_eq_none_iff {given : List Occurrence} (h : ∀ o ∈ given, o.IsOnce) :
    firstAmong [] none given = none ↔ (∀ o ∈ given, o.error? [] = none) ∧ (given.map (·.arg.id)).Nodup := by
  rw [firstAmong_none_eq_none_iff h]
  simp

theorem firstAmong_congr {before before' given : List Occurrence}
    (h : ∀ o ∈ given, (before.any fun b => b.arg.id = o.arg.id) = before'.any fun b => b.arg.id = o.arg.id) :
    firstAmong before none given = firstAmong before' none given := by
  induction given generalizing before before' with
  | nil => rfl
  | cons o rest ih =>
    obtain ⟨ho, hrest⟩ := List.forall_mem_cons.1 h
    rw [firstAmong_none_cons, firstAmong_none_cons, Occurrence.error?_congr ho]
    congr 1
    refine ih fun p hp => ?_
    rw [List.any_append, List.any_append, hrest p hp]

/-- An argument with which nothing is wrong and that is not given otherwise may as well be left out. -/
theorem firstAmong_insert {o : Occurrence}
    (ho : ∀ before : List Occurrence, (∀ b ∈ before, b.arg.id ≠ o.arg.id) → o.error? before = none)
    {before front back : List Occurrence} (hbefore : ∀ b ∈ before, b.arg.id ≠ o.arg.id)
    (hgiven : ∀ b ∈ front ++ back, b.arg.id ≠ o.arg.id) :
    firstAmong before none (front ++ o :: back) = firstAmong before none (front ++ back) := by
  -- What stands in front of the argument is given before it when its turn comes.
  induction front generalizing before with
  | nil =>
    rw [List.nil_append, List.nil_append, firstAmong_none_cons, ho before hbefore, Option.none_or]
    refine firstAmong_congr fun p hp => ?_
    have hne : o.arg.id ≠ p.arg.id := (hgiven p hp).symm
    simp [hne]
  | cons p front ih =>
    obtain ⟨hp, hrest⟩ := List.forall_mem_cons.1 hgiven
    rw [List.cons_append, List.cons_append, firstAmong_none_cons, firstAmong_none_cons,
      ih (List.forall_mem_append.2 ⟨hbefore, List.forall_mem_singleton.2 hp⟩) hrest]

end UsageError

end DevWorkflow
