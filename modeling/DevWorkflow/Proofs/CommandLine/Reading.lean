import DevWorkflow.CommandLine.Parse
import DevWorkflow.Completion.Survey

/-!
# Reading a command word by word

How the words of a command are read when each option is given by its long form, with its value behind an equals sign, and the
positional words come after two dashes. What is given for an option or for a positional argument is a part of the outline
(`Part`); the statements say which parts the words make.
-/

namespace DevWorkflow

/-! ## Outlines -/

namespace Outline

@[simp] theorem give_nil (o : Outline) : o.give [] = o := by cases o <;> rfl

/-- Arguments in front of arguments in front. -/
theorem give_give (before between : List Occurrence) (o : Outline) :
    (o.give between).give before = o.give (before ++ between) := by
  cases o <;> simp [give]

end Outline

namespace Declaration

/-- A word after which more words of the command follow. -/
theorem outlineFrom_cons_more {d : Declaration} {r r' : Reader} {w : Text} {ws : List Text} {given : List Occurrence}
    (h : d.readWord r w ws = (given, .more r')) : d.outlineFrom r (w :: ws) = (d.outlineFrom r' ws).give given := by
  rw [outlineFrom, h]

/-- A word after which the words of a subcommand follow. -/
theorem outlineFrom_cons_enter {d c : Declaration} {r : Reader} {w : Text} {ws : List Text} {given : List Occurrence}
    (h : d.readWord r w ws = (given, .enter c)) : d.outlineFrom r (w :: ws) = .enters d given (c.outline ws) := by
  rw [outlineFrom, h]
  rfl

/-- The outline of a command's words begins with the command. -/
theorem command_outlineFrom (d : Declaration) (r : Reader) (ws : List Text) : (d.outlineFrom r ws).command = d := by
  induction ws generalizing r with
  | nil => rfl
  | cons w ws ih =>
    rcases h : d.readWord r w ws with ⟨given, next⟩
    cases next with
    | more r' =>
      rw [outlineFrom_cons_more h]
      have := ih r'
      cases ho : d.outlineFrom r' ws <;> simpa [ho, Outline.give, Outline.command] using this
    | enter c => rw [outlineFrom_cons_enter h]; rfl
    | stop e => rw [outlineFrom, h]; rfl

/-- A command without subcommands takes no word for one. -/
theorem child?_of_leaf {d : Declaration} (h : d.subcommands = []) (w : Text) : d.child? w = none := by
  rw [child?, h]
  rfl

end Declaration

/-! ## Options -/

/-- What is given for an option: nothing, the option alone, or the option with a value. -/
inductive Giving where
  | absent
  | alone
  | value (v : Text)

namespace Giving

/-- A flag, if it is set. -/
def ofFlag : Bool → Giving
  | true => alone
  | false => absent

/-- A value, if there is one. -/
def ofValue : Option Text → Giving
  | some v => value v
  | none => absent

/-- The words by which an option with the given long form is given. -/
def words (name : Text) : Giving → List Text
  | absent => []
  | alone => ["--".toList ++ name]
  | value v => ["--".toList ++ (name ++ '=' :: v)]

/-- How the option then stands on the line. -/
def occurrences (a : ArgDeclaration) : Giving → List Occurrence
  | absent => []
  | alone => [⟨a, none, true⟩]
  | value v => [⟨a, some v, true⟩]

/-- Whether an option may be given like that. -/
def Suits (a : ArgDeclaration) : Giving → Prop
  | absent => True
  | alone => a.effectiveAction = .setTrue
  | value v => a.effectiveAction = .set ∧ a.effectiveValues.accepts v = true

end Giving

namespace WordShape

/-- No character of a name without an equals sign ends it. -/
theorem ne_of_not_mem {name : Text} (h : '=' ∉ name) : ∀ c ∈ name, decide (c ≠ '=') = true := by
  intro c hc
  rw [decide_eq_true_eq]
  rintro rfl
  exact h hc

/-- A name without an equals sign ends at the first one. -/
theorem splitValue_append {name : Text} (h : '=' ∉ name) (v : Text) : splitValue (name ++ '=' :: v) = (name, some v) := by
  have hdrop : (name ++ '=' :: v).dropWhile (· ≠ '=') = '=' :: v := by
    rw [List.dropWhile_append_of_pos (ne_of_not_mem h)]
    rfl
  have htake : (name ++ '=' :: v).takeWhile (· ≠ '=') = name := by
    rw [List.takeWhile_append_of_pos (ne_of_not_mem h)]
    exact List.append_nil name
  rw [splitValue, hdrop]
  simp only [htake]

/-- A name without an equals sign comes without a value. -/
theorem splitValue_of_not_mem {name : Text} (h : '=' ∉ name) : splitValue name = (name, none) := by
  have hdrop : (name ++ []).dropWhile (· ≠ '=') = [] := List.dropWhile_append_of_pos (ne_of_not_mem h)
  rw [List.append_nil] at hdrop
  rw [splitValue, hdrop]

/-- Two dashes before anything make a long option. -/
theorem of_dashes_append {t : Text} (h : t ≠ []) :
    of ("--".toList ++ t) = long (splitValue t).1 (splitValue t).2 := by
  cases t with
  | nil => exact absurd rfl h
  | cons c rest => rfl

end WordShape

/-- The long form of an argument names it, among the arguments of a command. -/
structure Declaration.Names (d : Declaration) (a : ArgDeclaration) : Prop where
  found : d.long? a.longName = some a
  ne_nil : a.longName ≠ []
  not_mem : '=' ∉ a.longName

namespace Declaration

/-- A word for which no option waits and that names no subcommand is read by its shape, unless only positional words follow. -/
theorem readWord_of_no_child {d : Declaration} {r : Reader} {w : Text} (hwait : r.awaiting = none)
    (honly : r.onlyPositional = false) (hchild : d.child? w = none) (later : List Text) :
    d.readWord r w later =
      match WordShape.of w with
      | .dashes => ([], .more { r with onlyPositional := true })
      | .long name value => d.readLong r w name value
      | .short letters =>
        if r.allowsHyphens && letters.any fun c => (d.short? c).isNone then d.readPositional r w
        else d.readLetters r letters
      | .plain => d.readPositional r w := by
  obtain ⟨positionals, awaiting, onlyPositional⟩ := r
  simp only at hwait honly
  subst hwait honly
  simp only [readWord, readFree, hchild]
  rfl

/-- The words for an option make it stand on the line. -/
theorem outlineFrom_giving {d : Declaration} {r : Reader} {a : ArgDeclaration} {g : Giving} (hwait : r.awaiting = none)
    (honly : r.onlyPositional = false) (hchild : ∀ w ∈ g.words a.longName, d.child? w = none) (hname : d.Names a)
    (hsuits : g.Suits a) (ws : List Text) :
    d.outlineFrom r (g.words a.longName ++ ws) = (d.outlineFrom r ws).give (g.occurrences a) := by
  cases g with
  | absent => exact (Outline.give_nil _).symm
  | alone =>
    have hshape : WordShape.of ("--".toList ++ a.longName) = .long a.longName none := by
      rw [WordShape.of_dashes_append hname.ne_nil, WordShape.splitValue_of_not_mem hname.not_mem]
    have hread : d.readLong r ("--".toList ++ a.longName) a.longName none = ([⟨a, none, true⟩], .more r) := by
      have htakes : a.takesValues = false := by
        rw [ArgDeclaration.takesValues, show a.effectiveAction = .setTrue from hsuits]
        rfl
      simp [readLong, hname.found, htakes]
    refine outlineFrom_cons_more ?_
    rw [readWord_of_no_child hwait honly (hchild _ (by simp [Giving.words])), hshape]
    dsimp only
    rw [hread]
    rfl
  | value v =>
    have hshape : WordShape.of ("--".toList ++ (a.longName ++ '=' :: v)) = .long a.longName (some v) := by
      rw [WordShape.of_dashes_append (by simp), WordShape.splitValue_append hname.not_mem]
    have hread : d.readLong r ("--".toList ++ (a.longName ++ '=' :: v)) a.longName (some v) =
        ([⟨a, some v, true⟩], .more r) := by
      have htakes : a.takesValues = true := by
        rw [ArgDeclaration.takesValues, show a.effectiveAction = .set from hsuits.1]
        rfl
      simp [readLong, hname.found, htakes]
    refine outlineFrom_cons_more ?_
    rw [readWord_of_no_child hwait honly (hchild _ (by simp [Giving.words])), hshape]
    dsimp only
    rw [hread]
    rfl

/-- The words for some options make them stand on the line, one after another. -/
theorem outlineFrom_options {d : Declaration} {r : Reader} (hleaf : d.subcommands = []) (hwait : r.awaiting = none)
    (honly : r.onlyPositional = false) {options : List (ArgDeclaration × Giving)} (hnames : ∀ x ∈ options, d.Names x.1)
    (hsuits : ∀ x ∈ options, x.2.Suits x.1) (ws : List Text) :
    d.outlineFrom r ((options.flatMap fun x => x.2.words x.1.longName) ++ ws) =
      (d.outlineFrom r ws).give (options.flatMap fun x => x.2.occurrences x.1) := by
  induction options with
  | nil => exact (Outline.give_nil _).symm
  | cons x rest ih =>
    have hx := outlineFrom_giving hwait honly (fun w _ => child?_of_leaf hleaf w) (hnames x (by simp)) (hsuits x (by simp))
    rw [List.flatMap_cons, List.append_assoc, hx, ih (fun y hy => hnames y (by simp [hy])) fun y hy => hsuits y (by simp [hy]),
      Outline.give_give, List.flatMap_cons]

end Declaration

/-! ## Positional words -/

/-- An argument of a command with what is given for it. -/
structure Part where
  arg : ArgDeclaration
  given : List Occurrence

namespace Part

/-- An option with what is given for it. -/
def ofGiving (a : ArgDeclaration) (g : Giving) : Part := ⟨a, g.occurrences a⟩

/-- A positional argument with its words. -/
def ofWords (a : ArgDeclaration) (ws : List Text) : Part := ⟨a, ws.map fun w => ⟨a, some w, false⟩⟩

/-- Without words nothing is given. -/
theorem given_ofWords_nil {as : List ArgDeclaration} {wss : List (List Text)} (h : ∀ ws ∈ wss, ws = []) :
    (as.zipWith ofWords wss).flatMap (·.given) = [] := by
  induction wss generalizing as with
  | nil => simp
  | cons ws rest ih =>
    cases as with
    | nil => rfl
    | cons a as =>
      rw [List.zipWith_cons_cons, List.flatMap_cons, ih fun ws hws => h ws (List.mem_cons_of_mem _ hws), h ws (by simp)]
      rfl

end Part

/-- Whether some words, as many for each positional argument as there are in its list, are read as the words of these arguments:
one for each, up to one that takes all the rest. -/
inductive OperandsFit : List ArgDeclaration → List (List Text) → Prop where
  | none {as : List ArgDeclaration} {wss : List (List Text)} : (∀ ws ∈ wss, ws = []) → OperandsFit as wss
  | one {a : ArgDeclaration} {as : List ArgDeclaration} {wss : List (List Text)} (w : Text) : a.effectiveAction = .set →
      a.effectiveValues.accepts w = true → OperandsFit as wss → OperandsFit (a :: as) ([w] :: wss)
  | all {a : ArgDeclaration} (ws : List Text) : a.effectiveAction = .append → OperandsFit [a] [ws]

namespace Declaration

/-- Where only positional words follow, the next one belongs to the next argument. -/
theorem readWord_positional {d : Declaration} {r : Reader} {a : ArgDeclaration} {as : List ArgDeclaration}
    (hwait : r.awaiting = none) (honly : r.onlyPositional = true) (has : r.positionals = a :: as) (w : Text)
    (later : List Text) :
    d.readWord r w later =
      ([⟨a, some w, false⟩], .more (if a.effectiveAction = .append then r else { r with positionals := as })) := by
  obtain ⟨positionals, awaiting, onlyPositional⟩ := r
  simp only at hwait honly has
  subst hwait honly has
  simp [readWord, readFree, readPositional]

/-- The words of positional arguments make them stand on the line. -/
theorem outlineFrom_operands {d : Declaration} {as : List ArgDeclaration} {wss : List (List Text)} (hfit : OperandsFit as wss)
    {r : Reader} (hwait : r.awaiting = none) (honly : r.onlyPositional = true) (has : r.positionals = as) :
    d.outlineFrom r wss.flatten = .ends d ((as.zipWith Part.ofWords wss).flatMap (·.given)) := by
  induction hfit generalizing r with
  | @none as wss hnone =>
    have hwords : wss.flatten = [] := List.flatten_eq_nil_iff.2 hnone
    rw [hwords, Part.given_ofWords_nil hnone, outlineFrom, Reader.unanswered, hwait]
    rfl
  | @one a as wss w haction _ _ ih =>
    have hread := readWord_positional (d := d) hwait honly has w wss.flatten
    rw [if_neg (by simp [haction])] at hread
    have hrest := ih (r := { r with positionals := as }) hwait honly rfl
    rw [List.flatten_cons, List.singleton_append, outlineFrom_cons_more hread, hrest]
    rfl
  | @all a ws haction =>
    rw [List.flatten_singleton]
    induction ws with
    | nil =>
      rw [outlineFrom, Reader.unanswered, hwait]
      rfl
    | cons w ws ih =>
      have hread := readWord_positional (d := d) hwait honly has w ws
      rw [if_pos haction] at hread
      rw [outlineFrom_cons_more hread, ih]
      rfl

/-- After two dashes only positional words follow. -/
theorem readWord_dashes {d : Declaration} {r : Reader} (hleaf : d.subcommands = []) (hwait : r.awaiting = none)
    (honly : r.onlyPositional = false) (later : List Text) :
    d.readWord r "--".toList later = ([], .more { r with onlyPositional := true }) := by
  rw [readWord_of_no_child hwait honly (child?_of_leaf hleaf _)]
  rfl

end Declaration

end DevWorkflow
