import DevWorkflow.Proofs.CommandLine.Parts

/-!
# The order of positional arguments

A word of a command with nothing below it gives options, or it is the word of the next positional argument
(`Declaration.readWord_cases`). So however a line is read, the first positional argument stands before everything that is not an
option, and without it there is nothing but options (`Declaration.comesFirst_of_check`).
-/

namespace DevWorkflow

namespace Declaration

variable {d : Declaration} {r : Reader}

/-! ## Words that give options -/

/-- Whether only options are given. -/
def OptionsOnly (d : Declaration) (given : List Occurrence) : Prop := ∀ o ∈ given, o.arg ∈ d.options

theorem optionsOnly_nil (d : Declaration) : d.OptionsOnly [] := List.forall_mem_nil _

theorem optionsOnly_singleton {a : ArgDeclaration} (ha : a ∈ d.options) (value : Option Text) (attached : Bool) :
    d.OptionsOnly [⟨a, value, attached⟩] :=
  List.forall_mem_singleton.2 ha

theorem OptionsOnly.append {before given : List Occurrence} (hbefore : d.OptionsOnly before) (h : d.OptionsOnly given) :
    d.OptionsOnly (before ++ given) :=
  List.forall_mem_append.2 ⟨hbefore, h⟩

/-- Whether a reader waits for nothing but the value of an option. -/
def Awaits (d : Declaration) (r : Reader) : Prop := ∀ a ∈ r.awaiting, a ∈ d.options

theorem Awaits.unanswered (h : d.Awaits r) : d.OptionsOnly r.unanswered := by
  intro o ho
  obtain ⟨a, ha, rfl⟩ := Option.map_eq_some_iff.1 (Option.mem_toList.1 ho)
  exact h a ha

theorem awaits_none {positionals : List ArgDeclaration} {onlyPositional : Bool} : d.Awaits ⟨positionals, none, onlyPositional⟩ :=
  fun a ha => absurd ha (Option.not_mem_none a)

theorem awaits_some {positionals : List ArgDeclaration} {a : ArgDeclaration} {onlyPositional : Bool} (ha : a ∈ d.options) :
    d.Awaits ⟨positionals, some a, onlyPositional⟩ := by
  rintro _ ⟨⟩
  exact ha

theorem mem_options_of_long? {name : Text} {a : ArgDeclaration} (h : d.long? name = some a) : a ∈ d.options := by
  have hlong : a.long = some name := by simpa using List.find?_some h
  exact List.mem_filter.2 ⟨List.mem_of_find?_eq_some h, by simp [ArgDeclaration.isPositional, hlong]⟩

theorem mem_options_of_short? {c : Char} {a : ArgDeclaration} (h : d.short? c = some a) : a ∈ d.options := by
  have hshort : a.short = some c := by simpa using List.find?_some h
  exact List.mem_filter.2 ⟨List.mem_of_find?_eq_some h, by simp [ArgDeclaration.isPositional, hshort]⟩

/-- Whether a step of a reader gives only options and leaves the positional arguments as they are. -/
structure GivesOptions (d : Declaration) (r : Reader) (step : List Occurrence × Continuation) : Prop where
  given : d.OptionsOnly step.1
  stays : ∀ c, step.2 ≠ .enter c
  positionals : ∀ r', step.2 = .more r' → r'.positionals = r.positionals
  awaits : ∀ r', step.2 = .more r' → d.Awaits r'

theorem givesOptions_stop (d : Declaration) (r : Reader) (e : UsageError) : d.GivesOptions r ([], .stop e) :=
  ⟨optionsOnly_nil d, fun _ h => (nomatch h), fun _ h => (nomatch h), fun _ h => (nomatch h)⟩

theorem givesOptions_more {given : List Occurrence} (hgiven : d.OptionsOnly given) {r' : Reader}
    (hpositionals : r'.positionals = r.positionals) (hawaits : d.Awaits r') : d.GivesOptions r (given, .more r') := by
  refine ⟨hgiven, fun _ h => (nomatch h), ?_, ?_⟩
  · rintro _ ⟨⟩
    exact hpositionals
  · rintro _ ⟨⟩
    exact hawaits

theorem GivesOptions.append {before given : List Occurrence} {next : Continuation} (hbefore : d.OptionsOnly before)
    (h : d.GivesOptions r (given, next)) : d.GivesOptions r (before ++ given, next) :=
  ⟨hbefore.append h.given, h.stays, h.positionals, h.awaits⟩

/-- Letters after a dash give options. -/
theorem givesOptions_readLetters (hwait : d.Awaits r) (letters : Text) : d.GivesOptions r (d.readLetters r letters) := by
  induction letters with
  | nil => exact givesOptions_more (optionsOnly_nil d) rfl hwait
  | cons c rest ih =>
    rw [readLetters]
    cases hshort : d.short? c with
    | none => exact givesOptions_stop d r _
    | some a =>
      have ha : a ∈ d.options := mem_options_of_short? hshort
      dsimp only
      split
      · split
        · exact givesOptions_more (optionsOnly_nil d) rfl (awaits_some ha)
        · exact givesOptions_more (optionsOnly_singleton ha _ _) rfl hwait
        · exact givesOptions_more (optionsOnly_singleton ha _ _) rfl hwait
      · exact GivesOptions.append (optionsOnly_singleton ha none true) ih

/-! ## Words of positional arguments -/

theorem readLong_cases (hwait : d.Awaits r) (w name : Text) (value : Option Text) :
    d.readLong r w name value = d.readPositional r w ∨ d.GivesOptions r (d.readLong r w name value) := by
  rw [readLong]
  cases hlong : d.long? name with
  | none =>
    dsimp only
    split
    · exact .inl rfl
    · exact .inr (givesOptions_stop d r _)
  | some a =>
    have ha : a ∈ d.options := mem_options_of_long? hlong
    right
    dsimp only
    split
    · split
      · exact givesOptions_more (optionsOnly_singleton ha _ _) rfl hwait
      · exact givesOptions_more (optionsOnly_nil d) rfl (awaits_some ha)
    · split
      · exact givesOptions_stop d r _
      · exact givesOptions_more (optionsOnly_singleton ha _ _) rfl hwait

theorem readFree_cases (hleaf : d.subcommands = []) (hwait : d.Awaits r) (w : Text) (later : List Text) :
    d.readFree r w later = d.readPositional r w ∨ d.GivesOptions r (d.readFree r w later) := by
  rw [readFree, child?_of_leaf hleaf]
  split
  · exact .inl rfl
  · dsimp only
    split
    · exact .inr (givesOptions_more (optionsOnly_nil d) rfl hwait)
    · exact readLong_cases hwait w _ _
    · split
      · exact .inl rfl
      · exact .inr (givesOptions_readLetters hwait _)
    · exact .inl rfl

/-- A word is the next positional argument, perhaps after an option whose value did not come, or it gives options. -/
theorem readWord_cases (hleaf : d.subcommands = []) (hwait : d.Awaits r) (w : Text) (later : List Text) :
    (∃ before r', d.OptionsOnly before ∧ r'.positionals = r.positionals ∧ d.Awaits r' ∧
      d.readWord r w later = (before ++ (d.readPositional r' w).1, (d.readPositional r' w).2)) ∨
    d.GivesOptions r (d.readWord r w later) := by
  rw [readWord]
  cases hawaiting : r.awaiting with
  | none =>
    rcases readFree_cases hleaf hwait w later with h | h
    · exact .inl ⟨[], r, optionsOnly_nil d, rfl, hwait, h⟩
    · exact .inr h
  | some a =>
    have ha : a ∈ d.options := hwait a hawaiting
    have hnone : d.Awaits { r with awaiting := none } := awaits_none
    dsimp only
    split
    · exact .inr (givesOptions_more (optionsOnly_singleton ha _ _) rfl hnone)
    · rcases readFree_cases hleaf hnone w later with h | h
      · exact .inl ⟨r.unanswered, { r with awaiting := none }, hwait.unanswered, rfl, hnone, by rw [h]⟩
      · exact .inr (GivesOptions.append (r := r) hwait.unanswered ⟨h.given, h.stays, h.positionals, h.awaits⟩)

theorem readPositional_cons {a : ArgDeclaration} {as : List ArgDeclaration} (has : r.positionals = a :: as) (w : Text) :
    ∃ r', d.readPositional r w = ([⟨a, some w, false⟩], .more r') ∧ r'.awaiting = r.awaiting := by
  rw [readPositional, has]
  dsimp only
  refine ⟨_, rfl, ?_⟩
  split <;> rfl

theorem readPositional_nil (has : r.positionals = []) (w : Text) : ∃ e, d.readPositional r w = ([], .stop e) := by
  rw [readPositional, has]
  dsimp only
  split <;> exact ⟨_, rfl⟩

/-- No word leads from a command with nothing below it to another one. -/
theorem readWord_of_leaf (hleaf : d.subcommands = []) (hwait : d.Awaits r) (w : Text) (later : List Text) :
    (∃ given r', d.readWord r w later = (given, .more r') ∧ d.Awaits r') ∨
    ∃ given e, d.readWord r w later = (given, .stop e) := by
  rcases readWord_cases hleaf hwait w later with ⟨before, r', -, -, hwait', hread⟩ | hgives
  · rw [hread]
    cases has : r'.positionals with
    | nil =>
      obtain ⟨e, hword⟩ := readPositional_nil (d := d) has w
      exact .inr ⟨_, e, by rw [hword]⟩
    | cons a as =>
      obtain ⟨r'', hword, hawaiting⟩ := readPositional_cons (d := d) has w
      exact .inl ⟨_, r'', by rw [hword], fun b hb => hwait' b (hawaiting ▸ hb)⟩
  · rcases hread : d.readWord r w later with ⟨given, r' | c | e⟩
    · exact .inl ⟨given, r', rfl, hgives.awaits r' (by rw [hread])⟩
    · exact absurd (by rw [hread]) (hgives.stays c)
    · exact .inr ⟨given, e, rfl⟩

/-! ## Whole lines -/

/-- Whether only options are given to a command, or only options up to the given positional argument. -/
def ComesFirst (d : Declaration) (a : ArgDeclaration) (given : List Occurrence) : Prop :=
  d.OptionsOnly given ∨ ∃ before w after, given = before ++ ⟨a, some w, false⟩ :: after ∧ d.OptionsOnly before

theorem ComesFirst.append {a : ArgDeclaration} {before given : List Occurrence} (hbefore : d.OptionsOnly before)
    (h : d.ComesFirst a given) : d.ComesFirst a (before ++ given) := by
  rcases h with h | ⟨between, w, after, rfl, hbetween⟩
  · exact .inl (hbefore.append h)
  · exact .inr ⟨before ++ between, w, after, (List.append_assoc _ _ _).symm, hbefore.append hbetween⟩

theorem ends_of_give_eq_ends {o : Outline} {before given : List Occurrence} (h : o.give before = .ends d given) :
    ∃ after, o = .ends d after ∧ given = before ++ after := by
  cases o with
  | ends c after =>
    rw [Outline.give] at h
    injection h with hc hgiven
    exact ⟨after, by rw [hc], hgiven.symm⟩
  | stops c after e => cases h
  | enters c after below => cases h

theorem outlineFrom_of_leaf (hleaf : d.subcommands = []) (hwait : d.Awaits r) (ws : List Text) :
    ∃ given, d.outlineFrom r ws = .ends d given ∨ ∃ e, d.outlineFrom r ws = .stops d given e := by
  induction ws generalizing r with
  | nil => exact ⟨_, .inl rfl⟩
  | cons w ws ih =>
    rcases readWord_of_leaf hleaf hwait w ws with ⟨given, r', hread, hwait'⟩ | ⟨given, e, hread⟩
    · rw [outlineFrom_cons_more hread]
      obtain ⟨after, h | ⟨e, h⟩⟩ := ih hwait'
      · exact ⟨given ++ after, .inl (by rw [h]; rfl)⟩
      · exact ⟨given ++ after, .inr ⟨e, by rw [h]; rfl⟩⟩
    · exact ⟨given, .inr ⟨e, by rw [outlineFrom, hread]⟩⟩

theorem comesFirst_outlineFrom (hleaf : d.subcommands = []) {a : ArgDeclaration} {as : List ArgDeclaration}
    (hwait : d.Awaits r) (has : r.positionals = a :: as) {ws : List Text} {given : List Occurrence}
    (h : d.outlineFrom r ws = .ends d given) : d.ComesFirst a given := by
  -- Until the first positional argument comes, it stays the next one; what comes after it does not matter.
  induction ws generalizing r given with
  | nil =>
    obtain rfl : r.unanswered = given := by
      rw [outlineFrom] at h
      injection h
    exact .inl hwait.unanswered
  | cons w ws ih =>
    rcases readWord_cases hleaf hwait w ws with ⟨before, r', hbefore, hpositionals, -, hread⟩ | hgives
    · obtain ⟨r'', hword, -⟩ := readPositional_cons (d := d) (hpositionals.trans has) w
      rw [hword] at hread
      rw [outlineFrom_cons_more hread] at h
      obtain ⟨after, -, rfl⟩ := ends_of_give_eq_ends h
      exact .inr ⟨before, w, after, List.append_assoc _ _ _, hbefore⟩
    · rcases hread : d.readWord r w ws with ⟨before, r' | c | e⟩
      · rw [outlineFrom_cons_more hread] at h
        obtain ⟨after, hafter, rfl⟩ := ends_of_give_eq_ends h
        rw [hread] at hgives
        exact (ih (hgives.awaits r' rfl) ((hgives.positionals r' rfl).trans has) hafter).append hgives.given
      · exact absurd (by rw [hread]) (hgives.stays c)
      · rw [outlineFrom, hread] at h
        cases h

/-- What is given to a command with nothing below it has the first positional argument before the others. -/
theorem comesFirst_of_check (hleaf : d.subcommands = []) {a : ArgDeclaration} {as : List ArgDeclaration}
    (has : d.positionals = a :: as) {ws : List Text} {g : Given} (h : (d.outline ws).check = .ok g) :
    g.path = [] ∧ d.ComesFirst a g.last := by
  have hwait : d.Awaits (.start d) := awaits_none
  rw [outline] at h
  obtain ⟨given, hends | ⟨e, hstops⟩⟩ := outlineFrom_of_leaf hleaf hwait ws
  · have hfirst := comesFirst_outlineFrom hleaf hwait has hends
    rw [hends, Outline.check] at h
    split at h
    · cases h
    · split at h
      · obtain rfl := Except.ok.inj h
        exact ⟨rfl, hfirst⟩
      · cases h
  · rw [hstops] at h
    cases h

end Declaration

end DevWorkflow
