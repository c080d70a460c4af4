import DevWorkflow.Proofs.Completion.Acceptance
import Mathlib.Data.List.Induction

/-!
# Where global options are listed

A command takes over the global arguments of the commands above it, and such copies are not listed on it. A copy is told from an
option of the command's own by the identifier, however. So an option that a command declares is listed on it just if it is visible
and, where it is global, no command above declares a global argument of the same identifier (`Declaration.mem_options_iff_declared`).
-/

namespace DevWorkflow

namespace Declaration

/-! ## Commands and those above them -/

/-- Whether a command is listed at a path, below some other commands, the first one first. -/
inductive ListedAt (d : Declaration) : List Text → List Declaration → Declaration → Prop where
  | root : ListedAt d [] [] d
  | subcommand {path : List Text} {above : List Declaration} {c s : Declaration} (h : ListedAt d path above c)
      (hs : s ∈ c.subcommands) (hlisted : s.isListed = true) : ListedAt d (path ++ [s.name]) (above ++ [c]) s

/-- A command that is listed at a path is among the commands. -/
theorem ListedAt.mem_commands {d c : Declaration} {path : List Text} {above : List Declaration} (h : d.ListedAt path above c) :
    ∀ e ∈ c.commands, e ∈ d.commands := by
  induction h with
  | root => exact fun e he => he
  | subcommand _ hs _ ih => exact fun e he => ih e (mem_commands_of_subcommand hs he)

namespace Above

/-- What some commands, each below the one before it, hand down to a command below them all. -/
def under (above : List Declaration) : Above := above.foldl (fun a e => a.enter e.args) {}

theorem under_concat (above : List Declaration) (c : Declaration) : under (above ++ [c]) = (under above).enter c.args := by
  rw [under, List.foldl_append]
  rfl

/-- What is handed down by commands is sound. -/
theorem isSound_under (above : List Declaration) : (under above).IsSound := by
  rcases List.eq_nil_or_concat above with rfl | ⟨before, c, rfl⟩
  · exact isSound_root
  · rw [List.concat_eq_append, under_concat]
    exact isSound_enter _ _

/-- Entering a command adds the identifiers of its own global arguments. -/
theorem mem_ids_enter {above : Above} (h : above.IsSound) {own : List ArgDeclaration} {id : Text} :
    id ∈ (above.enter own).ids ↔ id ∈ above.ids ∨ ∃ g ∈ globalsOf own, g.id = id := by
  rw [enter, List.mem_append, List.mem_map]
  constructor
  · rintro (hid | ⟨g, hg, rfl⟩)
    · exact .inl hid
    · obtain ⟨hg, hglobal⟩ := List.mem_filter.1 hg
      rcases mem_inheritArgs hg with hown | habove
      · exact .inr ⟨g, List.mem_filter.2 ⟨hown, hglobal⟩, rfl⟩
      · exact .inl (h g habove).2
  · rintro (hid | ⟨g, hg, rfl⟩)
    · exact .inl hid
    · obtain ⟨hg, hglobal⟩ := List.mem_filter.1 hg
      exact .inr ⟨g, List.mem_filter.2 ⟨List.mem_append_left _ hg, hglobal⟩, rfl⟩

/-- The identifiers that are handed down are those of the global arguments that the commands above declare. -/
theorem mem_ids_under {above : List Declaration} {id : Text} :
    id ∈ (under above).ids ↔ ∃ e ∈ above, ∃ g ∈ globalsOf e.args, g.id = id := by
  induction above using List.reverseRecOn with
  | nil => simp [under]
  | append_singleton before c ih =>
    rw [under_concat, mem_ids_enter (isSound_under before), ih]
    simp [or_and_right, exists_or]

end Above

/-- The node at the path of a listed command is what the command offers. -/
theorem find?_survey {d c : Declaration} (hnames : ∀ e ∈ d.commands, e.HasDistinctNames) {path : List Text}
    {above : List Declaration} (h : d.ListedAt path above c) : d.survey.find? path = some (listingBelow (.under above) c) := by
  rw [survey_eq_listing]
  induction h with
  | root => rfl
  | @subcommand path above c s h hs hlisted ih =>
    have hname : ∀ a e, (listingBelow a e).name = e.name := fun a e => by rw [listingBelow_eq]
    have hdistinct : ((listingBelow (.under above) c).subcommands.map (·.name)).Nodup := by
      have hsubcommands := (hnames c (h.mem_commands c c.mem_commands_self)).subcommands
      rw [listingBelow_eq, List.map_map]
      simp only [Function.comp_def, hname]
      exact hsubcommands.sublist (List.filter_sublist.map _)
    have hchild : listingBelow (.under (above ++ [c])) s ∈ (listingBelow (.under above) c).subcommands := by
      rw [listingBelow_eq (.under above) c, Above.under_concat]
      exact List.mem_map_of_mem (List.mem_filter.2 ⟨hs, hlisted⟩)
    have hfound : (listingBelow (.under above) c).child? s.name = some (listingBelow (.under (above ++ [c])) s) := by
      rw [← hname (.under (above ++ [c])) s]
      exact find?_eq_of_nodup hdistinct hchild
    rw [CommandTree.find?_append, ih, Option.bind_some, CommandTree.find?, hfound]
    rfl

/-! ## One command -/

/-- Options are told apart by how they are listed. -/
theorem HasDistinctNames.eq_of_toOption {c : Declaration} (h : c.HasDistinctNames) {a b : ArgDeclaration} (ha : a ∈ c.args)
    (hb : b ∈ c.args) (hap : a.isPositional = false) (hbp : b.isPositional = false) (hab : a.toOption = b.toOption) : a = b := by
  have hname : a.longName = b.longName := congrArg OptionEntry.long hab
  have hshort : (a.long.isNone && a.short.isSome) = (b.long.isNone && b.short.isSome) := congrArg OptionEntry.shortOnly hab
  rw [ArgDeclaration.isPositional] at hap hbp
  rw [ArgDeclaration.longName, ArgDeclaration.longName] at hname
  cases hal : a.long with
  | some long =>
    cases hbl : b.long with
    | some long' =>
      rw [hal, hbl] at hname
      exact h.eq_of_long ha hb hal (hbl.trans (congrArg some hname.symm))
    | none =>
      -- Only one of the two has no long form, which its listing says.
      rw [hbl] at hbp hshort
      cases hbs : b.short <;> simp_all
  | none =>
    cases hbl : b.long with
    | some long' =>
      rw [hal] at hap hshort
      cases has : a.short <;> simp_all
    | none =>
      rw [hal, hbl] at hname
      exact h.eq_of_id ha hb hname

/-- An option that a listed command declares is listed on it exactly if it is visible and, where it is global, no command above
declares a global argument of the same identifier. -/
theorem mem_options_iff_declared {d c : Declaration} (hnames : ∀ e ∈ d.commands, e.HasDistinctNames) {path : List Text}
    {above : List Declaration} (h : d.ListedAt path above c) :
    ∃ t, d.survey.find? path = some t ∧ ∀ a ∈ c.args, a.isPositional = false →
      (a.toOption ∈ t.options ↔
        a.isListed = true ∧ (a.isGlobal = true → ∀ e ∈ above, ∀ g ∈ globalsOf e.args, g.id ≠ a.id)) := by
  refine ⟨_, find?_survey hnames h, ?_⟩
  intro a ha hoption
  have hids : (Above.under above).ids.contains a.id = false ↔ ∀ e ∈ above, ∀ g ∈ globalsOf e.args, g.id ≠ a.id := by
    rw [← Bool.not_eq_true, List.contains_iff_mem, Above.mem_ids_under]
    simp
  have hlisted : a.toOption ∈ (listingBelow (.under above) c).options ↔ a ∈ c.offeredOptions (.under above) := by
    rw [listingBelow_eq, listedOptions, List.mem_map]
    constructor
    · rintro ⟨b, hb, hba⟩
      obtain ⟨hbc, hbo⟩ := List.mem_filter.1 hb
      obtain ⟨⟨hbp, -⟩, -⟩ : (b.isPositional = false ∧ b.isListed = true) ∧ _ := by simpa using hbo
      rwa [← (hnames c (h.mem_commands c c.mem_commands_self)).eq_of_toOption hbc ha hbp hoption hba]
    · exact fun hoffered => ⟨a, hoffered, rfl⟩
  rw [hlisted, offeredOptions, List.mem_filter, ← hids]
  cases a.isGlobal <;> simp [ha, hoption]

/-- A command that gives the option `verbose` other names, and has one more global option. -/
def chattyGit : Declaration :=
  { name := "git".toList
    args :=
      [{ id := "verbose".toList, long := some "chatty".toList, short := some 'c', help := some "Say more".toList,
         action := some .setTrue, isGlobal := true },
        { id := "repo".toList, long := some "repo".toList, isGlobal := true }]
    subcommands := [{ name := "commit".toList }] }

/-- A command line with the command below a global option of the same identifier. -/
def chattyLine : Declaration :=
  { name := "devx".toList
    args :=
      [{ id := "verbose".toList, long := some "verbose".toList, short := some 'v', action := some .setTrue, isGlobal := true }]
    subcommands := [chattyGit] }

theorem listedAt_chattyGit : chattyLine.ListedAt ["git".toList] [chattyLine] chattyGit :=
  ListedAt.subcommand (d := chattyLine) (s := chattyGit) .root List.mem_cons_self rfl

/-- Of the two options that the subcommand declares only the one with a new identifier is listed on it. -/
theorem mem_options_iff_declared_chatty :
    ∃ t, chattyLine.survey.find? ["git".toList] = some t ∧
      (chattyGit.args.filter fun a => decide (a.toOption ∈ t.options)).map (·.id) = ["repo".toList] := by
  obtain ⟨t, ht, hlisted⟩ := mem_options_iff_declared (d := chattyLine) (by decide +kernel) listedAt_chattyGit
  refine ⟨t, ht, ?_⟩
  have hrule : ∀ a ∈ chattyGit.args, decide (a.toOption ∈ t.options) =
      decide (a.isListed = true ∧ (a.isGlobal = true → ∀ e ∈ [chattyLine], ∀ g ∈ globalsOf e.args, g.id ≠ a.id)) :=
    fun a ha => decide_eq_decide.2 (hlisted a ha (by revert a; decide +kernel))
  rw [List.filter_congr hrule]
  decide +kernel

/-- Whether every command lists the visible global options that it declares. -/
def ListsOwnGlobals (d : Declaration) : Prop :=
  ∀ path above c, d.ListedAt path above c → ∀ a ∈ c.args, a.isGlobal = true → a.isPositional = false → a.isListed = true →
    ∃ t, d.survey.find? path = some t ∧ a.toOption ∈ t.options

/-- A global option with the identifier of one further up is not listed on the command that declares it. -/
theorem not_listsOwnGlobals_chatty : (∀ c ∈ chattyLine.commands, c.HasDistinctNames) ∧ ¬chattyLine.ListsOwnGlobals := by
  refine ⟨by decide +kernel, ?_⟩
  intro hall
  have hsurvey : chattyLine.survey.find? ["git".toList] = some (listingBelow (.under [chattyLine]) chattyGit) :=
    find?_survey (by decide +kernel) listedAt_chattyGit
  obtain ⟨t, ht, hmem⟩ := hall _ _ _ listedAt_chattyGit (chattyGit.args.head (by decide)) (List.head_mem _) rfl rfl rfl
  obtain rfl := Option.some.inj (hsurvey.symm.trans ht)
  revert hmem
  decide +kernel

end Declaration

end DevWorkflow
