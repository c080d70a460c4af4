import DevWorkflow.Proofs.Completion.Listing
import DevWorkflow.Proofs.Completion.Validity
import Mathlib.Data.List.Nodup
import Mathlib.Data.List.Pairwise

/-!
# Which command lines can be written as scripts

The names of a command line can be told apart by its reader: identifiers, long forms and short forms are different within a
command, and so are the names of subcommands. The scripts ask for more. They know an option without a long form by its
identifier, which may be the long form of another option, and they let only the last positional argument take several words.
What a command line offers has no defect exactly if its commands keep to these two rules (`Declaration.defect?_survey_eq_none_iff`).
-/

namespace DevWorkflow

namespace ArgDeclaration

/-- The fields of an option agree, however it is declared. -/
theorem isCoherent_toOption (a : ArgDeclaration) : a.toOption.IsCoherent := by
  refine ⟨?_, ?_⟩
  · intro h
    exact ((Bool.and_eq_true _ _).mp h).2
  · rw [toOption]
    cases a.takesValues <;> rfl

end ArgDeclaration

namespace Declaration

/-! ## The commands that are offered -/

/-- Whether the arguments of a command and its subcommands are told apart by their names. -/
structure HasDistinctNames (d : Declaration) : Prop where
  ids : (d.args.map (·.id)).Nodup
  longs : (d.args.filterMap (·.long)).Nodup
  shorts : (d.args.filterMap (·.short)).Nodup
  subcommands : (d.subcommands.map (·.name)).Nodup
  named : ∀ s ∈ d.subcommands, s.name ≠ []

instance (d : Declaration) : Decidable d.HasDistinctNames :=
  decidable_of_iff ((d.args.map (·.id)).Nodup ∧ (d.args.filterMap (·.long)).Nodup ∧ (d.args.filterMap (·.short)).Nodup ∧
      (d.subcommands.map (·.name)).Nodup ∧ ∀ s ∈ d.subcommands, s.name ≠ [])
    ⟨fun ⟨ids, longs, shorts, subcommands, named⟩ => ⟨ids, longs, shorts, subcommands, named⟩,
      fun h => ⟨h.ids, h.longs, h.shorts, h.subcommands, h.named⟩⟩

mutual

/-- The commands that are listed at and below a command, each with what is handed down to it. -/
def offeredBelow (above : Above) : Declaration → List (Above × Declaration)
  | d@{ args, subcommands, .. } => (above, d) :: offeredAllBelow (above.enter args) subcommands

/-- The commands that are listed among some commands and below them. -/
def offeredAllBelow (above : Above) : List Declaration → List (Above × Declaration)
  | [] => []
  | d :: rest => if d.isListed then offeredBelow above d ++ offeredAllBelow above rest else offeredAllBelow above rest

end

theorem offeredAllBelow_eq (above : Above) (ds : List Declaration) :
    offeredAllBelow above ds = (ds.filter isListed).flatMap (offeredBelow above) :=
  eq_flatMap_listed (by rw [offeredAllBelow]) (fun _ _ => by rw [offeredAllBelow]) ds

/-- The commands listed below a command come after it. -/
theorem offeredBelow_eq (above : Above) (d : Declaration) :
    offeredBelow above d = (above, d) :: (d.subcommands.filter isListed).flatMap (offeredBelow (above.enter d.args)) := by
  cases d
  rw [offeredBelow, offeredAllBelow_eq]

/-- The commands that a command line offers, each with what is handed down to it. -/
def offered (d : Declaration) : List (Above × Declaration) := offeredBelow {} d

/-- The commands of the listing are those offered, each as it is listed. -/
theorem commands_listingBelow (above : Above) (d : Declaration) :
    (listingBelow above d).commands = (offeredBelow above d).map fun x => listingBelow x.1 x.2 := by
  induction d using induction_below generalizing above with
  | step d ih =>
    have hbelow : ((d.subcommands.filter isListed).map (listingBelow (above.enter d.args))).flatMap CommandTree.commands =
        ((d.subcommands.filter isListed).flatMap (offeredBelow (above.enter d.args))).map fun x => listingBelow x.1 x.2 := by
      rw [List.flatMap_map, List.map_flatMap]
      exact List.flatMap_congr fun s hs => ih s (List.mem_filter.1 hs).1 _
    rw [CommandTree.commands_eq, offeredBelow_eq, List.map_cons, ← hbelow, listingBelow_eq]

/-- A command that is offered is among the commands, and it has a name if the first one has. -/
theorem mem_offeredBelow {d : Declaration} (hnames : ∀ c ∈ d.commands, c.HasDistinctNames) (hname : d.name ≠ [])
    {above : Above} {x : Above × Declaration} (hx : x ∈ offeredBelow above d) : x.2.HasDistinctNames ∧ x.2.name ≠ [] := by
  induction d using induction_below generalizing above with
  | step d ih =>
    rw [offeredBelow_eq] at hx
    rcases List.mem_cons.1 hx with rfl | hx
    · exact ⟨hnames d d.mem_commands_self, hname⟩
    · obtain ⟨s, hs, hx⟩ := List.mem_flatMap.1 hx
      have hs : s ∈ d.subcommands := (List.mem_filter.1 hs).1
      exact ih s hs (fun c hc => hnames c (mem_commands_of_subcommand hs hc))
        ((hnames d d.mem_commands_self).named s hs) hx

/-! ## One command -/

/-- The options of a command that are listed on it. -/
def offeredOptions (above : Above) (d : Declaration) : List ArgDeclaration :=
  d.args.filter fun a => !a.isPositional && a.isListed && !(a.isGlobal && above.ids.contains a.id)

/-- The positional arguments that are listed on a command. -/
def offeredArguments (above : Above) (d : Declaration) : List ArgDeclaration :=
  (inheritArgs d.args above.globals).filter fun a => a.isPositional && a.isListed

/-- Whether no listed option without a long form has the long form of another one as its identifier. -/
def ShortOnlyApart (above : Above) (d : Declaration) : Prop :=
  ∀ a ∈ d.offeredOptions above, ∀ b ∈ d.offeredOptions above, a.long = none → b.long ≠ some a.id

instance (above : Above) (d : Declaration) : Decidable (d.ShortOnlyApart above) :=
  inferInstanceAs (Decidable (∀ a ∈ d.offeredOptions above, ∀ b ∈ d.offeredOptions above, a.long = none → b.long ≠ some a.id))

/-- Whether no listed positional argument that may have several values comes before another one. -/
def SeveralOnlyLast (above : Above) (d : Declaration) : Prop :=
  ∀ a ∈ (d.offeredArguments above).dropLast, a.isVariadic = false

instance (above : Above) (d : Declaration) : Decidable (d.SeveralOnlyLast above) :=
  inferInstanceAs (Decidable (∀ a ∈ (d.offeredArguments above).dropLast, a.isVariadic = false))

/-- Long forms lead to one argument each. -/
theorem HasDistinctNames.eq_of_long {d : Declaration} (h : d.HasDistinctNames) {a b : ArgDeclaration} (ha : a ∈ d.args)
    (hb : b ∈ d.args) {long : Text} (hal : a.long = some long) (hbl : b.long = some long) : a = b := by
  by_contra hne
  let R : ArgDeclaration → ArgDeclaration → Prop := fun x y => ∀ s, x.long = some s → ∀ t, y.long = some t → s ≠ t
  have hsymm : Std.Symm R := ⟨fun x y hxy t ht s hs hts => hxy s hs t ht hts.symm⟩
  have hpairwise : d.args.Pairwise R := List.pairwise_filterMap.1 h.longs
  exact hpairwise.forall ha hb hne long hal long hbl rfl

/-- Identifiers lead to one argument each. -/
theorem HasDistinctNames.eq_of_id {d : Declaration} (h : d.HasDistinctNames) {a b : ArgDeclaration} (ha : a ∈ d.args)
    (hb : b ∈ d.args) (hid : a.id = b.id) : a = b :=
  List.inj_on_of_nodup_map h.ids ha hb hid

/-- The listed options have different names exactly if those without a long form keep apart from the others. -/
theorem nodup_longName_iff {d : Declaration} (h : d.HasDistinctNames) (above : Above) :
    ((d.offeredOptions above).map (·.longName)).Nodup ↔ d.ShortOnlyApart above := by
  constructor
  · intro hnodup a ha b hb hal hbl
    have hname : a.longName = b.longName := by rw [ArgDeclaration.longName, ArgDeclaration.longName, hal, hbl]; rfl
    have hab : a = b := List.inj_on_of_nodup_map hnodup ha hb hname
    rw [hab, hbl] at hal
    exact nomatch hal
  · intro hapart
    have hoptions : (d.offeredOptions above).Nodup := (List.Nodup.of_map _ h.ids).filter _
    refine hoptions.map_on fun a ha b hb hname => ?_
    have hda := (List.mem_filter.1 ha).1
    have hdb := (List.mem_filter.1 hb).1
    rw [ArgDeclaration.longName, ArgDeclaration.longName] at hname
    cases hal : a.long with
    | none =>
      cases hbl : b.long with
      | none => exact h.eq_of_id hda hdb (by simpa [hal, hbl] using hname)
      | some t => exact absurd (by simpa [hal, hbl] using hname.symm) (hbl ▸ hapart a ha b hb hal)
    | some s =>
      cases hbl : b.long with
      | none => exact absurd (by simpa [hal, hbl] using hname) (hal ▸ hapart b hb a ha hbl)
      | some t =>
        have hst : s = t := by simpa [hal, hbl] using hname
        exact h.eq_of_long hda hdb hal (hst ▸ hbl)

/-- A command is listed as a well-formed one exactly if it has a name and its arguments keep to the two rules. -/
theorem isWellFormed_listingBelow_iff {d : Declaration} (h : d.HasDistinctNames) (above : Above) :
    (listingBelow above d).IsWellFormed ↔ d.name ≠ [] ∧ d.ShortOnlyApart above ∧ d.SeveralOnlyLast above := by
  have hlongs : ((listingBelow above d).options.map (·.long)) = (d.offeredOptions above).map (·.longName) := by
    rw [listingBelow_eq, listedOptions, List.map_map]
    rfl
  have hlast : (∀ a ∈ (listingBelow above d).arguments.dropLast, a.variadic = false) ↔ d.SeveralOnlyLast above := by
    rw [listingBelow_eq, listedArguments, ← List.map_dropLast, List.forall_mem_map]
    rfl
  have hsubcommands : (listingBelow above d).subcommands.map (·.name) = (d.subcommands.filter isListed).map (·.name) := by
    rw [listingBelow_eq, List.map_map]
    exact List.map_congr_left fun s _ => by rw [Function.comp_apply, listingBelow_eq]
  constructor
  · intro hwell
    refine ⟨?_, ?_, hlast.1 hwell.onlyLast⟩
    · have hnamed := hwell.named
      rwa [listingBelow_eq] at hnamed
    · rw [← nodup_longName_iff h, ← hlongs]
      exact hwell.longs
  · rintro ⟨hname, hapart, hseveral⟩
    refine ⟨?_, ?_, ?_, hlast.2 hseveral, ?_, ?_⟩
    · rwa [listingBelow_eq]
    · rw [hlongs]
      exact (nodup_longName_iff h above).2 hapart
    · rw [listingBelow_eq]
      intro o ho
      obtain ⟨a, -, rfl⟩ := List.mem_map.1 ho
      exact a.isCoherent_toOption
    · rw [hsubcommands]
      exact h.subcommands.sublist (List.filter_sublist.map _)
    · intro c hc
      have hmem : c.name ∈ (d.subcommands.filter isListed).map (·.name) := hsubcommands ▸ List.mem_map_of_mem hc
      obtain ⟨s, hs, hsc⟩ := List.mem_map.1 hmem
      have hlisted := (List.mem_filter.1 hs).2
      rw [isListed, Bool.and_eq_true, decide_eq_true_eq] at hlisted
      exact hsc ▸ hlisted.1

/-! ## The whole command line -/

/-- What a command line with distinct names offers has no defect exactly if the command line has a name, no listed option
without a long form has the long form of another one on its command as its identifier, and no listed positional argument that
may have several values comes before another one. -/
theorem defect?_survey_eq_none_iff (d : Declaration) (hnames : ∀ c ∈ d.commands, c.HasDistinctNames) :
    d.survey.defect? = none ↔
      d.name ≠ [] ∧ ∀ x ∈ d.offered, x.2.ShortOnlyApart x.1 ∧ x.2.SeveralOnlyLast x.1 := by
  rw [survey_eq_listing, listing, CommandTree.defect?_eq_none_iff, commands_listingBelow, List.forall_mem_map]
  constructor
  · intro hall
    have hroot := hall ({}, d) (by rw [offeredBelow_eq]; exact List.mem_cons_self)
    have hname := ((isWellFormed_listingBelow_iff (hnames d d.mem_commands_self) {}).1 hroot).1
    refine ⟨hname, fun x hx => ?_⟩
    exact ((isWellFormed_listingBelow_iff (mem_offeredBelow hnames hname hx).1 x.1).1 (hall x hx)).2
  · rintro ⟨hname, hrules⟩ x hx
    obtain ⟨hdistinct, hxname⟩ := mem_offeredBelow hnames hname hx
    exact (isWellFormed_listingBelow_iff hdistinct x.1).2 ⟨hxname, hrules x hx⟩

/-- A command line with a short option on its own, a global option and a hidden command. -/
def archiveLine : Declaration :=
  { name := "archive".toList
    args :=
      [{ id := "quiet".toList, short := some 'q', action := some .setTrue, isGlobal := true },
        { id := "level".toList, long := some "level".toList, short := some 'l' }]
    subcommands :=
      [{ name := "pack".toList
         args :=
          [{ id := "target".toList, required := true },
            { id := "sources".toList, required := true, words := some ⟨1, none⟩ }] },
        { name := "purge".toList
          hidden := true
          args :=
            [{ id := "what".toList, words := some ⟨1, none⟩, required := true }, { id := "where".toList, required := true }] }] }

/-- Where listed arguments keep to the two rules, what is hidden may break them. -/
theorem defect?_survey_archiveLine : archiveLine.survey.defect? = none :=
  (defect?_survey_eq_none_iff archiveLine (by decide)).2 (by decide)

/-- Whether the positional arguments of a command can be told apart by their places: required ones come first, and one that may
have several values is the last one, or the last but one before a required one. -/
def PositionalsInOrder (d : Declaration) : Prop :=
  d.positionals.Pairwise (fun a b => b.required = true → a.required = true) ∧
    (∀ a ∈ d.positionals.dropLast.dropLast, a.isVariadic = false) ∧
    ∀ a ∈ d.positionals.dropLast, a.isVariadic = true → ∀ b ∈ d.positionals.getLast?, b.required = true

instance (d : Declaration) : Decidable d.PositionalsInOrder :=
  inferInstanceAs (Decidable (_ ∧ _ ∧ _))

/-- A command line with a short option whose identifier is the long form of another option. -/
def lookalikeLine : Declaration :=
  { name := "tool".toList
    args :=
      [{ id := "extract".toList, long := some "x".toList, action := some .setTrue },
        { id := "x".toList, short := some 'y', action := some .setTrue }] }

/-- A command line with several sources before the one target. -/
def copyLine : Declaration :=
  { name := "copy".toList
    args :=
      [{ id := "sources".toList, required := true, words := some ⟨1, none⟩ }, { id := "target".toList, required := true }] }

/-- Names and places that can be told apart are not enough: either rule may be broken by itself. -/
theorem defect?_survey_lookalikeLine_copyLine :
    ((∀ c ∈ lookalikeLine.commands, c.HasDistinctNames ∧ c.PositionalsInOrder) ∧
      lookalikeLine.survey.defect? = some (.duplicateOption "x".toList ["tool".toList])) ∧
    (∀ c ∈ copyLine.commands, c.HasDistinctNames ∧ c.PositionalsInOrder) ∧
      copyLine.survey.defect? = some (.variadicNotLast "sources".toList ["copy".toList]) := by
  decide

end Declaration

end DevWorkflow
