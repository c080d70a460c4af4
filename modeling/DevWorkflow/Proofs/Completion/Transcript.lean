import DevWorkflow.Proofs.Completion.Listing

/-!
# Declarations transcribed

The command tree that says of each command just what is declared on it (`Declaration.transcript`). If all global arguments are
options and no identifier of one is used again further down, what a command line offers is its transcript: no global argument
is listed below the command that declares it, and nothing that is generated is listed at all.
-/

namespace DevWorkflow

namespace Declaration

mutual

/-- The command tree of a declaration, with just the arguments and subcommands that are declared and visible. -/
def transcript : Declaration → CommandTree
  | { name, about, longAbout, allowExternalSubcommands, args, subcommands, .. } =>
    { name
      description := Text.visible ((about.or longAbout).getD [])
      options := (args.filter fun a => !a.isPositional && a.isListed).map (·.toOption)
      arguments := (args.filter fun a => a.isPositional && a.isListed).map (·.toArgument)
      subcommands := transcripts subcommands
      allowUnknownOption := allowExternalSubcommands || args.any fun a => a.isPositional && a.allowHyphenValues }

/-- The command trees of those of some declarations that are listed. -/
def transcripts : List Declaration → List CommandTree
  | [] => []
  | d :: rest => if d.isListed then transcript d :: transcripts rest else transcripts rest

end

theorem transcripts_eq (ds : List Declaration) : transcripts ds = (ds.filter isListed).map transcript :=
  eq_map_listed (by rw [transcripts]) (fun _ _ => by rw [transcripts]) ds

/-- The transcript of a command, with its subcommands one by one. -/
theorem transcript_eq (d : Declaration) :
    d.transcript =
      { name := d.name
        description := Text.visible ((d.about.or d.longAbout).getD [])
        options := (d.args.filter fun a => !a.isPositional && a.isListed).map (·.toOption)
        arguments := listedArguments d.args
        subcommands := (d.subcommands.filter isListed).map transcript
        allowUnknownOption := passesUnknownOptions d.allowExternalSubcommands d.args } := by
  cases d
  rw [transcript, transcripts_eq]
  rfl

/-- Whether every global argument of a command and of those below it is an option. -/
def GlobalsAreOptions (d : Declaration) : Prop := ∀ c ∈ d.commands, ∀ g ∈ globalsOf c.args, g.isPositional = false

/-- Whether no argument has the identifier of a global argument of a command above. -/
def GlobalsAreFresh (d : Declaration) : Prop :=
  ∀ c ∈ d.commands, ∀ s ∈ c.subcommands, ∀ e ∈ s.commands, ∀ g ∈ globalsOf c.args, ∀ a ∈ e.args, a.id ≠ g.id

instance (d : Declaration) : Decidable d.GlobalsAreOptions :=
  inferInstanceAs (Decidable (∀ c ∈ d.commands, ∀ g ∈ globalsOf c.args, g.isPositional = false))

instance (d : Declaration) : Decidable d.GlobalsAreFresh :=
  inferInstanceAs (Decidable (∀ c ∈ d.commands, ∀ s ∈ c.subcommands, ∀ e ∈ s.commands, ∀ g ∈ globalsOf c.args, ∀ a ∈ e.args,
    a.id ≠ g.id))

namespace GlobalsAreOptions

/-- What is said of a command's global arguments is said of its subcommands' too. -/
theorem subcommand {d s : Declaration} (h : d.GlobalsAreOptions) (hs : s ∈ d.subcommands) : s.GlobalsAreOptions :=
  fun c hc => h c (mem_commands_of_subcommand hs hc)

end GlobalsAreOptions

namespace GlobalsAreFresh

/-- What is said of a command's global arguments is said of its subcommands' too. -/
theorem subcommand {d s : Declaration} (h : d.GlobalsAreFresh) (hs : s ∈ d.subcommands) : s.GlobalsAreFresh :=
  fun c hc => h c (mem_commands_of_subcommand hs hc)

end GlobalsAreFresh

/-! ## What is handed down leaves no trace -/

/-- Options handed down are no positional arguments. -/
theorem filter_inheritArgs {own globals : List ArgDeclaration} (h : ∀ g ∈ globals, g.isPositional = false)
    (p : ArgDeclaration → Bool) :
    (inheritArgs own globals).filter (fun a => a.isPositional && p a) = own.filter fun a => a.isPositional && p a := by
  have hcopies : (globals.filter fun g => !own.any fun a => a.id = g.id).filter (fun a => a.isPositional && p a) = [] := by
    rw [List.filter_eq_nil_iff]
    intro g hg
    simp [h g (List.mem_filter.1 hg).1]
  rw [inheritArgs, List.filter_append, hcopies, List.append_nil]

/-- Options handed down do not let unknown options pass. -/
theorem passesUnknownOptions_inheritArgs {own globals : List ArgDeclaration} (h : ∀ g ∈ globals, g.isPositional = false)
    (external : Bool) : passesUnknownOptions external (inheritArgs own globals) = passesUnknownOptions external own := by
  have hcopies : ((globals.filter fun g => !own.any fun a => a.id = g.id).any fun a => a.isPositional && a.allowHyphenValues) =
      false := by
    rw [List.any_eq_false]
    intro g hg
    simp [h g (List.mem_filter.1 hg).1]
  rw [passesUnknownOptions, passesUnknownOptions, inheritArgs, List.any_append, hcopies, Bool.or_false]

/-- A command whose arguments have new identifiers lists all its visible options. -/
theorem listedOptions_of_fresh {ids : List Text} {args : List ArgDeclaration} (h : ∀ a ∈ args, a.id ∉ ids) :
    listedOptions ids args = (args.filter fun a => !a.isPositional && a.isListed).map (·.toOption) := by
  rw [listedOptions]
  refine congrArg _ (List.filter_congr fun a ha => ?_)
  simp [h a ha]

/-- A command that takes only options with new identifiers from above offers what is declared. -/
theorem listingBelow_eq_transcript (d : Declaration) {above : Above} (hsound : above.IsSound)
    (hglobals : ∀ g ∈ above.globals, g.isPositional = false) (hnew : ∀ c ∈ d.commands, ∀ a ∈ c.args, a.id ∉ above.ids)
    (hoptions : d.GlobalsAreOptions) (hfresh : d.GlobalsAreFresh) : listingBelow above d = d.transcript := by
  induction d using induction_below generalizing above with
  | step d ih =>
    have hsubcommands : (d.subcommands.filter isListed).map (listingBelow (above.enter d.args)) =
        (d.subcommands.filter isListed).map transcript := by
      refine List.map_congr_left fun s hs => ?_
      have hs : s ∈ d.subcommands := (List.mem_filter.1 hs).1
      refine ih s hs (above.isSound_enter d.args) ?_ ?_ (hoptions.subcommand hs) (hfresh.subcommand hs)
      · intro g hg
        rcases mem_inheritArgs (List.mem_filter.1 hg).1 with hown | habove
        · exact hoptions d d.mem_commands_self g (List.mem_filter.2 ⟨hown, (List.mem_filter.1 hg).2⟩)
        · exact hglobals g habove
      · intro c hc a ha hid
        rcases List.mem_append.1 hid with hid | hid
        · exact hnew c (mem_commands_of_subcommand hs hc) a ha hid
        · obtain ⟨g, hg, hga⟩ := List.mem_map.1 hid
          rcases mem_inheritArgs (List.mem_filter.1 hg).1 with hown | habove
          · exact hfresh d d.mem_commands_self s hs c hc g (List.mem_filter.2 ⟨hown, (List.mem_filter.1 hg).2⟩) a ha hga.symm
          · exact hnew c (mem_commands_of_subcommand hs hc) a ha (hga ▸ (hsound g habove).2)
    rw [listingBelow_eq, transcript_eq, listedOptions_of_fresh (hnew d d.mem_commands_self), listedArguments,
      filter_inheritArgs hglobals, hsubcommands, passesUnknownOptions_inheritArgs hglobals, ← listedArguments]

/-- What a command line offers is its transcript, if all global arguments are options and their identifiers are not used again
further down. -/
theorem survey_eq_transcript (d : Declaration) (hoptions : d.GlobalsAreOptions) (hfresh : d.GlobalsAreFresh) :
    d.survey = d.transcript := by
  rw [survey_eq_listing]
  exact listingBelow_eq_transcript d Above.isSound_root (List.forall_mem_nil _) (fun _ _ _ _ => List.not_mem_nil) hoptions
    hfresh

/-- A command line with global options on two levels, hidden parts and a version for every command. -/
def remoteLine : Declaration :=
  { name := "tool".toList
    version := some "1.0".toList
    propagateVersion := true
    args :=
      [{ id := "verbose".toList, short := some 'v', action := some .count, isGlobal := true },
        { id := "trace".toList, long := some "trace".toList, action := some .setTrue, isGlobal := true, hidden := true }]
    subcommands :=
      [{ name := "remote".toList
         args :=
          [{ id := "repo".toList, long := some "repo".toList, isGlobal := true },
            { id := "usage".toList, long := some "usage".toList, action := some .helpLong }]
         subcommands :=
          [{ name := "add".toList
             args :=
              [{ id := "name".toList, required := true },
                { id := "rest".toList, words := some ⟨0, none⟩, allowHyphenValues := true, hidden := true }] },
            { name := "prune".toList, hidden := true }] }] }

/-- Each option is listed on the command that declares it, and what is hidden is not listed. -/
theorem survey_eq_transcript_remoteLine : remoteLine.survey = remoteLine.transcript :=
  survey_eq_transcript remoteLine (by decide) (by decide)

end Declaration

end DevWorkflow
