import DevWorkflow.Completion.Survey

/-!
# Listing a declaration as it is declared

`Declaration.survey` reads a resolved declaration, in which each command has the global arguments of the commands above and the
generated help and version besides its own arguments. `Declaration.listing` says the same of the declaration as it is declared:
the options of a command are its own, and its positional arguments are its own and the global ones handed down
(`Declaration.survey_eq_listing`).
-/

namespace DevWorkflow

namespace Declaration

/-! ## Commands below a command -/

mutual

/-- A statement about every declaration may be proved from the same about its subcommands. -/
theorem induction_below {P : Declaration → Prop} (step : ∀ d, (∀ s ∈ d.subcommands, P s) → P d) (d : Declaration) : P d := by
  obtain ⟨name, about, longAbout, version, hidden, external, noHelpCommand, noHelpFlag, propagate, args, subcommands⟩ := d
  exact step _ (induction_below_all step subcommands)

theorem induction_below_all {P : Declaration → Prop} (step : ∀ d, (∀ s ∈ d.subcommands, P s) → P d)
    (ds : List Declaration) : ∀ s ∈ ds, P s := by
  cases ds with
  | nil => exact List.forall_mem_nil _
  | cons d rest => exact List.forall_mem_cons.2 ⟨induction_below step d, induction_below_all step rest⟩

end

mutual

/-- A command and all commands below it, each before those below it. -/
def commands : Declaration → List Declaration
  | d@{ subcommands, .. } => d :: commandsOfAll subcommands

/-- Some commands and all commands below them. -/
def commandsOfAll : List Declaration → List Declaration
  | [] => []
  | d :: rest => commands d ++ commandsOfAll rest

end

theorem commandsOfAll_eq (ds : List Declaration) : commandsOfAll ds = ds.flatMap commands := by
  induction ds with
  | nil => rfl
  | cons d rest ih => rw [commandsOfAll, ih, List.flatMap_cons]

/-- The commands below a command come after it. -/
theorem commands_eq (d : Declaration) : d.commands = d :: d.subcommands.flatMap commands := by
  cases d
  rw [commands, commandsOfAll_eq]

/-- A command is among its commands. -/
theorem mem_commands_self (d : Declaration) : d ∈ d.commands := by
  rw [commands_eq]
  exact List.mem_cons_self

/-- The commands of a subcommand are among those of the command. -/
theorem mem_commands_of_subcommand {d s c : Declaration} (hs : s ∈ d.subcommands) (hc : c ∈ s.commands) :
    c ∈ d.commands := by
  rw [commands_eq]
  exact List.mem_cons_of_mem _ (List.mem_flatMap.2 ⟨s, hs, hc⟩)

/-! ## Resolving and surveying, one command at a time -/

/-- Several commands are resolved one by one. -/
theorem resolveAllWith_eq (above : Inheritance) (ds : List Declaration) :
    resolveAllWith above ds = ds.map (resolveWith above) := by
  induction ds with
  | nil => rfl
  | cons d rest ih => rw [resolveAllWith, ih, List.map_cons]

/-- What is made of some commands together is made of the listed ones, one after another. -/
theorem eq_flatMap_listed {β : Type} {all : List Declaration → List β} {each : Declaration → List β} (hnil : all [] = [])
    (hcons : ∀ d rest, all (d :: rest) = if d.isListed then each d ++ all rest else all rest) (ds : List Declaration) :
    all ds = (ds.filter isListed).flatMap each := by
  induction ds with
  | nil => exact hnil
  | cons d rest ih =>
    rw [hcons, ih]
    by_cases hd : d.isListed
    · rw [if_pos hd, List.filter_cons_of_pos hd, List.flatMap_cons]
    · rw [if_neg hd, List.filter_cons_of_neg hd]

/-- What is made of some commands is made of the listed ones, one of each. -/
theorem eq_map_listed {β : Type} {all : List Declaration → List β} {one : Declaration → β} (hnil : all [] = [])
    (hcons : ∀ d rest, all (d :: rest) = if d.isListed then one d :: all rest else all rest) (ds : List Declaration) :
    all ds = (ds.filter isListed).map one := by
  rw [List.map_eq_flatMap]
  exact eq_flatMap_listed hnil hcons ds

/-- Of several commands those that are listed are surveyed one by one. -/
theorem surveyAllBelow_eq (inherited : List Text) (ds : List Declaration) :
    surveyAllBelow inherited ds = (ds.filter isListed).map (surveyBelow inherited) :=
  eq_map_listed (by rw [surveyAllBelow]) (fun _ _ => by rw [surveyAllBelow]) ds

/-- The options that show help and the version, where they are generated. -/
def generatedOptions (d : Declaration) (version : Option Text) : List ArgDeclaration :=
  (if d.disableHelpFlag then [] else [.helpOption]) ++ if version.isSome then [.versionOption] else []

/-- The command for help, where it is generated. -/
def generatedCommands (d : Declaration) : List Declaration :=
  if d.subcommands.isEmpty || d.disableHelpSubcommand then [] else [helpCommand]

/-- What a command takes once it is resolved. -/
theorem args_resolveWith (above : Inheritance) (d : Declaration) :
    (resolveWith above d).args = inheritArgs d.args above.globals ++ d.generatedOptions (d.version.or above.version) := by
  cases d
  rw [resolveWith, generatedOptions, List.append_assoc]

/-- What stands below a command once it is resolved. -/
theorem subcommands_resolveWith (above : Inheritance) (d : Declaration) :
    (resolveWith above d).subcommands =
      d.subcommands.map (resolveWith ⟨globalsOf (inheritArgs d.args above.globals),
        if d.propagateVersion then d.version.or above.version else none⟩) ++ d.generatedCommands := by
  cases d
  rw [resolveWith, generatedCommands, resolveAllWith_eq]

/-- Resolving a command does not change whether it is listed. -/
theorem isListed_resolveWith (above : Inheritance) (d : Declaration) : (resolveWith above d).isListed = d.isListed := by
  cases d
  rfl

/-- The command tree of a resolved command. -/
theorem surveyBelow_eq (inherited : List Text) (d : Declaration) :
    surveyBelow inherited d =
      { name := d.name
        description := Text.visible ((d.about.or d.longAbout).getD [])
        options := listedOptions inherited d.args
        arguments := listedArguments d.args
        subcommands :=
          (d.subcommands.filter isListed).map (surveyBelow (inherited ++ (globalsOf d.args).map (·.id)))
        allowUnknownOption := passesUnknownOptions d.allowExternalSubcommands d.args } := by
  cases d
  rw [surveyBelow, surveyAllBelow_eq]

/-! ## What is listed of what is taken -/

/-- What the commands above a command hand down to it. -/
structure Above where
  /-- The identifiers of all global arguments of the commands above. -/
  ids : List Text := []
  /-- The global arguments that reach the command. -/
  globals : List ArgDeclaration := []

namespace Above

/-- What is handed down to the subcommands of a command that has some arguments of its own. -/
def enter (above : Above) (own : List ArgDeclaration) : Above where
  ids := above.ids ++ (globalsOf (inheritArgs own above.globals)).map (·.id)
  globals := globalsOf (inheritArgs own above.globals)

/-- Whether what is handed down are global arguments whose identifiers are known. -/
def IsSound (above : Above) : Prop := ∀ g ∈ above.globals, g.isGlobal = true ∧ g.id ∈ above.ids

/-- Nothing is handed down to a command at the root. -/
theorem isSound_root : ({} : Above).IsSound := List.forall_mem_nil _

/-- What is handed down stays sound from one command to the next. -/
theorem isSound_enter (above : Above) (own : List ArgDeclaration) : (above.enter own).IsSound := by
  intro g hg
  exact ⟨(List.mem_filter.1 hg).2, List.mem_append_right _ (List.mem_map_of_mem hg)⟩

end Above

/-- Arguments that a command takes from above are among those handed down. -/
theorem mem_inheritArgs {own globals : List ArgDeclaration} {a : ArgDeclaration} (h : a ∈ inheritArgs own globals) :
    a ∈ own ∨ a ∈ globals := by
  rcases List.mem_append.1 h with h | h
  · exact .inl h
  · exact .inr (List.mem_filter.1 h).1

/-- Generated options are neither global nor listed, and they are options. -/
theorem generatedOptions_spec {d : Declaration} {version : Option Text} {a : ArgDeclaration}
    (h : a ∈ d.generatedOptions version) : a.isGlobal = false ∧ a.isListed = false ∧ a.isPositional = false := by
  have hcases : a = .helpOption ∨ a = .versionOption := by
    rcases List.mem_append.1 h with h | h
    · split at h
      · exact absurd h List.not_mem_nil
      · exact .inl (List.mem_singleton.1 h)
    · split at h
      · exact .inr (List.mem_singleton.1 h)
      · exact absurd h List.not_mem_nil
  rcases hcases with rfl | rfl <;> decide

/-- The command for help is not listed. -/
theorem filter_generatedCommands (d : Declaration) : d.generatedCommands.filter isListed = [] := by
  rw [generatedCommands]
  split <;> rfl

/-- What no generated option has is had by the same arguments before and after resolving. -/
theorem filter_args_resolveWith (above : Inheritance) (d : Declaration) {p : ArgDeclaration → Bool}
    (hp : ∀ a : ArgDeclaration, a.isGlobal = false ∧ a.isListed = false ∧ a.isPositional = false → p a = false) :
    (resolveWith above d).args.filter p = (inheritArgs d.args above.globals).filter p := by
  have hgenerated : (d.generatedOptions (d.version.or above.version)).filter p = [] := by
    rw [List.filter_eq_nil_iff]
    intro a ha
    simp [hp a (generatedOptions_spec ha)]
  rw [args_resolveWith, List.filter_append, hgenerated, List.append_nil]

/-- Generated options are not handed down. -/
theorem globalsOf_args_resolveWith (above : Inheritance) (d : Declaration) :
    globalsOf (resolveWith above d).args = globalsOf (inheritArgs d.args above.globals) :=
  filter_args_resolveWith above d fun _ ha => ha.1

/-- The options listed on a resolved command are listed among its own. -/
theorem listedOptions_resolveWith {above : Above} (hsound : above.IsSound) (version : Option Text) (d : Declaration) :
    listedOptions above.ids (resolveWith ⟨above.globals, version⟩ d).args = listedOptions above.ids d.args := by
  have hcopies : (above.globals.filter fun g => !d.args.any fun a => a.id = g.id).filter
      (fun a => !a.isPositional && a.isListed && !(a.isGlobal && above.ids.contains a.id)) = [] := by
    rw [List.filter_eq_nil_iff]
    intro g hg
    obtain ⟨hglobal, hid⟩ := hsound g (List.mem_filter.1 hg).1
    simp [hglobal, hid]
  rw [listedOptions, listedOptions, filter_args_resolveWith _ d fun a ha => by simp [ha.2.1], inheritArgs, List.filter_append,
    hcopies, List.append_nil]

/-- The positional arguments listed on a resolved command are listed among its own and those handed down. -/
theorem listedArguments_resolveWith (above : Inheritance) (d : Declaration) :
    listedArguments (resolveWith above d).args = listedArguments (inheritArgs d.args above.globals) := by
  rw [listedArguments, listedArguments, filter_args_resolveWith above d fun a ha => by simp [ha.2.1]]

/-- Generated options do not let unknown options pass. -/
theorem passesUnknownOptions_resolveWith (above : Inheritance) (d : Declaration) :
    passesUnknownOptions d.allowExternalSubcommands (resolveWith above d).args =
      passesUnknownOptions d.allowExternalSubcommands (inheritArgs d.args above.globals) := by
  have hgenerated : ((d.generatedOptions (d.version.or above.version)).any fun a => a.isPositional && a.allowHyphenValues) =
      false := by
    rw [List.any_eq_false]
    intro a ha
    simp [(generatedOptions_spec ha).2.2]
  rw [passesUnknownOptions, passesUnknownOptions, args_resolveWith, List.any_append, hgenerated, Bool.or_false]

/-! ## The listing -/

mutual

/-- What a declared command offers, given what is handed down to it. -/
def listingBelow (above : Above) : Declaration → CommandTree
  | { name, about, longAbout, allowExternalSubcommands, args, subcommands, .. } =>
    { name
      description := Text.visible ((about.or longAbout).getD [])
      options := listedOptions above.ids args
      arguments := listedArguments (inheritArgs args above.globals)
      subcommands := listingAllBelow (above.enter args) subcommands
      allowUnknownOption := passesUnknownOptions allowExternalSubcommands (inheritArgs args above.globals) }

/-- What those of some declared commands offer that are listed. -/
def listingAllBelow (above : Above) : List Declaration → List CommandTree
  | [] => []
  | d :: rest =>
    if d.isListed then listingBelow above d :: listingAllBelow above rest else listingAllBelow above rest

end

/-- Of several commands those that are listed are listed one by one. -/
theorem listingAllBelow_eq (above : Above) (ds : List Declaration) :
    listingAllBelow above ds = (ds.filter isListed).map (listingBelow above) :=
  eq_map_listed (by rw [listingAllBelow]) (fun _ _ => by rw [listingAllBelow]) ds

/-- What a declared command offers, with its subcommands one by one. -/
theorem listingBelow_eq (above : Above) (d : Declaration) :
    listingBelow above d =
      { name := d.name
        description := Text.visible ((d.about.or d.longAbout).getD [])
        options := listedOptions above.ids d.args
        arguments := listedArguments (inheritArgs d.args above.globals)
        subcommands := (d.subcommands.filter isListed).map (listingBelow (above.enter d.args))
        allowUnknownOption := passesUnknownOptions d.allowExternalSubcommands (inheritArgs d.args above.globals) } := by
  cases d
  rw [listingBelow, listingAllBelow_eq]

/-- A resolved command offers what the declared one does. -/
theorem surveyBelow_resolveWith (d : Declaration) {above : Above} (hsound : above.IsSound) (version : Option Text) :
    surveyBelow above.ids (resolveWith ⟨above.globals, version⟩ d) = listingBelow above d := by
  induction d using induction_below generalizing above version with
  | step d ih =>
    have hnames : (resolveWith ⟨above.globals, version⟩ d).name = d.name ∧
        (resolveWith ⟨above.globals, version⟩ d).about = d.about ∧
        (resolveWith ⟨above.globals, version⟩ d).longAbout = d.longAbout ∧
        (resolveWith ⟨above.globals, version⟩ d).allowExternalSubcommands = d.allowExternalSubcommands := by
      cases d
      exact ⟨rfl, rfl, rfl, rfl⟩
    obtain ⟨hname, habout, hlongAbout, hexternal⟩ := hnames
    have hsubcommands : ((resolveWith ⟨above.globals, version⟩ d).subcommands.filter isListed).map
        (surveyBelow (above.ids ++ (globalsOf (resolveWith ⟨above.globals, version⟩ d).args).map (·.id))) =
        (d.subcommands.filter isListed).map (listingBelow (above.enter d.args)) := by
      rw [subcommands_resolveWith, List.filter_append, filter_generatedCommands, List.append_nil, List.filter_map,
        globalsOf_args_resolveWith, List.map_map]
      rw [show (isListed ∘ resolveWith _) = isListed from funext fun s => isListed_resolveWith _ s]
      refine List.map_congr_left fun s hs => ?_
      exact ih s (List.mem_filter.1 hs).1 (above.isSound_enter d.args) _
    rw [surveyBelow_eq, listingBelow_eq, hname, habout, hlongAbout, hexternal, listedOptions_resolveWith hsound,
      listedArguments_resolveWith, passesUnknownOptions_resolveWith, hsubcommands]

/-- What a declared command line offers. -/
def listing (d : Declaration) : CommandTree := listingBelow {} d

/-- Surveying the resolved command line lists what is declared. -/
theorem survey_eq_listing (d : Declaration) : d.survey = d.listing :=
  surveyBelow_resolveWith d Above.isSound_root none

end Declaration

end DevWorkflow
