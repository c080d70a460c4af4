import DevWorkflow.Proofs.CommandLine.Parts

/-!
# Writing command lines

The words that ask for a command: its path, each option by its long form with its value behind an equals sign, and the
positional words after two dashes. Reading them gives the command back, whatever the texts in it are.
-/

namespace DevWorkflow

namespace Command

/-! ## The words -/

/-- What is given for each option of the command, by the long form of the option. -/
def options : Command → List (Text × Giving)
  | init dir shell noRc =>
    [("dir".toList, .ofValue dir), ("shell".toList, .ofValue (shell.map Shell.name)), ("no-rc".toList, .ofFlag noRc)]
  | config (.reset yes) => [("yes".toList, .ofFlag yes)]
  | git (.commit request) =>
    [("type".toList, .ofValue (request.type.map CommitType.name)), ("scope".toList, .ofValue request.scope),
      ("message".toList, .value request.summary), ("breaking".toList, .ofFlag request.breaking),
      ("all".toList, .ofFlag request.all)]
  | git (.pull rebase) => [("rebase".toList, .ofFlag rebase)]
  | git (.worktree (.remove _ force)) => [("force".toList, .ofFlag force)]
  | update check => [("check".toList, .ofFlag check)]
  | completion _ builtIn => [("static".toList, .ofFlag builtIn)]
  | _ => []

/-- The words for each positional argument of the command. -/
def operands : Command → List (List Text)
  | config (.get key) => [[key]]
  | config (.set key value) => [[key], [value]]
  | git (.branch name) => [name.toList]
  | git (.checkout branch) => [[branch]]
  | git (.push remote args) => [remote.toList, args]
  | git (.worktree (.add branch path)) => [[branch], path.toList]
  | git (.worktree (.remove branch _)) => [[branch]]
  | agent args => [args]
  | completion shell _ => [[shell.name]]
  | _ => []

/-- The words that ask for the command. -/
def words (c : Command) : List Text :=
  c.path ++ ((c.options.flatMap fun x => x.2.words x.1) ++ Declaration.afterDashes c.operands.flatten)

/-- Whether words can ask for the command: a path that is given is not empty, and arguments for pushing come after a remote. -/
def IsWritable : Command → Prop
  | init dir _ _ => dir ≠ some []
  | git (.push remote args) => remote = none → args = []
  | git (.worktree (.add _ path)) => path ≠ some []
  | _ => True

/-! ## The declarations -/

/-- Every path that leads to a command. -/
def paths : List (List Text) :=
  [["init"], ["config", "get"], ["config", "set"], ["config", "list"], ["config", "path"], ["config", "reset"],
    ["git", "commit"], ["git", "branch"], ["git", "checkout"], ["git", "push"], ["git", "pull"], ["git", "worktree", "add"],
    ["git", "worktree", "list"], ["git", "worktree", "remove"], ["update"], ["agent"], ["completion"]].map
    fun p => p.map String.toList

/-- The path of a command is one of them. -/
theorem path_mem (c : Command) : c.path ∈ paths := by
  rcases c with _ | ⟨_ | _ | _ | _ | _⟩ | ⟨_ | _ | _ | _ | _ | ⟨_ | _ | _⟩⟩ | _ | _ | _
  all_goals exact List.mem_of_elem_eq_true rfl

/-- The declaration of the command at a path. -/
def declarationAt (path : List Text) : Declaration := (Invocation.grammar.find? path).getD default

/-- Each path leads to its declaration. -/
theorem find?_declarationAt {p : List Text} (hp : p ∈ paths) : Invocation.grammar.find? p = some (declarationAt p) := by
  have h : paths.map (fun p => Invocation.grammar.find? p) = paths.map fun p => some (declarationAt p) := rfl
  exact List.map_inj_left.1 h p hp

/-- No path goes through the command for help. -/
theorem not_help_mem {p : List Text} (hp : p ∈ paths) : Declaration.helpCommand.name ∉ p := by
  have h : ∀ p ∈ paths, Declaration.helpCommand.name ∉ p := by decide
  exact h p hp

/-- At the end of a path is a plain declaration. -/
theorem isPlain_declarationAt {p : List Text} (hp : p ∈ paths) : (declarationAt p).IsPlain := by
  have hsubcommands : ∀ p ∈ paths, (declarationAt p).subcommands = [] := by decide
  have hids : ∀ p ∈ paths, ((declarationAt p).args.map (·.id)).Nodup := by decide
  have hfound : paths.map (fun p => (declarationAt p).options.map fun a => (declarationAt p).long? a.longName) =
      paths.map fun p => (declarationAt p).options.map some := rfl
  have hlong : ∀ p ∈ paths, ∀ a ∈ (declarationAt p).options, a.longName ≠ [] ∧ '=' ∉ a.longName := by decide
  refine ⟨hsubcommands p hp, hids p hp, ?_⟩
  intro a ha
  have hlookup := List.map_inj_left.1 (List.map_inj_left.1 hfound p hp) a ha
  exact ⟨hlookup, (hlong p hp a ha).1, (hlong p hp a ha).2⟩

/-! ## Options and positional arguments -/

/-- The declaration of a command. -/
def declaration (c : Command) : Declaration := declarationAt c.path

/-- What is given for each option of a command. -/
def givings (c : Command) : List Giving := c.options.map (·.2)

/-- The parts that the words of a command make. -/
def parts (c : Command) : List Part := c.declaration.parts c.givings c.operands

/-- The options of a command are those of its declaration, in the same order. -/
theorem settings_eq (c : Command) :
    (c.declaration.settings c.givings).map (fun x => (x.1.longName, x.2)) = c.options := by
  rcases c with _ | ⟨_ | _ | _ | _ | _⟩ | ⟨_ | _ | _ | _ | _ | ⟨_ | _ | _⟩⟩ | _ | _ | _ <;> rfl

/-- What is given for each option suits it. -/
theorem suits_settings {c : Command} (h : c.IsWritable) : ∀ x ∈ c.declaration.settings c.givings, x.2.Suits x.1 := by
  rcases c with ⟨dir, shell, noRc⟩ | c | c | check | args | ⟨shell, builtIn⟩
  case init =>
    have hdir : ∀ t, dir = some t → ValueKind.nonEmpty.accepts t = true := by
      rintro t rfl
      simpa [ValueKind.accepts] using fun ht => h (congrArg some ht)
    have hshell : ∀ t, shell.map Shell.name = some t → Interface.shellValues.accepts t = true := by
      intro t ht
      obtain ⟨s, -, rfl⟩ := Option.map_eq_some_iff.1 ht
      cases s <;> rfl
    exact List.forall_mem_cons.2 ⟨Giving.suits_ofValue rfl hdir, List.forall_mem_cons.2 ⟨Giving.suits_ofValue rfl hshell,
      List.forall_mem_singleton.2 (Giving.suits_ofFlag rfl noRc)⟩⟩
  case config =>
    cases c with
    | reset yes => exact List.forall_mem_singleton.2 (Giving.suits_ofFlag rfl yes)
    | _ => exact List.forall_mem_nil _
  case git =>
    rcases c with request | name | branch | ⟨remote, args⟩ | rebase | c
    case commit =>
      have htype : ∀ t, request.type.map CommitType.name = some t → (Interface.choiceOf commitTypes).accepts t = true := by
        intro t ht
        obtain ⟨type, -, rfl⟩ := Option.map_eq_some_iff.1 ht
        cases type <;> rfl
      exact List.forall_mem_cons.2 ⟨Giving.suits_ofValue rfl htype,
        List.forall_mem_cons.2 ⟨Giving.suits_ofValue rfl fun _ _ => rfl, List.forall_mem_cons.2 ⟨⟨rfl, rfl⟩,
          List.forall_mem_cons.2 ⟨Giving.suits_ofFlag rfl request.breaking,
            List.forall_mem_singleton.2 (Giving.suits_ofFlag rfl request.all)⟩⟩⟩⟩
    case pull => exact List.forall_mem_singleton.2 (Giving.suits_ofFlag rfl rebase)
    case worktree =>
      cases c with
      | remove branch force => exact List.forall_mem_singleton.2 (Giving.suits_ofFlag rfl force)
      | _ => exact List.forall_mem_nil _
    all_goals exact List.forall_mem_nil _
  case update => exact List.forall_mem_singleton.2 (Giving.suits_ofFlag rfl check)
  case agent => exact List.forall_mem_nil _
  case completion => exact List.forall_mem_singleton.2 (Giving.suits_ofFlag rfl builtIn)

/-- The words for the positional arguments fit them. -/
theorem fit_operands {c : Command} (h : c.IsWritable) : OperandsFit c.declaration.positionals c.operands := by
  have hend : OperandsFit [] [] := .none (List.forall_mem_nil _)
  rcases c with ⟨dir, shell, noRc⟩ | c | c | check | args | ⟨shell, builtIn⟩
  case config =>
    cases c with
    | get key => exact .one key rfl rfl hend
    | set key value => exact .one key rfl rfl (.one value rfl rfl hend)
    | _ => exact hend
  case git =>
    rcases c with request | name | branch | ⟨remote, args⟩ | rebase | c
    case branch =>
      cases name with
      | none => exact .none (by simp [operands])
      | some name => exact .one name rfl rfl hend
    case checkout => exact .one branch rfl rfl hend
    case push =>
      cases remote with
      | none =>
        obtain rfl : args = [] := h rfl
        exact .none (by simp [operands])
      | some remote => exact .one remote rfl rfl (.all args rfl)
    case worktree =>
      cases c with
      | add branch path =>
        cases path with
        | none => exact .one branch rfl rfl (.none (by simp))
        | some path =>
          have hpath : ValueKind.nonEmpty.accepts path = true := by
            simpa [ValueKind.accepts] using fun hp => h (congrArg some hp)
          exact .one branch rfl rfl (.one path rfl hpath hend)
      | list => exact hend
      | remove branch force => exact .one branch rfl rfl hend
    all_goals exact hend
  case agent => exact .all args rfl
  case completion => exact .one shell.name rfl (by cases shell <;> rfl) hend
  all_goals exact hend

/-! ## What the words give -/

/-- The parts of a command may be given. -/
theorem allowed_parts {c : Command} (h : c.IsWritable) : ∀ p ∈ c.parts, p.Allowed :=
  Declaration.allowed_parts (suits_settings h) (fit_operands h)

/-- The arguments of the parts of a command have different identifiers. -/
theorem ids_parts (c : Command) : (c.parts.map (·.arg.id)).Nodup :=
  Declaration.ids_parts (isPlain_declarationAt (path_mem c))

/-- What a line that asks for the command gives, with some arguments above. -/
def given (c : Command) (above : List Occurrence) : Given := ⟨c.path, c.parts.flatMap (·.given), above⟩

section

variable {c : Command} (h : c.IsWritable) (above : List Occurrence) {id : Text} {a : ArgDeclaration}
include h

/-- The value of an option is found. -/
theorem value?_given_option {v : Option Text} (hpart : Part.givenFor c.parts id = (Giving.ofValue v).occurrences a) :
    (c.given above).value? id = v := by
  rw [given, Given.value?_parts (fun p hp => (allowed_parts h p hp).own) (ids_parts c), hpart, Giving.value?_ofValue]

/-- A flag is found if it is set. -/
theorem has_given_flag {b : Bool} (hpart : Part.givenFor c.parts id = (Giving.ofFlag b).occurrences a) :
    (c.given above).has id = b := by
  rw [given, Given.has_parts (fun p hp => (allowed_parts h p hp).own) (ids_parts c), hpart, Giving.isEmpty_ofFlag]

/-- The word for a positional argument is found. -/
theorem value?_given_operand {v : Option Text} (hpart : Part.givenFor c.parts id = (Part.ofWords a v.toList).given) :
    (c.given above).value? id = v := by
  rw [given, Given.value?_parts (fun p hp => (allowed_parts h p hp).own) (ids_parts c), hpart]
  cases v <;> rfl

/-- The words for a positional argument are found. -/
theorem values_given_operand {ws : List Text} (hpart : Part.givenFor c.parts id = (Part.ofWords a ws).given) :
    (c.given above).values id = ws := by
  rw [given, Given.values_parts (fun p hp => (allowed_parts h p hp).own) (ids_parts c), hpart]
  rw [Part.ofWords, List.filterMap_map]
  exact List.filterMap_some

end

/-- What a line that asks for the settings gives makes the command. -/
theorem command?_given_config {c : ConfigCommand} (h : (config c).IsWritable) (above : List Occurrence) :
    ((config c).given above).command? = some (config c) := by
  let g := (config c).given above
  show g.command? = _
  cases c with
  | get key =>
    have hkey : g.value? "key".toList = some key := value?_given_operand h above rfl
    show (g.value? "key".toList).map (fun k => config (.get k)) = _
    rw [hkey]
    rfl
  | set key value =>
    have hkey : g.value? "key".toList = some key := value?_given_operand h above rfl
    have hvalue : g.value? "value".toList = some value := value?_given_operand h above rfl
    show (g.value? "key".toList).bind (fun k => (g.value? "value".toList).map fun v => config (.set k v)) = _
    rw [hkey, hvalue]
    rfl
  | list => rfl
  | path => rfl
  | reset yes =>
    have hyes : g.has "yes".toList = yes := has_given_flag h above rfl
    show some (config (.reset (g.has "yes".toList))) = _
    rw [hyes]

/-- What a line that asks for worktrees gives makes the command. -/
theorem command?_given_worktree {c : WorktreeCommand} (h : (git (.worktree c)).IsWritable) (above : List Occurrence) :
    ((git (.worktree c)).given above).command? = some (git (.worktree c)) := by
  let g := (git (.worktree c)).given above
  show g.command? = _
  cases c with
  | add branch path =>
    have hbranch : g.value? "branch".toList = some branch := value?_given_operand h above rfl
    have hpath : g.value? "path".toList = path := value?_given_operand h above rfl
    show (g.value? "branch".toList).map (fun b => git (.worktree (.add b (g.value? "path".toList)))) = _
    rw [hbranch, hpath]
    rfl
  | list => rfl
  | remove branch force =>
    have hbranch : g.value? "branch".toList = some branch := value?_given_operand h above rfl
    have hforce : g.has "force".toList = force := has_given_flag h above rfl
    show (g.value? "branch".toList).map (fun b => git (.worktree (.remove b (g.has "force".toList)))) = _
    rw [hbranch, hforce]
    rfl

/-- What a line that asks for git gives makes the command. -/
theorem command?_given_git {c : GitCommand} (h : (git c).IsWritable) (above : List Occurrence) :
    ((git c).given above).command? = some (git c) := by
  let g := (git c).given above
  show g.command? = _
  cases c with
  | commit request =>
    have htype : g.value? "type".toList = request.type.map CommitType.name := value?_given_option h above rfl
    have hscope : g.value? "scope".toList = request.scope := value?_given_option h above rfl
    have hsummary : g.value? "message".toList = some request.summary :=
      @value?_given_option _ h above _ _ (some request.summary) rfl
    have hbreaking : g.has "breaking".toList = request.breaking := has_given_flag h above rfl
    have hall : g.has "all".toList = request.all := has_given_flag h above rfl
    have hread : (request.type.map CommitType.name).bind CommitType.ofName? = request.type := by
      cases request.type with
      | none => rfl
      | some t => exact CommitType.ofName?_name t
    show (g.value? "message".toList).map (fun summary =>
      git (.commit ⟨(g.value? "type".toList).bind CommitType.ofName?, g.value? "scope".toList, summary,
        g.has "breaking".toList, g.has "all".toList⟩)) = _
    rw [htype, hscope, hsummary, hbreaking, hall, hread]
    rfl
  | branch name =>
    have hname : g.value? "name".toList = name := value?_given_operand h above rfl
    show some (git (.branch (g.value? "name".toList))) = _
    rw [hname]
  | checkout branch =>
    have hbranch : g.value? "branch".toList = some branch := value?_given_operand h above rfl
    show (g.value? "branch".toList).map (fun b => git (.checkout b)) = _
    rw [hbranch]
    rfl
  | push remote args =>
    have hremote : g.value? "remote".toList = remote := value?_given_operand h above rfl
    have hargs : g.values "args".toList = args := values_given_operand h above rfl
    show some (git (.push (g.value? "remote".toList) (g.values "args".toList))) = _
    rw [hremote, hargs]
  | pull rebase =>
    have hrebase : g.has "rebase".toList = rebase := has_given_flag h above rfl
    show some (git (.pull (g.has "rebase".toList))) = _
    rw [hrebase]
  | worktree c => exact command?_given_worktree h above

/-- What a line that asks for a command gives makes the command. -/
theorem command?_given {c : Command} (h : c.IsWritable) (above : List Occurrence) :
    (c.given above).command? = some c := by
  let g := c.given above
  show g.command? = _
  cases c with
  | init dir shell noRc =>
    have hdir : g.value? "dir".toList = dir := value?_given_option h above rfl
    have hshell : g.value? "shell".toList = shell.map Shell.name := value?_given_option h above rfl
    have hnoRc : g.has "no_rc".toList = noRc := has_given_flag h above rfl
    have hread : (shell.map Shell.name).bind Shell.ofName? = shell := by
      cases shell with
      | none => rfl
      | some s => exact Shell.ofName?_name s
    show some (init (g.value? "dir".toList) ((g.value? "shell".toList).bind Shell.ofName?) (g.has "no_rc".toList)) = _
    rw [hdir, hshell, hnoRc, hread]
  | config c => exact command?_given_config h above
  | git c => exact command?_given_git h above
  | update check =>
    have hcheck : g.has "check".toList = check := has_given_flag h above rfl
    show some (update (g.has "check".toList)) = _
    rw [hcheck]
  | agent args =>
    have hargs : g.values "args".toList = args := values_given_operand h above rfl
    show some (agent (g.values "args".toList)) = _
    rw [hargs]
  | completion shell builtIn =>
    have hshell : g.value? "shell".toList = some shell.name := value?_given_operand h above rfl
    have hbuiltIn : g.has "use_static".toList = builtIn := has_given_flag h above rfl
    show ((g.value? "shell".toList).bind Shell.ofName?).map (fun s => completion s (g.has "use_static".toList)) = _
    rw [hshell, hbuiltIn, Option.bind_some, Shell.ofName?_name]
    rfl

/-- The option for debug messages is not given after the path of a command. -/
theorem givenFor_verbose (c : Command) : Part.givenFor c.parts "verbose".toList = [] := by
  rcases c with _ | ⟨_ | _ | _ | _ | _⟩ | ⟨_ | _ | _ | _ | _ | ⟨_ | _ | _⟩⟩ | _ | _ | _ <;> rfl

/-- The words of a command after its path are those of its declaration. -/
theorem words_eq (c : Command) : c.words = c.path ++ c.declaration.wordsOf c.givings c.operands := by
  rw [words, ← settings_eq c, List.flatMap_map]
  rfl

/-- The words after the path of a command give its parts. -/
theorem check_wordsOf {c : Command} (h : c.IsWritable) :
    (c.declaration.outline (c.declaration.wordsOf c.givings c.operands)).check = .ok ⟨[], c.parts.flatMap (·.given), []⟩ :=
  Declaration.check_wordsOf (isPlain_declarationAt (path_mem c)) (suits_settings h) (fit_operands h)

end Command

/-! ## Whole command lines -/

namespace Invocation

/-- The words that ask for a command and say whether debug messages are wanted. -/
def words (i : Invocation) : List Text := (Giving.ofFlag i.verbose).words "verbose".toList ++ i.command.words

/-- The option for debug messages, if it is given. -/
def verboseOccurrences (verbose : Bool) : List Occurrence := (Giving.ofFlag verbose).occurrences Interface.verboseOption

/-- The option for debug messages comes before the words of a command. -/
theorem outline_verbose (verbose : Bool) (ws : List Text) :
    grammar.outline ((Giving.ofFlag verbose).words "verbose".toList ++ ws) =
      (grammar.outline ws).give (verboseOccurrences verbose) := by
  have hname : grammar.Names Interface.verboseOption := ⟨rfl, by decide, by decide⟩
  have hchild : ∀ w ∈ (Giving.ofFlag verbose).words Interface.verboseOption.longName, grammar.child? w = none := by
    cases verbose with
    | false => exact List.forall_mem_nil _
    | true => exact List.forall_mem_singleton.2 rfl
  exact Declaration.outlineFrom_giving rfl rfl hchild hname (Giving.suits_ofFlag rfl verbose) ws

/-- The words that ask for a command give its parts. -/
theorem check_words {i : Invocation} (h : i.command.IsWritable) :
    (grammar.outline i.words).check = .ok (i.command.given (verboseOccurrences i.verbose)) := by
  obtain ⟨verbose, c⟩ := i
  have hfind := Command.find?_declarationAt c.path_mem
  have hhelp := Command.not_help_mem c.path_mem
  have hbefore : UsageError.firstAmong [] none (verboseOccurrences verbose) = none := by cases verbose <;> rfl
  rw [words, outline_verbose, Command.words_eq, Command.given]
  -- A path has at least one name, and what is given above is given before it.
  rcases hpath : c.path with _ | ⟨name, rest⟩
  · exact absurd (hpath ▸ c.path_mem) (by decide)
  · rw [hpath] at hhelp
    rw [show Invocation.grammar.find? c.path = (grammar.child? name).bind fun d => d.find? rest by rw [hpath]; rfl] at hfind
    obtain ⟨d, hchild, hrest⟩ := Option.bind_eq_some_iff.1 hfind
    have hbelow : (d.outline (rest ++ c.declaration.wordsOf c.givings c.operands)).check =
        .ok ⟨rest, c.parts.flatMap (·.given), []⟩ := by
      rw [Declaration.check_path hrest (fun hm => hhelp (List.mem_cons_of_mem _ hm)), ← Command.declaration,
        Command.check_wordsOf h, Except.map, List.append_nil]
    rw [List.cons_append, Declaration.check_subcommand hchild (fun hn => hhelp (by simp [hn])) hbefore, hbelow, Except.map,
      List.append_nil]

/-- Reading the words that ask for a command gives the command, whatever the program is called and the texts in it are. -/
theorem parse_words (program : Text) (i : Invocation) (h : i.command.IsWritable) : parse (program :: i.words) = .ok i := by
  have hcommand := Command.command?_given h (verboseOccurrences i.verbose)
  have hverbose : (i.command.given (verboseOccurrences i.verbose)).hasAnywhere "verbose".toList = i.verbose := by
    have hlast : (i.command.given (verboseOccurrences i.verbose)).has "verbose".toList = false :=
      Command.has_given_flag h _ (a := Interface.verboseOption) (b := false) i.command.givenFor_verbose
    rw [Given.hasAnywhere, hlast, Bool.false_or, Command.given]
    cases i.verbose <;> rfl
  rw [parse, List.tail_cons, ofWords, check_words h]
  simp only [hcommand, hverbose]

/-- Texts that look like options, subcommands or nothing at all are read for what they are. -/
theorem parse_words_push :
    parse ("dx".toList ::
        words ⟨true, .git (.push (some "--verbose".toList) ["push".toList, [], "--".toList, "-x=1".toList])⟩) =
      .ok ⟨true, .git (.push (some "--verbose".toList) ["push".toList, [], "--".toList, "-x=1".toList])⟩ :=
  parse_words "dx".toList ⟨true, .git (.push (some "--verbose".toList) ["push".toList, [], "--".toList, "-x=1".toList])⟩
    (fun h => nomatch h)

end Invocation

end DevWorkflow
