import DevWorkflow.Completion.BuiltIn
import DevWorkflow.Proofs.CommandLine.PassThrough
import DevWorkflow.Proofs.Completion.Places
import DevWorkflow.Proofs.Run.Settings

/-!
# The command words of the reader and of the built-in tree

The program's commands are written down twice: as the declaration from which command lines are read, and as the built-in tree from
which scripts are made ahead of time. Both know the same command words (`Declaration.HasWordsOf`). Hence a word for which the tree
has no command is refused by the reader, whatever follows it, and the commands that the reader gives are those at the ends of the
tree (`Invocation.commandWords_builtIn`).
-/

namespace DevWorkflow

/-! ## The path of an outline -/

namespace Outline

/-- The names of the subcommands that are entered. -/
def path : Outline → List Text
  | ends _ _ | stops _ _ _ => []
  | enters _ _ below => below.command.name :: below.path

/-- The command whose words come last. -/
def last : Outline → Declaration
  | ends d _ | stops d _ _ => d
  | enters _ _ below => below.last

@[simp] theorem path_give (before : List Occurrence) (o : Outline) : (o.give before).path = o.path := by cases o <;> rfl

@[simp] theorem last_give (before : List Occurrence) (o : Outline) : (o.give before).last = o.last := by cases o <;> rfl

/-- Arguments that may be given stand on a line that enters the subcommands of their path, down to one with nothing below it. -/
theorem path_of_check {o : Outline} {g : Given} (h : o.check = .ok g) : g.path = o.path ∧ o.last.subcommands = [] := by
  induction o generalizing g with
  | ends d given =>
    rw [check] at h
    split at h
    · cases h
    · split at h
      · rename_i hempty
        obtain rfl := Except.ok.inj h
        exact ⟨rfl, List.isEmpty_iff.1 hempty⟩
      · cases h
  | stops d given stop => cases h
  | enters d given below ih =>
    rw [check] at h
    split at h
    · cases h
    · cases hbelow : below.check with
      | error e =>
        rw [hbelow] at h
        cases h
      | ok g' =>
        rw [hbelow] at h
        obtain rfl := Except.ok.inj h
        obtain ⟨hpath, hlast⟩ := ih hbelow
        exact ⟨congrArg (below.command.name :: ·) hpath, hlast⟩

end Outline

namespace Declaration

variable {d : Declaration} {r : Reader}

/-- A positional word enters no subcommand. -/
theorem readPositional_ne_enter (w : Text) (c : Declaration) : (d.readPositional r w).2 ≠ .enter c := by
  rw [readPositional]
  split
  · exact Continuation.noConfusion
  · split <;> exact Continuation.noConfusion

/-- Letters after a dash enter no subcommand. -/
theorem readLetters_ne_enter (letters : Text) (c : Declaration) : (d.readLetters r letters).2 ≠ .enter c := by
  induction letters with
  | nil => exact Continuation.noConfusion
  | cons l rest ih =>
    rw [readLetters]
    cases d.short? l with
    | none => exact Continuation.noConfusion
    | some a =>
      dsimp only
      split
      · split <;> exact Continuation.noConfusion
      · exact ih

/-- A word that looks like a long option enters no subcommand. -/
theorem readLong_ne_enter (w name : Text) (value : Option Text) (c : Declaration) :
    (d.readLong r w name value).2 ≠ .enter c := by
  rw [readLong]
  cases d.long? name with
  | none =>
    dsimp only
    split
    · exact readPositional_ne_enter w c
    · exact Continuation.noConfusion
  | some a =>
    dsimp only
    split
    · split <;> exact Continuation.noConfusion
    · split <;> exact Continuation.noConfusion

theorem readFree_eq_enter {w : Text} {later : List Text} {c : Declaration} (h : (d.readFree r w later).2 = .enter c) :
    d.child? w = some c ∧ c.name ≠ helpCommand.name := by
  rw [readFree] at h
  split at h
  · exact absurd h (readPositional_ne_enter w c)
  · cases hchild : d.child? w with
    | none =>
      rw [hchild] at h
      dsimp only at h
      split at h
      · cases h
      · exact absurd h (readLong_ne_enter w _ _ c)
      · split at h
        · exact absurd h (readPositional_ne_enter w c)
        · exact absurd h (readLetters_ne_enter _ c)
      · exact absurd h (readPositional_ne_enter w c)
    | some s =>
      rw [hchild] at h
      dsimp only at h
      split at h
      · cases h
      · rename_i hhelp
        obtain rfl := Continuation.enter.inj h
        exact ⟨rfl, hhelp⟩

/-- A word that enters a subcommand names it, and the subcommand is not the one for help. -/
theorem readWord_eq_enter {w : Text} {later : List Text} {c : Declaration} (h : (d.readWord r w later).2 = .enter c) :
    d.child? w = some c ∧ c.name ≠ helpCommand.name := by
  rw [readWord] at h
  split at h
  · split at h
    · cases h
    · exact readFree_eq_enter h
  · exact readFree_eq_enter h

/-- The subcommands that some words enter lead to the command whose words come last. -/
theorem find?_path_outlineFrom (d : Declaration) (r : Reader) (ws : List Text) :
    d.find? (d.outlineFrom r ws).path = some (d.outlineFrom r ws).last ∧ helpCommand.name ∉ (d.outlineFrom r ws).path := by
  induction ws generalizing d r with
  | nil => exact ⟨rfl, List.not_mem_nil⟩
  | cons w ws ih =>
    rcases hread : d.readWord r w ws with ⟨given, next⟩
    cases next with
    | more r' =>
      rw [outlineFrom_cons_more hread, Outline.path_give, Outline.last_give]
      exact ih d r'
    | enter c =>
      obtain ⟨hchild, hhelp⟩ := readWord_eq_enter (congrArg Prod.snd hread)
      have hname : c.name = w := by simpa using List.find?_some hchild
      obtain ⟨hfind, hnot⟩ := ih c (.start c)
      rw [outlineFrom_cons_enter hread, Outline.path, Outline.last, outline, command_outlineFrom]
      refine ⟨?_, ?_⟩
      · rw [find?, hname, hchild]
        exact hfind
      · intro hm
        rcases List.mem_cons.1 hm with heq | hm
        · exact hhelp heq.symm
        · exact hnot hm
    | stop e =>
      rw [outlineFrom, hread]
      exact ⟨rfl, List.not_mem_nil⟩

/-! ## The same command words -/

/-- The names of the subcommands, apart from the one for help. -/
def commandNames (d : Declaration) : List Text := (d.subcommands.map (·.name)).filter (· ≠ helpCommand.name)

/-- Whether every command of a tree has its counterpart, with the same names below it. -/
def HasWordsOf (d : Declaration) (t : CommandTree) : Prop :=
  ∀ x ∈ t.topDown [], (d.find? x.path).map commandNames = some (x.tree.subcommands.map (·.name))

variable {t : CommandTree}

/-- A command of the tree has its counterpart at the same path. -/
theorem HasWordsOf.exists_of_find? (h : d.HasWordsOf t) {path : List Text} {c : CommandTree} (hfind : t.find? path = some c) :
    ∃ e, d.find? path = some e ∧ e.commandNames = c.subcommands.map (·.name) :=
  Option.map_eq_some_iff.1 (h ⟨path, c⟩ (CommandTree.mem_topDown_of_find? hfind []))

theorem find?_concat (d : Declaration) (path : List Text) (name : Text) :
    d.find? (path ++ [name]) = (d.find? path).bind fun c => c.child? name := by
  induction path generalizing d with
  | nil =>
    rw [List.nil_append, find?, find?, Option.bind_some]
    cases d.child? name <;> rfl
  | cons first rest ih =>
    rw [List.cons_append, find?, find?, Option.bind_assoc]
    exact Option.bind_congr fun c _ => ih c

/-- The path of a command leads to one of the tree, unless it goes through help. -/
theorem HasWordsOf.exists_in_tree (h : d.HasWordsOf t) {path : List Text} {e : Declaration} (hfind : d.find? path = some e)
    (hhelp : helpCommand.name ∉ path) : ∃ c, t.find? path = some c ∧ e.commandNames = c.subcommands.map (·.name) := by
  suffices ∃ c, t.find? path = some c by
    obtain ⟨c, hc⟩ := this
    obtain ⟨e', he', hnames⟩ := h.exists_of_find? hc
    obtain rfl := Option.some.inj (hfind.symm.trans he')
    exact ⟨c, hc, hnames⟩
  induction path using List.reverseRecOn generalizing e with
  | nil => exact ⟨t, rfl⟩
  | append_singleton path name ih =>
    rw [find?_concat] at hfind
    obtain ⟨above, habove, hchild⟩ := Option.bind_eq_some_iff.1 hfind
    obtain ⟨c, hc⟩ := ih habove fun hm => hhelp (List.mem_append_left _ hm)
    obtain ⟨above', habove', hnames⟩ := h.exists_of_find? hc
    obtain rfl := Option.some.inj (habove.symm.trans habove')
    -- The last name is that of a subcommand and not the one for help, so the tree has it too.
    have hname : e.name = name := by simpa using List.find?_some hchild
    have hmem : name ∈ above.commandNames := by
      refine List.mem_filter.2 ⟨List.mem_map.2 ⟨e, List.mem_of_find?_eq_some hchild, hname⟩, ?_⟩
      simpa using fun hn => hhelp (by simp [hn])
    rw [hnames] at hmem
    obtain ⟨s, hs, hsname⟩ := List.mem_map.1 hmem
    have hsome : (c.child? name).isSome = true := List.find?_isSome.2 ⟨s, hs, by simpa using hsname⟩
    obtain ⟨s', hs'⟩ := Option.isSome_iff_exists.1 hsome
    rw [CommandTree.find?_append, hc, Option.bind_some, CommandTree.find?, hs']
    exact ⟨s', rfl⟩

/-! ## Words that name no command -/

/-- A plain word of a command with subcommands is refused if it names none of them, and the command takes no words itself. -/
theorem check_of_no_child (hbelow : d.subcommands ≠ []) (hnone : d.positionals = []) {w : Text} (hchild : d.child? w = none)
    (hplain : w.head? ≠ some '-') (ws : List Text) : (d.outline (w :: ws)).check = .error .invalidSubcommand := by
  have hread : d.readWord (.start d) w ws = ([], .stop .invalidSubcommand) := by
    rw [readWord_of_no_child rfl rfl hchild, WordShape.of_eq_plain hplain]
    simp [readPositional, Reader.start, hnone, hbelow]
  rw [outline, outlineFrom, hread]
  rfl

end Declaration

/-! ## The commands at the ends of the paths -/

/-- The command that is made of what is given stands at the end of the path that is given. -/
theorem Given.path_of_command? {g : Given} {c : Command} (h : g.command? = some c) : c.path = g.path := by
  have hpath : g.path = (g.path.map String.ofList).map String.toList := by simp [Function.comp_def]
  rw [hpath]
  unfold Given.command? at h
  dsimp only at h
  -- A command is made outright, or of the values of one or two of its arguments.
  split at h
  case h_3 hwords =>
    obtain ⟨_, _, hset⟩ := Option.bind_eq_some_iff.1 h
    obtain ⟨_, _, rfl⟩ := Option.map_eq_some_iff.1 hset
    rw [hwords]
    rfl
  case h_2 hwords | h_7 hwords | h_9 hwords | h_12 hwords | h_14 hwords | h_17 hwords =>
    obtain ⟨_, _, rfl⟩ := Option.map_eq_some_iff.1 h
    rw [hwords]
    rfl
  case h_18 => cases h
  all_goals
    rename_i hwords
    obtain rfl := Option.some.inj h
    rw [hwords]
    rfl

namespace Command

/-- A command at the end of each path, which takes as little as possible. -/
def simplest : List Command :=
  [.init none none false, .config (.get []), .config (.set [] []), .config .list, .config .path, .config (.reset false),
    .git (.commit { summary := [] }), .git (.branch none), .git (.checkout []), .git (.push none []), .git (.pull false),
    .git (.worktree (.add [] none)), .git (.worktree .list), .git (.worktree (.remove [] false)), .update false, .agent [],
    .completion .bash false]

theorem map_path_simplest : simplest.map path = paths := rfl

theorem isWritable_simplest : ∀ c ∈ simplest, c.IsWritable := by simp [simplest, IsWritable]

/-- At the end of every path is a command that words can ask for. -/
theorem exists_isWritable {p : List Text} (hp : p ∈ paths) : ∃ c : Command, c.IsWritable ∧ c.path = p := by
  rw [← map_path_simplest] at hp
  obtain ⟨c, hc, hpath⟩ := List.mem_map.1 hp
  exact ⟨c, isWritable_simplest c hc, hpath⟩

end Command

/-! ## The built-in tree -/

namespace Invocation

/-- The reader of command lines knows the command words of the built-in tree and no others. -/
theorem hasWordsOf_builtIn : grammar.HasWordsOf BuiltIn.tree := by
  have h : ∀ x ∈ BuiltIn.tree.topDown [], (grammar.find? x.path).map Declaration.commandNames =
      some (x.tree.subcommands.map (·.name)) := by decide
  exact h

/-- A command with subcommands takes no words but their names. -/
theorem positionals_eq_nil {path : List Text} {t : CommandTree} {d : Declaration} (ht : BuiltIn.tree.find? path = some t)
    (hbelow : t.isLeaf = false) (hd : grammar.find? path = some d) : d.positionals = [] := by
  have h : ∀ x ∈ BuiltIn.tree.topDown [], x.tree.isLeaf = false →
      (grammar.find? x.path).map (·.positionals) = some [] := by decide
  have hfound := h ⟨path, t⟩ (CommandTree.mem_topDown_of_find? ht []) hbelow
  rw [hd] at hfound
  exact Option.some.inj hfound

/-- No path of the tree goes through the command for help. -/
theorem help_not_mem {path : List Text} {t : CommandTree} (ht : BuiltIn.tree.find? path = some t) :
    Declaration.helpCommand.name ∉ path := by
  have h : ∀ x ∈ BuiltIn.tree.topDown [], Declaration.helpCommand.name ∉ x.path := by decide
  exact h ⟨path, t⟩ (CommandTree.mem_topDown_of_find? ht [])

/-- The commands at the ends of the tree are those of the program. -/
theorem mem_paths_of_leaf {path : List Text} {t : CommandTree} (ht : BuiltIn.tree.find? path = some t)
    (hleaf : t.isLeaf = true) : path ∈ Command.paths := by
  have h : ∀ x ∈ BuiltIn.tree.topDown [], x.tree.isLeaf = true → x.path ∈ Command.paths := by decide
  exact h ⟨path, t⟩ (CommandTree.mem_topDown_of_find? ht []) hleaf

/-- A word for which the tree has no command is refused where a subcommand is needed, whatever follows it. -/
theorem parse_of_no_child {path : List Text} {t : CommandTree} (ht : BuiltIn.tree.find? path = some t)
    (hbelow : t.isLeaf = false) {w : Text} (hplain : w.head? ≠ some '-') (hnone : t.child? w = none)
    (hhelp : w ≠ Declaration.helpCommand.name) (program : Text) (ws : List Text) :
    parse (program :: (path ++ w :: ws)) = .error .invalidSubcommand := by
  obtain ⟨d, hd, hnames⟩ := hasWordsOf_builtIn.exists_of_find? ht
  have hsubcommands : d.subcommands ≠ [] := by
    intro h
    rw [Declaration.commandNames, h] at hnames
    have hempty : t.subcommands = [] := List.map_eq_nil_iff.1 hnames.symm
    rw [CommandTree.isLeaf, hempty] at hbelow
    exact absurd hbelow (by decide)
  have hchild : d.child? w = none := by
    refine List.find?_eq_none.2 fun c hc hw => ?_
    have hw : c.name = w := of_decide_eq_true hw
    have hmem : w ∈ d.commandNames := List.mem_filter.2 ⟨List.mem_map.2 ⟨c, hc, hw⟩, decide_eq_true hhelp⟩
    rw [hnames] at hmem
    obtain ⟨s, hs, hsname⟩ := List.mem_map.1 hmem
    exact List.find?_eq_none.1 hnone s hs (decide_eq_true hsname)
  have hcheck := Declaration.check_of_no_child hsubcommands (positionals_eq_nil ht hbelow hd) hchild hplain ws
  rw [parse, List.tail_cons, ofWords, Declaration.check_path hd (help_not_mem ht), hcheck]
  rfl

/-- A line that is read enters the subcommands of its command. -/
theorem path_of_parse {argv : List Text} {i : Invocation} (h : parse argv = .ok i) :
    i.command.path = (grammar.outline argv.tail).path ∧ (grammar.outline argv.tail).last.subcommands = [] := by
  rw [parse, ofWords] at h
  cases hcheck : (grammar.outline argv.tail).check with
  | error e =>
    rw [hcheck] at h
    cases h
  | ok g =>
    rw [hcheck] at h
    obtain ⟨hpath, hlast⟩ := Outline.path_of_check hcheck
    dsimp only at h
    split at h
    · rename_i c hc
      obtain rfl := Except.ok.inj h
      exact ⟨(Given.path_of_command? hc).trans hpath, hlast⟩
    · cases h

/-- The reader of command lines and the built-in tree accept the same command words. Where the tree has subcommands, a word that
is no option, names none of them and does not ask for help is refused as no subcommand, whatever follows it. The subcommands that
a line enters make the path of its command, which leads to an end of the tree; and every end of the tree is the command of some
line. -/
theorem commandWords_builtIn (program : Text) :
    (∀ path t, BuiltIn.tree.find? path = some t → t.isLeaf = false →
      ∀ w : Text, w.head? ≠ some '-' → t.child? w = none → w ≠ "help".toList →
        ∀ ws, parse (program :: (path ++ w :: ws)) = .error .invalidSubcommand) ∧
      (∀ argv i, parse argv = .ok i → (grammar.outline argv.tail).path = i.command.path ∧
        ∃ t, BuiltIn.tree.find? i.command.path = some t ∧ t.isLeaf = true) ∧
      ∀ path t, BuiltIn.tree.find? path = some t → t.isLeaf = true →
        ∃ ws i, parse (program :: (path ++ ws)) = .ok i ∧ i.command.path = path := by
  refine ⟨?_, ?_, ?_⟩
  · intro path t ht hbelow w hplain hnone hhelp ws
    exact parse_of_no_child ht hbelow hplain hnone hhelp program ws
  · intro argv i h
    obtain ⟨hpath, hlast⟩ := path_of_parse h
    obtain ⟨hfind, hhelp⟩ := Declaration.find?_path_outlineFrom grammar (.start grammar) argv.tail
    obtain ⟨t, ht, hnames⟩ := hasWordsOf_builtIn.exists_in_tree hfind hhelp
    have hleaf : (grammar.outlineFrom (.start grammar) argv.tail).last.commandNames = [] := by
      rw [Declaration.commandNames, ← Declaration.outline, hlast]
      rfl
    rw [hleaf] at hnames
    refine ⟨hpath.symm, t, hpath ▸ ht, ?_⟩
    rw [CommandTree.isLeaf, List.map_eq_nil_iff.1 hnames.symm]
    rfl
  · intro path t ht hleaf
    obtain ⟨c, hc, hpath⟩ := Command.exists_isWritable (mem_paths_of_leaf ht hleaf)
    refine ⟨c.declaration.wordsOf c.givings c.operands, ⟨false, c⟩, ?_, hpath⟩
    rw [← hpath, ← Command.words_eq]
    exact Command.parse_command program hc

/-- There is no subcommand for pruning worktrees, with options behind it or not; a line that lists them leads to an end of the
tree, and some line removes one. -/
theorem commandWords_builtIn_worktree :
    parse (["dx", "git", "worktree", "prune", "--force"].map String.toList) = .error .invalidSubcommand ∧
      (∃ t, BuiltIn.tree.find? (["git", "worktree", "list"].map String.toList) = some t ∧ t.isLeaf = true) ∧
      ∃ ws i, parse ((["dx", "git", "worktree", "remove"].map String.toList) ++ ws) = .ok i ∧
        i.command.path = ["git", "worktree", "remove"].map String.toList := by
  obtain ⟨hrefused, hread, hreached⟩ := commandWords_builtIn "dx".toList
  have hlist : parse (["dx", "git", "-v", "worktree", "list"].map String.toList) = .ok ⟨true, .git (.worktree .list)⟩ := by
    decide
  refine ⟨?_, ?_, ?_⟩
  · exact hrefused (["git", "worktree"].map String.toList) BuiltIn.worktreeTree rfl rfl "prune".toList (by decide) rfl
      (by decide) ["--force".toList]
  · exact (hread _ _ hlist).2
  · exact hreached (["git", "worktree", "remove"].map String.toList) _ rfl rfl

end Invocation

end DevWorkflow
