import DevWorkflow.Proofs.Completion.Bash.Layout
import DevWorkflow.Proofs.Completion.Bash.Running

/-!
# What the bash script offers

The text of the script is read back as the shell reads it, the dispatcher's lines one by one and its commands from them with a
stack of what is still open, and the commands are run. What comes of it for a valid tree with plain words is what the tree says,
unless a command at the first two levels is called `esac`: then the shell cannot read the dispatcher at all
(`Bash.reply?_script`).
-/

namespace DevWorkflow

namespace Bash

/-! ## Reading commands -/

/-- What is open around the commands that are being read: the test or arm that they belong to, and the commands before it. -/
inductive Frame where
  | ifPosition (n : Nat) (before : List Command)
  | ifPrevious (words : List Text) (before : List Command)
  | arm (label : Text) (n : Nat) (arms : List Arm) (before : List Command)

/-- How far the commands have been read. -/
inductive ReadState where
  /-- The commands so far, inside the frames. -/
  | commands (frames : List Frame) (done : List Command)
  /-- The arms so far of a choice, inside the frames, and the commands before it. -/
  | arms (frames : List Frame) (n : Nat) (done : List Arm) (before : List Command)

namespace ReadState

/-- Reads one token. -/
def step : ReadState → Token → Option ReadState
  | commands frames done, .offer words => some (commands frames (done ++ [.offer words]))
  | commands frames done, .offerFiles => some (commands frames (done ++ [.offerFiles]))
  | commands frames done, .done => some (commands frames (done ++ [.done]))
  | commands frames done, .ifPosition n => some (commands (.ifPosition n done :: frames) [])
  | commands frames done, .ifPrevious words => some (commands (.ifPrevious words done :: frames) [])
  | commands frames done, .byWord n => some (arms frames n [] done)
  | commands (.ifPosition n before :: frames) done, .endIf => some (commands frames (before ++ [.ifPosition n done]))
  | commands (.ifPrevious words before :: frames) done, .endIf => some (commands frames (before ++ [.ifPrevious words done]))
  | commands (.arm label n as before :: frames) done, .endArm => some (arms frames n (as ++ [.mk label done]) before)
  | arms frames n done before, .label name => some (commands (.arm name n done before :: frames) [])
  | arms frames n done before, .endChoice => some (commands frames (before ++ [.byWord n done]))
  | _, _ => none

/-- Reads some tokens. -/
def run (s : ReadState) (ks : List Token) : Option ReadState := ks.foldlM step s

/-- The commands, if nothing is open. -/
def complete? : ReadState → Option (List Command)
  | commands [] done => some done
  | _ => none

end ReadState

/-- The commands that are written with some tokens. -/
def commandsOf? (ks : List Token) : Option (List Command) := ((ReadState.commands [] []).run ks).bind ReadState.complete?

mutual

/-- The command that is read back. Empty words leave no trace in a list of words. -/
def Command.asRead : Command → Command
  | .offer words => .offer (words.filter fun w => !w.isEmpty)
  | .offerFiles => .offerFiles
  | .done => .done
  | .ifPosition n body => .ifPosition n (asReadAll body)
  | .ifPrevious words body => .ifPrevious words (asReadAll body)
  | .byWord n arms => .byWord n (asReadArms arms)

/-- The commands that are read back. -/
def asReadAll : List Command → List Command
  | [] => []
  | c :: rest => c.asRead :: asReadAll rest

/-- The arms that are read back. -/
def asReadArms : List Arm → List Arm
  | [] => []
  | .mk label body :: rest => .mk label (asReadAll body) :: asReadArms rest

end

/-- The tokens of some lines as they are read back. -/
def tokens (ls : List Line) : List Token := ls.map fun l => l.token.asRead

theorem tokens_append (ls ms : List Line) : tokens (ls ++ ms) = tokens ls ++ tokens ms := List.map_append

theorem tokens_cons (l : Line) (ls : List Line) : tokens (l :: ls) = l.token.asRead :: tokens ls := rfl

namespace ReadState

theorem run_append (s : ReadState) (ks ms : List Token) : s.run (ks ++ ms) = (s.run ks).bind fun s => s.run ms :=
  List.foldlM_append

/-- Once a token is read, the others are read from there. -/
theorem run_cons {s next : ReadState} {k : Token} (h : s.step k = some next) (ks : List Token) :
    s.run (k :: ks) = next.run ks := by
  rw [run, List.foldlM_cons, h]
  rfl

-- The induction is on the commands; the frames vary, since the body of a test is read with the test open around it.
mutual

/-- The tokens of a command add it to the commands so far, whatever is open around them. -/
theorem run_layout : ∀ (c : Command) (depth : Nat) (frames : List Frame) (done : List Command),
    (commands frames done).run (tokens (c.layout depth)) = some (commands frames (done ++ [c.asRead]))
  | .offer words, depth, frames, done => by rw [Command.layout, Command.asRead]; rfl
  | .offerFiles, depth, frames, done => by rw [Command.layout, Command.asRead]; rfl
  | .done, depth, frames, done => by rw [Command.layout, Command.asRead]; rfl
  | .ifPosition n body, depth, frames, done => by
    rw [Command.layout, Command.asRead, tokens_append, tokens_cons, run_append, run_cons rfl, run_layoutAll body]
    rfl
  | .ifPrevious words body, depth, frames, done => by
    rw [Command.layout, Command.asRead, tokens_append, tokens_cons, run_append, run_cons rfl, run_layoutAll body]
    rfl
  | .byWord n as, depth, frames, done => by
    rw [Command.layout, Command.asRead, tokens_append, tokens_cons, run_append, run_cons rfl, run_layoutArms as]
    rfl

/-- The tokens of some commands add them to the commands so far. -/
theorem run_layoutAll : ∀ (cs : List Command) (depth : Nat) (frames : List Frame) (done : List Command),
    (commands frames done).run (tokens (layoutAll depth cs)) = some (commands frames (done ++ asReadAll cs))
  | [], depth, frames, done => by rw [layoutAll, asReadAll, List.append_nil]; rfl
  | c :: rest, depth, frames, done => by
    rw [layoutAll, asReadAll, tokens_append, run_append, run_layout c, Option.bind_some, run_layoutAll rest, List.append_assoc]
    rfl

/-- The tokens of some arms add them to the arms so far. -/
theorem run_layoutArms : ∀ (as : List Arm) (depth : Nat) (frames : List Frame) (n : Nat) (done : List Arm)
    (before : List Command),
    (arms frames n done before).run (tokens (layoutArms depth as)) = some (arms frames n (done ++ asReadArms as) before)
  | [], depth, frames, n, done, before => by rw [layoutArms, asReadArms, List.append_nil]; rfl
  | .mk label body :: rest, depth, frames, n, done, before => by
    rw [layoutArms, asReadArms, tokens_append, tokens_cons, tokens_cons, run_append, run_cons rfl, run_layoutAll body,
      Option.bind_some, run_cons rfl, run_layoutArms rest, List.append_assoc]
    rfl

end

end ReadState

/-- Commands are read back from their tokens. -/
theorem commandsOf?_tokens (depth : Nat) (cs : List Command) :
    commandsOf? (tokens (layoutAll depth cs)) = some (asReadAll cs) := by
  rw [commandsOf?, ReadState.run_layoutAll]
  rfl

mutual

/-- A command that is read back does what the command does. -/
theorem Command.run_asRead : ∀ (r : Request) (reply : Reply) (c : Command), c.asRead.run r reply = c.run r reply
  | r, reply, .offer words => by
    rw [Command.asRead, Command.run, Command.run, Reply.ofWords, Reply.ofWords, List.filter_filter]
    simp only [Bool.and_self]
  | r, reply, .offerFiles => by rw [Command.asRead]
  | r, reply, .done => by rw [Command.asRead]
  | r, reply, .ifPosition n body => by rw [Command.asRead, Command.run, Command.run, runAll_asReadAll]
  | r, reply, .ifPrevious words body => by rw [Command.asRead, Command.run, Command.run, runAll_asReadAll]
  | r, reply, .byWord n arms => by rw [Command.asRead, Command.run, Command.run, runFirst_asReadArms]

/-- Commands that are read back do what the commands do. -/
theorem runAll_asReadAll : ∀ (r : Request) (reply : Reply) (cs : List Command), runAll r reply (asReadAll cs) = runAll r reply cs
  | r, reply, [] => by rw [asReadAll]
  | r, reply, c :: rest => by
    rw [asReadAll, runAll, runAll, Command.run_asRead]
    exact congrArg _ (funext fun reply => runAll_asReadAll r reply rest)

theorem runFirst_asReadArms : ∀ (r : Request) (word : Text) (reply : Reply) (arms : List Arm),
    runFirst r word reply (asReadArms arms) = runFirst r word reply arms
  | r, word, reply, [] => by rw [asReadArms]
  | r, word, reply, .mk label body :: rest => by
    rw [asReadArms, runFirst, runFirst, runAll_asReadAll, runFirst_asReadArms]

end

/-! ## Reading the script -/

/-- The line that begins the dispatcher. -/
def openingLine : Text := functionName ++ "() \x7b".toList

/-- The lines above the commands of the dispatcher: they set what the commands use. -/
def prologue : List Text :=
  [line 1 "local cur prev".toList, line 1 "COMPREPLY=()".toList, line 1 "cur=\"$\x7bCOMP_WORDS[COMP_CWORD]\x7d\"".toList,
    line 1 "prev=\"$\x7bCOMP_WORDS[COMP_CWORD-1]\x7d\"".toList]

/-- The line that ends the dispatcher. -/
def closingLine : Text := "\x7d".toList

/-- The lines of the dispatcher among the lines of a script. -/
def body? (lines : List Text) : Option (List Text) :=
  match lines.dropWhile (· ≠ openingLine) with
  | [] => none
  | _ :: rest =>
    if prologue <+: rest ∧ closingLine ∈ rest then some ((rest.drop prologue.length).takeWhile (· ≠ closingLine)) else none

/-- What some lines say, if each of them says something. -/
def readLines? (lines : List Text) : Option (List Token) :=
  if lines.all fun l => (readLine? l).isSome then some (lines.filterMap readLine?) else none

/-- The commands of the dispatcher that a script defines, if the shell can read them. -/
def dispatcher? (script : Text) : Option (List Command) :=
  ((body? (Text.splitAt (· = '\n') script)).bind fun body => readLines? (body.filter fun l => !l.isEmpty)).bind commandsOf?

/-- What a script offers for a request, if the shell can read its dispatcher. -/
def reply? (script : Text) (r : Request) : Option Reply := (dispatcher? script).map fun cs => (runAll r .nothing cs).reply

/-- The lines of the dispatcher are found between the lines that begin and end it. -/
theorem body?_append {before body : List Text} (hbefore : openingLine ∉ before) (hbody : closingLine ∉ body) (after : List Text) :
    body? (before ++ openingLine :: (prologue ++ (body ++ closingLine :: after))) = some body := by
  have hdrop : (before ++ openingLine :: (prologue ++ (body ++ closingLine :: after))).dropWhile (· ≠ openingLine) =
      openingLine :: (prologue ++ (body ++ closingLine :: after)) := by
    rw [List.dropWhile_append_of_pos fun l hl => decide_eq_true (ne_of_mem_of_not_mem hl hbefore),
      List.dropWhile_cons_of_neg (by simp)]
  have htake : (body ++ closingLine :: after).takeWhile (· ≠ closingLine) = body := by
    rw [List.takeWhile_append_of_pos fun l hl => decide_eq_true (ne_of_mem_of_not_mem hl hbody),
      List.takeWhile_cons_of_neg (by simp), List.append_nil]
  have hclosed : closingLine ∈ prologue ++ (body ++ closingLine :: after) := by simp
  rw [body?, hdrop]
  dsimp only
  rw [if_pos ⟨List.prefix_append _ _, hclosed⟩, List.drop_left, htake]

theorem eq_label_of_name?_eq_some {k : Token} {name : Text} (h : k.name? = some name) : k = .label name := by
  cases k with
  | label n => rw [Option.some.inj h]
  | _ => exact nomatch h

/-- Lines with plain words say their tokens, unless the shell takes one of their labels for the end of a choice. -/
theorem readLines?_text {ls : List Line} {names : List Text} (h : IsPlainLayout ls names) :
    readLines? (ls.map Line.text) = if endOfChoice ∈ names then none else some (tokens ls) := by
  have hread : ∀ l ∈ ls, readLine? l.text = if l.token = .label endOfChoice then none else some l.token.asRead := fun l hl =>
    readLine?_line l.depth (h.plain l hl)
  by_cases hend : endOfChoice ∈ names
  · -- one line that says nothing is enough for the shell to refuse them all
    obtain ⟨l, hl, hname⟩ := List.mem_filterMap.1 (h.labels ▸ hend)
    have hnone : readLine? l.text = none := by rw [hread l hl, if_pos (eq_label_of_name?_eq_some hname)]
    rw [readLines?, if_neg, if_pos hend]
    intro hall
    have hsome := List.all_eq_true.1 hall l.text (List.mem_map_of_mem hl)
    rw [hnone] at hsome
    exact absurd hsome Bool.false_ne_true
  · have hsome : ∀ l ∈ ls, (readLine? ∘ Line.text) l = some l.token.asRead := by
      intro l hl
      rw [Function.comp_apply, hread l hl, if_neg]
      intro hlabel
      exact hend (h.labels ▸ List.mem_filterMap.2 ⟨l, hl, by rw [hlabel, Token.name?]⟩)
    have hall : ((ls.map Line.text).all fun l => (readLine? l).isSome) = true := by
      rw [List.all_map, List.all_eq_true]
      exact fun l hl => Option.isSome_iff_exists.2 ⟨l.token.asRead, hsome l hl⟩
    rw [readLines?, if_pos hall, if_neg hend, List.filterMap_map, List.filterMap_congr hsome, List.filterMap_eq_map', tokens]

/-- The lines of the script above the dispatcher. -/
def preamble : List Text :=
  ["# bash completion for ".toList ++ programName ++ ". Generated by `".toList ++ programName
    ++ " completion bash`, do not edit.".toList, []] ++ DynamicSource.all.flatMap helperLines

/-- The lines of the script below the dispatcher. -/
def registration : List Text := [[], "complete -F ".toList ++ functionName ++ " ".toList ++ programName ++ " ".toList ++ aliasName]

/-- The lines of the commands of the dispatcher, with an empty line above each of the two. -/
def bodyLines (t : CommandTree) : List Text := [] :: (firstWord t).lines 1 ++ [] :: (laterWords t).lines 1

theorem scriptLines_eq (t : CommandTree) :
    scriptLines t = preamble ++ openingLine :: (prologue ++ (bodyLines t ++ closingLine :: registration)) := by
  rw [scriptLines, functionLines, preamble, bodyLines]
  simp only [List.append_assoc, List.cons_append, List.nil_append]
  rfl

theorem bodyLines_eq (t : CommandTree) :
    bodyLines t = [] :: ((firstWord t).layout 1).map Line.text ++ [] :: ((laterWords t).layout 1).map Line.text := by
  rw [bodyLines, Command.lines_eq, Command.lines_eq]

theorem layoutAll_dispatch (t : CommandTree) : layoutAll 1 (dispatch t) = (firstWord t).layout 1 ++ (laterWords t).layout 1 := by
  rw [dispatch, layoutAll, layoutAll, layoutAll, List.append_nil]

/-- Without the empty lines the body consists of the lines of the commands. -/
theorem filter_bodyLines {t : CommandTree} (h : IsPlainTree t) :
    (bodyLines t).filter (fun l => !l.isEmpty) = (layoutAll 1 (dispatch t)).map Line.text := by
  have hkeep : ((layoutAll 1 (dispatch t)).map Line.text).filter (fun l => !l.isEmpty) =
      (layoutAll 1 (dispatch t)).map Line.text := by
    rw [List.filter_eq_self, List.forall_mem_map]
    intro l hl
    have hlength := two_le_length_line l.depth ((isPlainLayout_dispatch h).plain l hl)
    cases htext : l.text with
    | nil => exact absurd hlength (by rw [← Line.text, htext]; decide)
    | cons c rest => rfl
  rw [layoutAll_dispatch, List.map_append, List.filter_append] at hkeep
  rw [layoutAll_dispatch, bodyLines_eq, List.filter_append, List.map_append, ← hkeep]
  rfl

/-- A line of the body is empty or a line of a command. -/
theorem mem_bodyLines {t : CommandTree} {l : Text} (h : l ∈ bodyLines t) :
    l = [] ∨ ∃ k ∈ layoutAll 1 (dispatch t), k.text = l := by
  rw [bodyLines_eq, List.mem_append, List.mem_cons, List.mem_cons, List.mem_map, List.mem_map] at h
  rw [layoutAll_dispatch]
  rcases h with (h | ⟨k, hk, h⟩) | (h | ⟨k, hk, h⟩)
  · exact .inl h
  · exact .inr ⟨k, List.mem_append_left _ hk, h⟩
  · exact .inl h
  · exact .inr ⟨k, List.mem_append_right _ hk, h⟩

/-- No line of the script has a line feed in it, unless the previous word is compared with a word that has one. -/
theorem lineFeed_not_mem_scriptLines {t : CommandTree} (h : IsUnbroken (layoutAll 1 (dispatch t))) :
    ∀ l ∈ scriptLines t, '\n' ∉ l := by
  have hpreamble : ∀ l ∈ preamble, '\n' ∉ l := by decide +kernel
  have hprologue : ∀ l ∈ openingLine :: prologue, '\n' ∉ l := by decide +kernel
  have hregistration : ∀ l ∈ closingLine :: registration, '\n' ∉ l := by decide +kernel
  have hbody : ∀ l ∈ bodyLines t, '\n' ∉ l := by
    intro l hl
    rcases mem_bodyLines hl with rfl | ⟨k, hk, rfl⟩
    · exact List.not_mem_nil
    · exact lineFeed_not_mem_line k.depth (h k hk)
  rw [scriptLines_eq, ← List.cons_append]
  simp only [List.forall_mem_append]
  exact ⟨hpreamble, hprologue, hbody, hregistration⟩

theorem splitAt_script {t : CommandTree} (h : IsUnbroken (layoutAll 1 (dispatch t))) :
    Text.splitAt (· = '\n') (script t) = scriptLines t ++ [[]] := by
  have hlines : ∀ l ∈ scriptLines t, ∀ c ∈ l, decide (c = '\n') = false := fun l hl c hc =>
    decide_eq_false (ne_of_mem_of_not_mem hc (lineFeed_not_mem_scriptLines h l hl))
  have hsplit := Text.splitAt_flatMap hlines (by decide : decide ('\n' = '\n') = true) []
  rwa [List.append_nil] at hsplit

/-- The commands of the dispatcher are read back from the script, unless a command at the first two levels is called like the end
of a choice. -/
theorem dispatcher?_script {t : CommandTree} (h : IsPlainTree t) :
    dispatcher? (script t) = if endOfChoice ∈ labelNames t then none else some (asReadAll (dispatch t)) := by
  have hlines : Text.splitAt (· = '\n') (script t) =
      preamble ++ openingLine :: (prologue ++ (bodyLines t ++ closingLine :: (registration ++ [[]]))) := by
    rw [splitAt_script fun k hk => ((isPlainLayout_dispatch h).plain k hk).lineFeed_not_mem, scriptLines_eq]
    simp only [List.append_assoc, List.cons_append]
  have hopening : openingLine ∉ preamble := by decide +kernel
  have hclosing : closingLine ∉ bodyLines t := by
    intro hmem
    rcases mem_bodyLines hmem with hempty | ⟨k, hk, htext⟩
    · exact absurd hempty (by decide)
    · have hlength := two_le_length_line k.depth ((isPlainLayout_dispatch h).plain k hk)
      rw [← Line.text, htext] at hlength
      exact absurd hlength (by decide)
  rw [dispatcher?, hlines, body?_append hopening hclosing, Option.bind_some, filter_bodyLines h,
    readLines?_text (isPlainLayout_dispatch h)]
  split
  · rfl
  · rw [Option.bind_some, commandsOf?_tokens]

/-- The script of a valid tree with plain entries offers what the tree says for every request, unless a command at the first two
levels is called `esac`. The shell takes such a label for the end of the choice and cannot read the dispatcher. -/
theorem reply?_script {t : CommandTree} (hvalid : t.defect? = none) (hplain : ∀ c ∈ t.commands, HasPlainEntries c) (r : Request) :
    reply? (script t) r = if endOfChoice ∈ labelNames t then none else some (expectedReply t r) := by
  have h : IsPlainTree t := fun c hc => ⟨(CommandTree.defect?_eq_none_iff t).1 hvalid c hc, hplain c hc⟩
  rw [reply?, dispatcher?_script h]
  split
  · rfl
  · rw [Option.map_some, runAll_asReadAll, runAll_dispatch hvalid]

/-- A command line whose `commit` under `git` has an option of its own beside `--type`. -/
def commitTree : CommandTree :=
  let commit := ((CommandTree.ofName "commit".toList []).addOption
    (((OptionEntry.value "type".toList []).withShort 't').withChoices ["feature".toList])).addOption
    ((OptionEntry.value "sign".toList []).withChoices ["always".toList, "never".toList])
  (CommandTree.ofName "devx".toList []).addSubcommand ((CommandTree.ofName "git".toList []).addSubcommand commit)

/-- After `devx git commit --sign` the values of that option are offered. -/
theorem reply?_script_commitTree :
    commitTree.defect? = none ∧ (∀ c ∈ commitTree.commands, HasPlainEntries c) ∧
    reply? (script commitTree) ⟨["devx".toList, "git".toList, "commit".toList, "--sign".toList], 4, by decide⟩ =
      some { words := ["always".toList, "never".toList] } :=
  have hvalid : commitTree.defect? = none := by decide
  have hplain : ∀ c ∈ commitTree.commands, HasPlainEntries c := by decide +kernel
  ⟨hvalid, hplain, (reply?_script hvalid hplain _).trans (by decide +kernel)⟩

/-- A command line with a command called like the end of a choice. -/
def endOfChoiceTree : CommandTree :=
  (CommandTree.ofName "devx".toList []).addSubcommand (CommandTree.ofName "esac".toList [])

/-- The tree is valid and plain, and it says that the command is offered for the first word, but the script offers nothing. -/
theorem reply?_script_endOfChoiceTree :
    endOfChoiceTree.defect? = none ∧ (∀ c ∈ endOfChoiceTree.commands, HasPlainEntries c) ∧
    expectedReply endOfChoiceTree ⟨["devx".toList], 1, by decide⟩ = { words := ["esac".toList] } ∧
    reply? (script endOfChoiceTree) ⟨["devx".toList], 1, by decide⟩ = none := by
  decide +kernel

end Bash

end DevWorkflow
