import DevWorkflow.Proofs.Completion.Bash.Blocks
import DevWorkflow.Proofs.Completion.Bash.Reading

/-!
# The nesting of the bash script

Names, listed values and descriptions stand in the script on one line each, behind a label or inside quotes, so that none of them can
look like a line that opens or closes something. The lines of the script are well nested if the forms of the options, which are written
as they are, have no line feeds in them. Its one outer choice has an arm for each command at the first level, and the arm of a command
with subcommands has one choice in it, with an arm for each of them (`Bash.nest?_script`).
-/

namespace DevWorkflow

namespace Bash

/-! ## Choices among blocks -/

mutual

/-- The choices in a block, each as its arms, but for those inside the arms of another one. -/
def Block.choices : Block → List (List BlockArm)
  | .line _ => []
  | .group _ _ body => choicesIn body
  | .choice _ arms => [arms]

/-- The choices in some blocks, but for those inside the arms of another one. -/
def choicesIn : List Block → List (List BlockArm)
  | [] => []
  | b :: rest => b.choices ++ choicesIn rest

end

theorem choicesIn_eq (bs : List Block) : choicesIn bs = bs.flatMap Block.choices := by
  induction bs with
  | nil => rfl
  | cons b rest ih => rw [choicesIn, ih, List.flatMap_cons]

theorem choicesIn_append (bs cs : List Block) : choicesIn (bs ++ cs) = choicesIn bs ++ choicesIn cs := by
  rw [choicesIn_eq, choicesIn_eq, choicesIn_eq, List.flatMap_append]

/-- Lines by themselves. -/
def lineBlocks (ls : List Text) : List Block := ls.map .line

theorem linesOfAll_lineBlocks (ls : List Text) : linesOfAll (lineBlocks ls) = ls := by
  induction ls with
  | nil => rfl
  | cons l ls ih => exact congrArg (l :: ·) ih

theorem choicesIn_lineBlocks (ls : List Text) : choicesIn (lineBlocks ls) = [] := by
  induction ls with
  | nil => rfl
  | cons l ls ih => exact ih

theorem allProper_lineBlocks {ls : List Text} (h : ∀ l ∈ ls, markOf l = .plain) : AllProper (lineBlocks ls) := by
  induction ls with
  | nil => trivial
  | cons l ls ih =>
    obtain ⟨hl, hls⟩ := List.forall_mem_cons.1 h
    exact ⟨hl, ih hls⟩

/-! ## Commands as blocks -/

mutual

/-- A command as a block. -/
def Command.block : Command → Block
  | .offer words => .line (Token.offer words).text
  | .offerFiles => .line Token.offerFiles.text
  | .done => .line Token.done.text
  | .ifPosition n body => .group .test (Token.ifPosition n).text (blocksOf body)
  | .ifPrevious words body => .group .test (Token.ifPrevious words).text (blocksOf body)
  | .byWord n arms => .choice (Token.byWord n).text (blockArms arms)

/-- Some commands as blocks. -/
def blocksOf : List Command → List Block
  | [] => []
  | c :: rest => c.block :: blocksOf rest

/-- The arms of a choice as arms of a block. -/
def blockArms : List Arm → List BlockArm
  | [] => []
  | .mk label body :: rest => .mk (quote label) (blocksOf body) :: blockArms rest

end

theorem blocksOf_eq (cs : List Command) : blocksOf cs = cs.map Command.block := by
  induction cs with
  | nil => rfl
  | cons c rest ih => rw [blocksOf, ih, List.map_cons]

theorem blockArms_map (ts : List CommandTree) (body : CommandTree → List Command) :
    blockArms (ts.map fun t => .mk t.name (body t)) = ts.map fun t => .mk (quote t.name) (blocksOf (body t)) := by
  induction ts with
  | nil => rfl
  | cons t rest ih => rw [List.map_cons, blockArms, ih, List.map_cons]

/-- The texts of some lines, without indentation. -/
def texts (ls : List Line) : List Text := ls.map fun l => l.token.text

mutual

/-- The lines of a command are those of its block. -/
theorem texts_layout : ∀ (depth : Nat) (c : Command), texts (c.layout depth) = c.block.lines
  | depth, .offer words => by rw [Command.layout, Command.block, Block.lines]; rfl
  | depth, .offerFiles => by rw [Command.layout, Command.block, Block.lines]; rfl
  | depth, .done => by rw [Command.layout, Command.block, Block.lines]; rfl
  | depth, .ifPosition n body => by
    rw [Command.layout, Command.block, Block.lines, ← texts_layoutAll (depth + 1) body, texts, List.map_append, List.map_cons]
    rfl
  | depth, .ifPrevious words body => by
    rw [Command.layout, Command.block, Block.lines, ← texts_layoutAll (depth + 1) body, texts, List.map_append, List.map_cons]
    rfl
  | depth, .byWord n arms => by
    rw [Command.layout, Command.block, Block.lines, ← texts_layoutArms (depth + 1) arms, texts, List.map_append, List.map_cons]
    rfl

theorem texts_layoutAll : ∀ (depth : Nat) (cs : List Command), texts (layoutAll depth cs) = linesOfAll (blocksOf cs)
  | depth, [] => by rw [layoutAll, blocksOf, linesOfAll]; rfl
  | depth, c :: rest => by
    rw [layoutAll, blocksOf, linesOfAll, ← texts_layout depth c, ← texts_layoutAll depth rest]
    exact List.map_append

theorem texts_layoutArms : ∀ (depth : Nat) (arms : List Arm), texts (layoutArms depth arms) = linesOfArms (blockArms arms)
  | depth, [] => by rw [layoutArms, blockArms, linesOfArms]; rfl
  | depth, .mk label body :: rest => by
    rw [layoutArms, blockArms, linesOfArms, ← texts_layoutAll (depth + 1) body, ← texts_layoutArms depth rest, texts,
      List.map_append, List.map_cons]
    rfl

end

/-! ## No line looks like another -/

theorem markOf_offer (words : List Text) : markOf (Token.offer words).text = .plain := by
  have hlast : (Token.offer words).text.getLast? = some ')' := by
    unfold Token.text
    rw [List.getLast?_append_of_ne_nil _ (by decide)]
    rfl
  have hfirst : ∃ rest, (Token.offer words).text = 'C' :: rest := ⟨_, rfl⟩
  obtain ⟨rest, htext⟩ := hfirst
  rw [htext] at hlast ⊢
  exact markOf_cons (by decide) (by rw [hlast]; decide)

theorem markOf_ifPosition (n : Nat) : markOf (Token.ifPosition n).text = .opens .test := by
  have htext : (Token.ifPosition n).text = "if [[ $\x7bCOMP_CWORD\x7d -eq ".toList ++ (Nat.toDigits 10 n ++ " ]]; then".toList) :=
    List.append_assoc _ _ _
  have hstart : "if [[ ".toList <+: "if [[ $\x7bCOMP_CWORD\x7d -eq ".toList := by decide
  rw [htext]
  exact markOf_test (hstart.trans (List.prefix_append _ _)) ((List.suffix_append _ _).trans (List.suffix_append _ _))

theorem markOf_ifPrevious (words : List Text) : markOf (Token.ifPrevious words).text = .opens .test := by
  have htext : (Token.ifPrevious words).text = "if [[ ".toList ++ (previousTest words ++ " ]]; then".toList) :=
    List.append_assoc _ _ _
  rw [htext]
  exact markOf_test (List.prefix_append _ _) ((List.suffix_append _ _).trans (List.suffix_append _ _))

theorem markOf_byWord (n : Nat) : markOf (Token.byWord n).text = .opensChoice := by
  have htext : (Token.byWord n).text = "case \"$\x7bCOMP_WORDS[".toList ++ (Nat.toDigits 10 n ++ "]\x7d\" in".toList) :=
    List.append_assoc _ _ _
  have hstart : "case ".toList <+: "case \"$\x7bCOMP_WORDS[".toList := by decide
  have hend : " in".toList <:+ "]\x7d\" in".toList := by decide
  rw [htext]
  exact markOf_choice (hstart.trans (List.prefix_append _ _))
    (hend.trans ((List.suffix_append _ _).trans (List.suffix_append _ _)))

mutual

/-- Whatever words are in a command, its lines open and close what they should. -/
theorem Command.isProper_block : ∀ c : Command, c.block.IsProper
  | .offer words => by rw [Command.block]; exact markOf_offer words
  | .offerFiles => by rw [Command.block]; exact (by decide : markOf Token.offerFiles.text = .plain)
  | .done => by rw [Command.block]; exact (by decide : markOf Token.done.text = .plain)
  | .ifPosition n body => by rw [Command.block]; exact ⟨markOf_ifPosition n, allProper_blocksOf body⟩
  | .ifPrevious words body => by rw [Command.block]; exact ⟨markOf_ifPrevious words, allProper_blocksOf body⟩
  | .byWord n arms => by rw [Command.block]; exact ⟨markOf_byWord n, armsProper_blockArms arms⟩

theorem allProper_blocksOf : ∀ cs : List Command, AllProper (blocksOf cs)
  | [] => by rw [blocksOf]; trivial
  | c :: rest => by rw [blocksOf]; exact ⟨c.isProper_block, allProper_blocksOf rest⟩

theorem armsProper_blockArms : ∀ arms : List Arm, ArmsProper (blockArms arms)
  | [] => by rw [blockArms]; trivial
  | .mk _ body :: rest => by rw [blockArms]; exact ⟨allProper_blocksOf body, armsProper_blockArms rest⟩

end

/-! ## The script as blocks -/

/-- A line without its indentation. -/
def unindented (l : Text) : Text := l.dropWhile (· = ' ')

theorem map_unindented_lines (depth : Nat) (c : Command) : (c.lines depth).map unindented = c.block.lines := by
  have htext : unindented ∘ Line.text = fun l => l.token.text := funext fun l => dropWhile_line l.depth l.token
  rw [Command.lines_eq, List.map_map, htext]
  exact texts_layout depth c

/-- The blocks above the dispatcher: the comment and the helper functions. -/
def preambleBlocks : List Block :=
  lineBlocks (preamble.take 2) ++ DynamicSource.all.flatMap fun s =>
    [.group .function (s.function ++ "() \x7b".toList) [.line s.command], .line []]

/-- What stands in the dispatcher. -/
def dispatcherBlocks (t : CommandTree) : List Block :=
  lineBlocks (prologue.map unindented ++ [[]]) ++ (firstWord t).block :: .line [] :: [(laterWords t).block]

/-- The blocks below the dispatcher. -/
def registrationBlocks : List Block := lineBlocks (registration ++ [[]])

/-- The blocks of the script. -/
def scriptBlocks (t : CommandTree) : List Block :=
  preambleBlocks ++ .group .function openingLine (dispatcherBlocks t) :: registrationBlocks

theorem linesOfAll_preambleBlocks : linesOfAll preambleBlocks = preamble.map unindented := by decide +kernel

theorem linesOfAll_dispatcherBlocks (t : CommandTree) :
    linesOfAll (dispatcherBlocks t) = (prologue ++ bodyLines t).map unindented := by
  rw [dispatcherBlocks, linesOfAll_append, linesOfAll_lineBlocks, bodyLines]
  simp only [linesOfAll, Block.lines, List.map_append, List.map_cons, map_unindented_lines, List.append_assoc,
    List.cons_append, List.nil_append, List.append_nil]
  rfl

/-- The lines of the script are those of the blocks. -/
theorem linesOfAll_scriptBlocks {t : CommandTree} (h : ∀ c ∈ t.commands, ∀ o ∈ c.options, HasUnbrokenForms o) :
    linesOfAll (scriptBlocks t) = (Text.splitAt (· = '\n') (script t)).map unindented := by
  have hregistration : (registration ++ [[]]).map unindented = registration ++ [[]] := by decide +kernel
  rw [splitAt_script (isUnbroken_dispatch h), scriptLines_eq, scriptBlocks, linesOfAll_append, linesOfAll, Block.lines,
    linesOfAll_preambleBlocks, linesOfAll_dispatcherBlocks, registrationBlocks, linesOfAll_lineBlocks, ← hregistration]
  simp only [List.map_append, List.map_cons, List.append_assoc, List.cons_append, List.map_nil, List.nil_append]
  rfl

theorem allProper_preambleBlocks : AllProper preambleBlocks := by
  have hcomment : ∀ l ∈ preamble.take 2, markOf l = .plain := by decide +kernel
  have hcommand : ∀ s ∈ DynamicSource.all, markOf s.command = .plain := by decide +kernel
  refine (allProper_append _ _).2 ⟨allProper_lineBlocks hcomment, (allProper_iff _).2 fun b hb => ?_⟩
  obtain ⟨s, hs, hb⟩ := List.mem_flatMap.1 hb
  rcases List.mem_pair.1 hb with rfl | rfl
  · exact ⟨markOf_function (List.suffix_append _ _), hcommand s hs, trivial⟩
  · exact (by decide : markOf [] = .plain)

theorem allProper_scriptBlocks (t : CommandTree) : AllProper (scriptBlocks t) := by
  have hprologue : ∀ l ∈ prologue.map unindented ++ [[]], markOf l = .plain := by decide +kernel
  have hregistration : ∀ l ∈ registration ++ [[]], markOf l = .plain := by decide +kernel
  have hempty : markOf [] = .plain := by decide
  have hbody : AllProper (dispatcherBlocks t) := (allProper_append _ _).2
    ⟨allProper_lineBlocks hprologue, (firstWord t).isProper_block, hempty, (laterWords t).isProper_block, trivial⟩
  exact (allProper_append _ _).2
    ⟨allProper_preambleBlocks, ⟨markOf_function (List.suffix_append _ _), hbody⟩, allProper_lineBlocks hregistration⟩

/-! ## The choices of the script -/

theorem choicesIn_leafCommands (parent : Text) (t : CommandTree) : choicesIn (blocksOf (leafCommands parent t)) = [] := by
  rw [choicesIn_eq, blocksOf_eq, List.flatMap_map, List.flatMap_eq_nil_iff]
  intro c hc
  rcases cases_of_mem_leafCommands hc with ⟨previous, words, rfl, -⟩ | ⟨words, rfl⟩ | rfl | rfl <;> rfl

/-- Whether an arm is the one of a command at the second level: it has the command's name, and no choice in it. -/
def IsInnerArm (t : CommandTree) (a : BlockArm) : Prop := a.label = quote t.name ∧ choicesIn a.body = []

/-- Whether an arm is the one of a command at the first level: it has the command's name, and if the command has subcommands, then
there is one choice in it, with an arm for each of them in order, and otherwise none. -/
def IsOuterArm (t : CommandTree) (a : BlockArm) : Prop :=
  a.label = quote t.name ∧
    if t.isLeaf then choicesIn a.body = []
    else ∃ arms, choicesIn a.body = [arms] ∧ List.Forall₂ IsInnerArm t.subcommands arms

theorem forall₂_isInnerArm (parent : Text) (ts : List CommandTree) :
    List.Forall₂ IsInnerArm ts (blockArms (ts.map (innerArm parent))) := by
  have harms : blockArms (ts.map (innerArm parent)) = _ := blockArms_map ts _
  rw [harms, List.forall₂_map_right_iff, List.forall₂_same]
  refine fun t _ => ⟨rfl, ?_⟩
  rw [BlockArm.body]
  split
  · exact choicesIn_leafCommands parent t
  · rfl

theorem forall₂_isOuterArm (root : Text) (ts : List CommandTree) :
    List.Forall₂ IsOuterArm ts (blockArms (ts.map (outerArm root))) := by
  have harms : blockArms (ts.map (outerArm root)) = _ := blockArms_map ts _
  rw [harms, List.forall₂_map_right_iff, List.forall₂_same]
  refine fun t _ => ⟨rfl, ?_⟩
  rw [BlockArm.body]
  split
  · exact choicesIn_leafCommands root t
  · exact ⟨_, rfl, forall₂_isInnerArm t.name t.subcommands⟩

/-- The script of a tree is well nested if the forms of its options have no line feeds in them, whatever its names, listed values and
descriptions are. The dispatcher has one choice in it, with an arm for each command at the first level in order, and the arm of a
command with subcommands has one choice in it, with an arm for each of them in order. There are no other choices in the script. -/
theorem nest?_script {t : CommandTree} (h : ∀ c ∈ t.commands, ∀ o ∈ c.options, HasUnbrokenForms o) :
    ∃ before body after arms,
      nest? ((Text.splitAt (· = '\n') (script t)).map unindented) = some (before ++ .group .function openingLine body :: after) ∧
      choicesIn before = [] ∧ choicesIn after = [] ∧ choicesIn body = [arms] ∧ List.Forall₂ IsOuterArm t.subcommands arms := by
  refine ⟨preambleBlocks, dispatcherBlocks t, registrationBlocks, blockArms (t.subcommands.map (outerArm t.name)),
    nest?_eq_some_iff.2 ⟨allProper_scriptBlocks t, linesOfAll_scriptBlocks h⟩, rfl, choicesIn_lineBlocks _, ?_,
    forall₂_isOuterArm _ _⟩
  rw [dispatcherBlocks, choicesIn_append, choicesIn_lineBlocks]
  rfl

/-- A command line whose names and listed values look like lines of a script. -/
def keywordTree : CommandTree :=
  let leaf := (CommandTree.ofName "esac".toList "\x7d".toList).addOption
    (((OptionEntry.value "case x in".toList ";;".toList).withShort ')').withChoices ["fi".toList, "\n;;\nesac".toList])
  let branch := (CommandTree.ofName "case x in".toList []).addSubcommand (CommandTree.ofName "\x7d\nfi".toList [])
  ((CommandTree.ofName "devx".toList []).addSubcommand leaf).addSubcommand branch

/-- Its script is well nested all the same, with an arm for `esac` and one for `case x in`. -/
theorem nest?_script_keywordTree :
    (∀ c ∈ keywordTree.commands, ∀ o ∈ c.options, HasUnbrokenForms o) ∧
    ∃ before body after arms,
      nest? ((Text.splitAt (· = '\n') (script keywordTree)).map unindented) =
        some (before ++ .group .function openingLine body :: after) ∧
      choicesIn body = [arms] ∧ arms.map BlockArm.label = ["esac".toList, "case x in".toList] := by
  have h : ∀ c ∈ keywordTree.commands, ∀ o ∈ c.options, HasUnbrokenForms o := by decide +kernel
  obtain ⟨before, body, after, arms, hnest, -, -, hbody, harms⟩ := nest?_script h
  refine ⟨h, before, body, after, arms, hnest, hbody, ?_⟩
  have hlabels : keywordTree.subcommands.map (fun c => quote c.name) = arms.map BlockArm.label := by
    rw [← List.forall₂_eq_eq_eq, List.forall₂_map_left_iff, List.forall₂_map_right_iff]
    exact harms.imp fun c a ha => ha.1.symm
  rw [← hlabels]
  decide +kernel

end Bash

end DevWorkflow
