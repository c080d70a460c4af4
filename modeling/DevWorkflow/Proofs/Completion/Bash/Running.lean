import DevWorkflow.Completion.Bash
import DevWorkflow.Proofs.Completion.Validity

/-!
# What the bash dispatcher offers

A command of the dispatcher is run for a line on which a word is to be completed. It changes the reply and may end the dispatcher;
of a choice only the first arm with the right label is run. Run for a valid tree, the dispatcher offers what the first two words
of the line lead to (`Bash.runAll_dispatch`).
-/

namespace DevWorkflow

namespace Bash

/-! ## Running a command -/

/-- A line on which a word is to be completed. -/
structure Request where
  /-- The words of the line, the name of the program first. -/
  words : List Text
  /-- The position of the word to be completed. -/
  position : Nat
  /-- The name of the program is not completed. -/
  position_pos : 1 ≤ position

namespace Request

/-- The word at a position. Behind the end of the line stands the empty word. -/
def word (r : Request) (n : Nat) : Text := r.words.getD n []

/-- The word before the one to be completed. -/
def previous (r : Request) : Text := r.word (r.position - 1)

end Request

/-- What is offered, before the shell leaves out what does not begin like the word to be completed. -/
structure Reply where
  words : List Text := []
  /-- Whether file names are offered beside the words. -/
  files : Bool := false
deriving DecidableEq, Repr

namespace Reply

/-- Nothing is offered. -/
def nothing : Reply := {}

/-- The words of a list are offered. An empty word leaves no trace in the list. -/
def ofWords (words : List Text) : Reply := { words := words.filter fun w => !w.isEmpty }

/-- A list without empty words is offered as it is. -/
theorem ofWords_of_forall {words : List Text} (h : ∀ w ∈ words, w ≠ []) : ofWords words = { words } := by
  rw [ofWords, List.filter_eq_self.2 fun w hw => by simpa using h w hw]

end Reply

/-- What a command came to. -/
structure Outcome where
  reply : Reply
  /-- Whether the dispatcher has ended. -/
  ended : Bool
deriving DecidableEq, Repr

/-- Goes on with the reply so far, unless the dispatcher has ended. -/
def Outcome.andThen (out : Outcome) (next : Reply → Outcome) : Outcome := if out.ended then out else next out.reply

/-- Nothing is done after the end. -/
@[simp] theorem Outcome.andThen_ended (reply : Reply) (next : Reply → Outcome) :
    (Outcome.mk reply true).andThen next = ⟨reply, true⟩ := rfl

/-- Before the end the next step is done. -/
@[simp] theorem Outcome.andThen_running (reply : Reply) (next : Reply → Outcome) :
    (Outcome.mk reply false).andThen next = next reply := rfl

theorem Outcome.andThen_assoc (out : Outcome) (f g : Reply → Outcome) :
    (out.andThen f).andThen g = out.andThen fun reply => (f reply).andThen g := by
  obtain ⟨reply, ended⟩ := out
  cases ended <;> rfl

mutual

/-- Runs a command with the reply so far. -/
def Command.run (r : Request) (reply : Reply) : Command → Outcome
  | .offer words => ⟨.ofWords words, false⟩
  | .offerFiles => ⟨{ reply with files := true }, false⟩
  | .done => ⟨reply, true⟩
  | .ifPosition n body => if r.position = n then runAll r reply body else ⟨reply, false⟩
  | .ifPrevious words body => if words.contains r.previous then runAll r reply body else ⟨reply, false⟩
  | .byWord n arms => runFirst r (r.word n) reply arms

/-- Runs some commands, one after another, until the dispatcher ends. -/
def runAll (r : Request) (reply : Reply) : List Command → Outcome
  | [] => ⟨reply, false⟩
  | c :: rest => (c.run r reply).andThen fun reply => runAll r reply rest

/-- Runs the first of some arms whose label is the given word. -/
def runFirst (r : Request) (word : Text) (reply : Reply) : List Arm → Outcome
  | [] => ⟨reply, false⟩
  | .mk label body :: rest => if label = word then runAll r reply body else runFirst r word reply rest

end

/-- Commands in two parts are run one part after the other. -/
theorem runAll_append (r : Request) (reply : Reply) (cs ds : List Command) :
    runAll r reply (cs ++ ds) = (runAll r reply cs).andThen fun reply => runAll r reply ds := by
  induction cs generalizing reply with
  | nil => rw [List.nil_append, runAll, Outcome.andThen_running]
  | cons c rest ih =>
    rw [List.cons_append, runAll, runAll, Outcome.andThen_assoc]
    exact congrArg _ (funext ih)

theorem runAll_singleton (r : Request) (reply : Reply) (c : Command) : runAll r reply [c] = c.run r reply := by
  rw [runAll]
  obtain ⟨reply, ended⟩ := c.run r reply
  cases ended <;> rfl

/-- Commands that offer words and end the dispatcher. -/
theorem runAll_offer_done (r : Request) (reply : Reply) (words : List Text) :
    runAll r reply [.offer words, .done] = ⟨.ofWords words, true⟩ := by
  simp [runAll, Command.run]

/-- Commands that do so after one of some words. -/
theorem runAll_ifPrevious (r : Request) (reply : Reply) (previous words : List Text) :
    runAll r reply [.ifPrevious previous [.offer words, .done]] =
      if previous.contains r.previous then ⟨.ofWords words, true⟩ else ⟨reply, false⟩ := by
  rw [runAll_singleton, Command.run, runAll_offer_done]

/-- Of arms with the names of some commands the one for the first command of that name is run. -/
theorem runFirst_map (r : Request) (word : Text) (reply : Reply) (ts : List CommandTree) (body : CommandTree → List Command) :
    runFirst r word reply (ts.map fun t => .mk t.name (body t)) =
      match ts.find? fun t => t.name = word with
      | some t => runAll r reply (body t)
      | none => ⟨reply, false⟩ := by
  induction ts with
  | nil => rw [List.map_nil, runFirst, List.find?_nil]
  | cons t rest ih =>
    rw [List.map_cons, runFirst, List.find?_cons]
    by_cases hname : t.name = word
    · simp [hname]
    · rw [if_neg hname, ih, decide_eq_false hname]

/-! ## What the tree says -/

/-- What is offered for a command with subcommands: their names and its options. -/
def branchReply (t : CommandTree) : Reply := { words := t.subcommands.map (·.name) ++ t.flagWords }

/-- The first option with listed values that a word names. -/
def valueOption? (options : List OptionEntry) (word : Text) : Option OptionEntry :=
  options.find? fun o => o.choiceList.isSome && o.flagWords.contains word

/-- What is offered for a command without subcommands, below the command called `parent`: the values of the option before the
word, or else the command's options, and file names if it passes unknown options on. -/
def leafReply (parent : Text) (t : CommandTree) (previous : Text) : Reply :=
  if isGitCommit parent t ∧ (previous = "--type".toList ∨ previous = "-t".toList) then { words := commitTypes }
  else
    match valueOption? (t.options.filter fun o => !(isGitCommit parent t && o.long = "type".toList)) previous with
    | some o => .ofWords (o.choiceList.getD [])
    | none => { words := t.flagWords, files := t.allowUnknownOption }

/-- What is offered on a line: what the root is completed with, or the command named by the first word, or the command named by the
second one. -/
def expectedReply (t : CommandTree) (r : Request) : Reply :=
  if r.position = 1 then branchReply t
  else
    match t.child? (r.word 1) with
    | none => .nothing
    | some c =>
      if c.isLeaf then leafReply t.name c r.previous
      else if r.position = 2 then branchReply c
      else
        match c.child? (r.word 2) with
        | none => .nothing
        | some d => if d.isLeaf then leafReply c.name d r.previous else branchReply d

/-! ## The dispatcher offers what the tree says -/

/-- The words that name an option are not empty. -/
theorem ne_nil_of_mem_flagWords {t : CommandTree} {w : Text} (h : w ∈ t.flagWords) : w ≠ [] := by
  obtain ⟨o, -, hw⟩ := List.mem_flatMap.1 h
  rcases OptionEntry.of_mem_flagWords hw with rfl | ⟨c, -, rfl⟩
  · exact nofun
  · exact List.cons_ne_nil _ _

theorem ofWords_flagWords (t : CommandTree) : Reply.ofWords t.flagWords = { words := t.flagWords } :=
  Reply.ofWords_of_forall fun _ => ne_nil_of_mem_flagWords

/-- If the subcommands have names, the words for a command with subcommands are offered as they are. -/
theorem ofWords_branchWords {t : CommandTree} (h : ∀ c ∈ t.subcommands, c.name ≠ []) :
    Reply.ofWords (branchWords t) = branchReply t := by
  refine Reply.ofWords_of_forall fun w hw => ?_
  rcases List.mem_append.1 hw with hw | hw
  · obtain ⟨c, hc, rfl⟩ := List.mem_map.1 hw
    exact h c hc
  · exact ne_nil_of_mem_flagWords hw

/-- The commands for the listed values of some options offer those of the first option that the previous word names. -/
theorem runAll_choiceCommands (r : Request) (reply : Reply) (options : List OptionEntry) :
    runAll r reply (options.flatMap choiceCommands) =
      match valueOption? options r.previous with
      | some o => ⟨.ofWords (o.choiceList.getD []), true⟩
      | none => ⟨reply, false⟩ := by
  induction options with
  | nil => rw [List.flatMap_nil, runAll, valueOption?, List.find?_nil]
  | cons o rest ih =>
    rw [List.flatMap_cons, runAll_append, valueOption?, List.find?_cons]
    cases hchoices : o.choiceList with
    | none =>
      rw [choiceCommands, hchoices, runAll, Outcome.andThen_running, ih]
      rfl
    | some choices =>
      have hrun : runAll r reply (choiceCommands o) =
          if o.flagWords.contains r.previous then ⟨.ofWords choices, true⟩ else ⟨reply, false⟩ := by
        rw [choiceCommands, hchoices]
        exact runAll_ifPrevious r reply o.flagWords choices
      rw [hrun]
      cases hnamed : o.flagWords.contains r.previous with
      | true => simp [hchoices]
      | false => exact ih

/-- The commands for the types of a commit offer them after the words that name the option. -/
theorem runAll_typeCommands (r : Request) (parent : Text) (t : CommandTree) :
    runAll r .nothing
      (if isGitCommit parent t then [.ifPrevious ["--type".toList, "-t".toList] [.offer commitTypes, .done]] else []) =
    if isGitCommit parent t ∧ (r.previous = "--type".toList ∨ r.previous = "-t".toList) then ⟨{ words := commitTypes }, true⟩
    else ⟨.nothing, false⟩ := by
  have htypes : Reply.ofWords commitTypes = { words := commitTypes } := by decide
  cases isGitCommit parent t with
  | false => simp [runAll]
  | true =>
    rw [if_pos rfl, runAll_ifPrevious, htypes]
    simp

/-- The last commands for a command without subcommands offer its options and end the dispatcher. -/
theorem runAll_ownCommands (r : Request) (reply : Reply) (t : CommandTree) :
    runAll r reply ([.offer t.flagWords] ++ (if t.allowUnknownOption then [.offerFiles] else []) ++ [.done]) =
      ⟨{ words := t.flagWords, files := t.allowUnknownOption }, true⟩ := by
  cases t.allowUnknownOption <;> simp [runAll, Command.run, ofWords_flagWords]

/-- The commands for a command without subcommands offer what the tree says and end the dispatcher. -/
theorem runAll_leafCommands (r : Request) (parent : Text) (t : CommandTree) :
    runAll r .nothing (leafCommands parent t) = ⟨leafReply parent t r.previous, true⟩ := by
  -- each of the three parts ends the dispatcher or leaves the reply as it was
  rw [leafCommands, List.append_assoc, List.append_assoc, runAll_append, runAll_append, runAll_typeCommands, leafReply]
  split
  · rfl
  · rw [Outcome.andThen_running, runAll_choiceCommands]
    cases valueOption? (t.options.filter fun o => !(isGitCommit parent t && o.long = "type".toList)) r.previous with
    | some o => rfl
    | none => rw [← runAll_ownCommands r .nothing]; rfl

/-- The arms of the second level run what the tree says. -/
theorem runFirst_innerArms (r : Request) (parent word : Text) {ts : List CommandTree}
    (h : ∀ t ∈ ts, ∀ c ∈ t.subcommands, c.name ≠ []) :
    (runFirst r word .nothing (ts.map (innerArm parent))).reply =
      match ts.find? fun t => t.name = word with
      | none => .nothing
      | some t => if t.isLeaf then leafReply parent t r.previous else branchReply t := by
  unfold innerArm
  rw [runFirst_map]
  cases hfound : ts.find? fun t => t.name = word with
  | none => rfl
  | some t =>
    dsimp only
    split
    · rw [runAll_leafCommands]
    · rw [runAll_offer_done, ofWords_branchWords (h t (List.mem_of_find?_eq_some hfound))]

/-- Run for a valid tree, the dispatcher offers what the tree says. -/
theorem runAll_dispatch {t : CommandTree} (h : t.defect? = none) (r : Request) :
    (runAll r .nothing (dispatch t)).reply = expectedReply t r := by
  have hnamed : ∀ c ∈ t.commands, c.name ≠ [] := fun c hc => ((CommandTree.defect?_eq_none_iff t).1 h c hc).named
  have hbelow : ∀ c ∈ t.subcommands, ∀ d ∈ c.commands, d.name ≠ [] := fun c hc d hd =>
    hnamed d (CommandTree.mem_commands_of_subcommand hc hd)
  rw [dispatch, runAll, firstWord, Command.run, expectedReply]
  by_cases hfirst : r.position = 1
  · rw [if_pos hfirst, if_pos hfirst, runAll_offer_done, Outcome.andThen_ended, ofWords_branchWords]
    exact fun c hc => hbelow c hc c c.mem_commands_self
  · rw [if_neg hfirst, if_neg hfirst, Outcome.andThen_running, laterWords, runAll_singleton, Command.run]
    unfold outerArm
    rw [runFirst_map, CommandTree.child?]
    cases hfound : t.subcommands.find? fun c => c.name = r.word 1 with
    | none => rfl
    | some c =>
      have hc : c ∈ t.subcommands := List.mem_of_find?_eq_some hfound
      dsimp only
      split
      case isTrue => rw [runAll_leafCommands]
      case isFalse =>
        rw [runAll, Command.run]
        by_cases hsecond : r.position = 2
        · rw [if_pos hsecond, if_pos hsecond, runAll_offer_done, Outcome.andThen_ended, ofWords_branchWords]
          exact fun d hd => hbelow c hc d (CommandTree.mem_commands_of_subcommand hd d.mem_commands_self)
        · rw [if_neg hsecond, if_neg hsecond, Outcome.andThen_running, runAll_singleton, Command.run]
          refine runFirst_innerArms r c.name (r.word 2) fun d hd e he => hbelow c hc e ?_
          exact CommandTree.mem_commands_of_subcommand hd (CommandTree.mem_commands_of_subcommand he e.mem_commands_self)

end Bash

end DevWorkflow
