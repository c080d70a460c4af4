import DevWorkflow.Proofs.Completion.Bash.Lines

/-!
# Nested lines of a shell script

Some lines of a script open a function, a test or a choice, and other lines close it again. Lines are well nested if they can be read
one by one, with a stack of what is open: a line closes only what was opened last, and behind the opening line of a choice and behind
each of its arms stands either the label of the next arm or the end of the choice. Lines are well nested just if they are the lines of
some blocks, and these are then what is read (`Bash.nest?_eq_some_iff`).
-/

namespace DevWorkflow

namespace Bash

/-! ## Blocks -/

/-- What an opening line and a closing line stand around, choices apart. -/
inductive Grouping where
  | function
  | test
deriving DecidableEq, Repr

/-- The line that closes. -/
def Grouping.closing : Grouping → Text
  | function => "\x7d".toList
  | test => "fi".toList

/-- The line that ends an arm. -/
def endOfArm : Text := ";;".toList

mutual

/-- A part of a script. -/
inductive Block where
  /-- A line that opens and closes nothing. -/
  | line (text : Text)
  /-- A function or a test, with its opening line. -/
  | group (g : Grouping) (opening : Text) (body : List Block)
  /-- A choice, with its opening line. -/
  | choice (opening : Text) (arms : List BlockArm)

/-- An arm of a choice. -/
inductive BlockArm where
  | mk (label : Text) (body : List Block)

end

/-- The label of an arm, without the bracket behind it. -/
def BlockArm.label : BlockArm → Text
  | .mk label _ => label

/-- What stands in an arm. -/
def BlockArm.body : BlockArm → List Block
  | .mk _ body => body

mutual

/-- The lines of a block, without indentation. -/
def Block.lines : Block → List Text
  | .line t => [t]
  | .group g opening body => opening :: linesOfAll body ++ [g.closing]
  | .choice opening arms => opening :: linesOfArms arms ++ [endOfChoice]

/-- The lines of some blocks. -/
def linesOfAll : List Block → List Text
  | [] => []
  | b :: rest => b.lines ++ linesOfAll rest

/-- The lines of some arms. -/
def linesOfArms : List BlockArm → List Text
  | [] => []
  | .mk label body :: rest => (label ++ [')']) :: linesOfAll body ++ endOfArm :: linesOfArms rest

end

theorem linesOfAll_append (bs cs : List Block) : linesOfAll (bs ++ cs) = linesOfAll bs ++ linesOfAll cs := by
  induction bs with
  | nil => rfl
  | cons b rest ih => rw [List.cons_append, linesOfAll, linesOfAll, ih, List.append_assoc]

theorem linesOfAll_singleton (b : Block) : linesOfAll [b] = b.lines := by
  rw [linesOfAll, linesOfAll, List.append_nil]

theorem linesOfArms_append (as bs : List BlockArm) : linesOfArms (as ++ bs) = linesOfArms as ++ linesOfArms bs := by
  induction as with
  | nil => rfl
  | cons a rest ih =>
    obtain ⟨label, body⟩ := a
    rw [List.cons_append, linesOfArms, linesOfArms, ih]
    simp only [List.append_assoc, List.cons_append]

/-! ## What a line opens and closes -/

/-- What a line does to the lines around it. -/
inductive Mark where
  | plain
  | opens (g : Grouping)
  | closes (g : Grouping)
  | opensChoice
  | closesChoice
  | closesArm
deriving DecidableEq, Repr

/-- The mark of a line, where no label is expected. -/
def markOf (l : Text) : Mark :=
  if l = Grouping.closing .function then .closes .function
  else if l = Grouping.closing .test then .closes .test
  else if l = endOfChoice then .closesChoice
  else if l = endOfArm then .closesArm
  else if "() \x7b".toList <:+ l then .opens .function
  else if "if [[ ".toList <+: l ∧ " ]]; then".toList <:+ l then .opens .test
  else if "case ".toList <+: l ∧ " in".toList <:+ l then .opensChoice
  else .plain

theorem markOf_closing (g : Grouping) : markOf g.closing = .closes g := by
  cases g <;> decide

/-- Only a closing line closes. -/
theorem eq_closing_of_markOf {l : Text} {g : Grouping} (h : markOf l = .closes g) : l = g.closing := by
  unfold markOf at h
  split_ifs at h <;> cases h <;> assumption

theorem eq_endOfArm_of_markOf {l : Text} (h : markOf l = .closesArm) : l = endOfArm := by
  unfold markOf at h
  split_ifs at h
  assumption

theorem getLast?_of_suffix {t l : Text} (h : t <:+ l) (ht : t ≠ []) : l.getLast? = t.getLast? := by
  obtain ⟨before, rfl⟩ := h
  exact List.getLast?_append_of_ne_nil before ht

/-- The lines that close something. -/
def closingLines : List Text := [Grouping.closing .function, Grouping.closing .test, endOfChoice, endOfArm]

/-- What another line opens can be seen at its start and its end. -/
theorem markOf_of_not_mem {l : Text} (h : l ∉ closingLines) :
    markOf l =
      if "() \x7b".toList <:+ l then .opens .function
      else if "if [[ ".toList <+: l ∧ " ]]; then".toList <:+ l then .opens .test
      else if "case ".toList <+: l ∧ " in".toList <:+ l then .opensChoice
      else .plain := by
  have hne : ∀ w ∈ closingLines, l ≠ w := fun w hw heq => h (heq ▸ hw)
  rw [markOf, if_neg (hne _ (by decide)), if_neg (hne _ (by decide)), if_neg (hne _ (by decide)), if_neg (hne _ (by decide))]

theorem markOf_function {l : Text} (h : "() \x7b".toList <:+ l) : markOf l = .opens .function := by
  have hlast := getLast?_of_suffix h (by decide)
  have hclosing : ∀ w ∈ closingLines, w.getLast? ≠ "() \x7b".toList.getLast? := by decide
  rw [markOf_of_not_mem fun hl => hclosing l hl hlast, if_pos h]

theorem markOf_test {l : Text} (hstart : "if [[ ".toList <+: l) (hend : " ]]; then".toList <:+ l) : markOf l = .opens .test := by
  have hlast := getLast?_of_suffix hend (by decide)
  have hfunction : ¬"() \x7b".toList <:+ l := fun h => absurd ((getLast?_of_suffix h (by decide)).symm.trans hlast) (by decide)
  have hclosing : ∀ w ∈ closingLines, ¬"if [[ ".toList <+: w := by decide
  rw [markOf_of_not_mem fun hl => hclosing l hl hstart, if_neg hfunction, if_pos ⟨hstart, hend⟩]

theorem markOf_choice {l : Text} (hstart : "case ".toList <+: l) (hend : " in".toList <:+ l) : markOf l = .opensChoice := by
  have hlast := getLast?_of_suffix hend (by decide)
  have hfunction : ¬"() \x7b".toList <:+ l := fun h => absurd ((getLast?_of_suffix h (by decide)).symm.trans hlast) (by decide)
  have hclosing : ∀ w ∈ closingLines, ¬"case ".toList <+: w := by decide
  have htest : ¬("if [[ ".toList <+: l ∧ " ]]; then".toList <:+ l) := by
    rintro ⟨hif, -⟩
    obtain ⟨rest, rfl⟩ := hstart
    simp [List.cons_prefix_cons] at hif
  rw [markOf_of_not_mem fun hl => hclosing l hl hstart, if_neg hfunction, if_neg htest, if_pos ⟨hstart, hend⟩]

/-- A line is plain if it begins with no character that an opening or closing line begins with, and does not end like a function's
opening line. -/
theorem markOf_cons {c : Char} {rest : Text} (hfirst : c ∉ "\x7dfe;ic".toList) (hlast : (c :: rest).getLast? ≠ some '\x7b') :
    markOf (c :: rest) = .plain := by
  have hfunction : ¬"() \x7b".toList <:+ c :: rest := fun h => hlast (getLast?_of_suffix h (by decide))
  have hclosing : ∀ w ∈ closingLines, w.head?.all (· ∈ "\x7dfe;ic".toList) = true := by decide
  have htest : ¬"if [[ ".toList <+: c :: rest := fun h => hfirst ((List.cons_prefix_cons.1 h).1 ▸ by decide)
  have hchoice : ¬"case ".toList <+: c :: rest := fun h => hfirst ((List.cons_prefix_cons.1 h).1 ▸ by decide)
  have hplain : c :: rest ∉ closingLines := fun hl => hfirst (of_decide_eq_true (hclosing (c :: rest) hl))
  rw [markOf_of_not_mem hplain, if_neg hfunction, if_neg fun h => htest h.1, if_neg fun h => hchoice h.1]

/-! ## Reading -/

/-- What is open around the lines that are being read: the group or arm that they belong to, and what comes before it. -/
inductive BlockFrame where
  | group (g : Grouping) (opening : Text) (before : List Block)
  | arm (label : Text) (opening : Text) (arms : List BlockArm) (before : List Block)

/-- How far the lines have been read. -/
inductive NestState where
  /-- The blocks so far, inside the frames. -/
  | blocks (frames : List BlockFrame) (done : List Block)
  /-- The arms so far of a choice, inside the frames, and the blocks before it. A label or the end of the choice comes next. -/
  | arms (frames : List BlockFrame) (opening : Text) (done : List BlockArm) (before : List Block)

namespace NestState

/-- Reads one line. -/
def step : NestState → Text → Option NestState
  | blocks frames done, l =>
    match markOf l, frames with
    | .plain, frames => some (blocks frames (done ++ [.line l]))
    | .opens g, frames => some (blocks (.group g l done :: frames) [])
    | .opensChoice, frames => some (arms frames l [] done)
    | .closes g, .group g' opening before :: frames =>
      if g = g' then some (blocks frames (before ++ [.group g' opening done])) else none
    | .closesArm, .arm label opening as before :: frames => some (arms frames opening (as ++ [.mk label done]) before)
    | _, _ => none
  | arms frames opening done before, l =>
    if l = endOfChoice then some (blocks frames (before ++ [.choice opening done]))
    else if l.getLast? = some ')' then some (blocks (.arm l.dropLast opening done before :: frames) [])
    else none

/-- Reads some lines. -/
def run (s : NestState) (ls : List Text) : Option NestState := ls.foldlM step s

/-- The blocks, if nothing is open. -/
def complete? : NestState → Option (List Block)
  | blocks [] done => some done
  | _ => none

end NestState

/-- The blocks whose lines are the given ones, if the lines are well nested. -/
def nest? (ls : List Text) : Option (List Block) := ((NestState.blocks [] []).run ls).bind NestState.complete?

example : nest? ["if [[ a ]]; then".toList, "return 0".toList, "fi".toList] =
    some [.group .test "if [[ a ]]; then".toList [.line "return 0".toList]] := by rfl

mutual

/-- Whether the lines of a block open and close what they should. -/
def Block.IsProper : Block → Prop
  | .line t => markOf t = .plain
  | .group g opening body => markOf opening = .opens g ∧ AllProper body
  | .choice opening arms => markOf opening = .opensChoice ∧ ArmsProper arms

/-- Whether the lines of some blocks do. -/
def AllProper : List Block → Prop
  | [] => True
  | b :: rest => b.IsProper ∧ AllProper rest

/-- Whether the lines of some arms do. -/
def ArmsProper : List BlockArm → Prop
  | [] => True
  | .mk _ body :: rest => AllProper body ∧ ArmsProper rest

end

theorem allProper_iff (bs : List Block) : AllProper bs ↔ ∀ b ∈ bs, b.IsProper := by
  induction bs with
  | nil => simp [AllProper]
  | cons b rest ih => rw [AllProper, ih, List.forall_mem_cons]

theorem allProper_append (bs cs : List Block) : AllProper (bs ++ cs) ↔ AllProper bs ∧ AllProper cs := by
  rw [allProper_iff, allProper_iff, allProper_iff, List.forall_mem_append]

theorem allProper_singleton (b : Block) : AllProper [b] ↔ b.IsProper := by
  simp [AllProper]

theorem armsProper_append (as bs : List BlockArm) : ArmsProper (as ++ bs) ↔ ArmsProper as ∧ ArmsProper bs := by
  induction as with
  | nil => simp [ArmsProper]
  | cons a rest ih =>
    obtain ⟨label, body⟩ := a
    rw [List.cons_append, ArmsProper, ArmsProper, ih, and_assoc]

namespace NestState

theorem run_append (s : NestState) (ls ms : List Text) : s.run (ls ++ ms) = (s.run ls).bind fun s => s.run ms :=
  List.foldlM_append

/-- Once a line is read, the others are read from there. -/
theorem run_cons {s next : NestState} {l : Text} (h : s.step l = some next) (ls : List Text) : s.run (l :: ls) = next.run ls := by
  rw [run, List.foldlM_cons, h]
  rfl

section

variable {frames : List BlockFrame} {done before : List Block} {as : List BlockArm} {opening l : Text}

theorem step_plain (h : markOf l = .plain) : (blocks frames done).step l = some (blocks frames (done ++ [.line l])) := by
  simp only [step, h]

theorem step_opens {g : Grouping} (h : markOf l = .opens g) :
    (blocks frames done).step l = some (blocks (.group g l done :: frames) []) := by
  simp only [step, h]

theorem step_closes (g : Grouping) :
    (blocks (.group g opening before :: frames) done).step g.closing = some (blocks frames (before ++ [.group g opening done])) := by
  simp only [step, markOf_closing, if_true]

theorem step_opensChoice (h : markOf l = .opensChoice) : (blocks frames done).step l = some (arms frames l [] done) := by
  simp only [step, h]

theorem step_label (label : Text) :
    (arms frames opening as before).step (label ++ [')']) = some (blocks (.arm label opening as before :: frames) []) := by
  have hne : label ++ [')'] ≠ endOfChoice := by
    intro h
    have hlast := congrArg List.getLast? h
    rw [List.getLast?_concat] at hlast
    exact absurd hlast (by decide)
  rw [step, if_neg hne, if_pos List.getLast?_concat, List.dropLast_concat]

theorem step_closesArm (label : Text) :
    (blocks (.arm label opening as before :: frames) done).step endOfArm =
      some (arms frames opening (as ++ [.mk label done]) before) := rfl

theorem step_closesChoice :
    (arms frames opening as before).step endOfChoice = some (blocks frames (before ++ [.choice opening as])) := rfl

end

-- The induction is on the blocks; the frames vary, since what is in a block is read with the block open around it.
mutual

/-- The lines of a block add it to the blocks so far, whatever is open around them. -/
theorem run_lines : ∀ (b : Block), b.IsProper → ∀ (frames : List BlockFrame) (done : List Block),
    (blocks frames done).run b.lines = some (blocks frames (done ++ [b]))
  | .line t, h, frames, done => by
    rw [Block.lines, run_cons (step_plain h)]
    rfl
  | .group g opening body, h, frames, done => by
    obtain ⟨hopening, hbody⟩ := h
    rw [Block.lines, List.cons_append, run_cons (step_opens hopening), run_append, run_linesOfAll body hbody, Option.bind_some,
      run_cons (step_closes g)]
    rfl
  | .choice opening as, h, frames, done => by
    obtain ⟨hopening, has⟩ := h
    rw [Block.lines, List.cons_append, run_cons (step_opensChoice hopening), run_append, run_linesOfArms as has, Option.bind_some,
      run_cons step_closesChoice]
    rfl

/-- The lines of some blocks add them to the blocks so far. -/
theorem run_linesOfAll : ∀ (bs : List Block), AllProper bs → ∀ (frames : List BlockFrame) (done : List Block),
    (blocks frames done).run (linesOfAll bs) = some (blocks frames (done ++ bs))
  | [], _, frames, done => by
    rw [linesOfAll, List.append_nil]
    rfl
  | b :: rest, h, frames, done => by
    obtain ⟨hb, hrest⟩ := h
    rw [linesOfAll, run_append, run_lines b hb, Option.bind_some, run_linesOfAll rest hrest, List.append_assoc]
    rfl

/-- The lines of some arms add them to the arms so far. -/
theorem run_linesOfArms : ∀ (as : List BlockArm), ArmsProper as → ∀ (frames : List BlockFrame) (opening : Text)
    (done : List BlockArm) (before : List Block),
    (arms frames opening done before).run (linesOfArms as) = some (arms frames opening (done ++ as) before)
  | [], _, frames, opening, done, before => by
    rw [linesOfArms, List.append_nil]
    rfl
  | .mk label body :: rest, h, frames, opening, done, before => by
    obtain ⟨hbody, hrest⟩ := h
    rw [linesOfArms, List.cons_append, run_cons (step_label label), run_append, run_linesOfAll body hbody, Option.bind_some,
      List.nil_append, run_cons (step_closesArm label), run_linesOfArms rest hrest, List.append_assoc]
    rfl

end

/-! ## What has been read -/

end NestState

/-- The lines that lead into a frame. -/
def BlockFrame.lines : BlockFrame → List Text
  | .group _ opening before => linesOfAll before ++ [opening]
  | .arm label opening as before => linesOfAll before ++ opening :: linesOfArms as ++ [label ++ [')']]

/-- Whether these lines open and close what they should. -/
def BlockFrame.IsProper : BlockFrame → Prop
  | .group g opening before => markOf opening = .opens g ∧ AllProper before
  | .arm _ opening as before => markOf opening = .opensChoice ∧ ArmsProper as ∧ AllProper before

namespace NestState

/-- The lines that have been read; the frames are listed from the inside. -/
def lines : NestState → List Text
  | blocks frames done => frames.reverse.flatMap BlockFrame.lines ++ linesOfAll done
  | arms frames opening done before => frames.reverse.flatMap BlockFrame.lines ++ linesOfAll before ++ opening :: linesOfArms done

/-- Whether these lines open and close what they should. -/
def IsProper : NestState → Prop
  | blocks frames done => (∀ f ∈ frames, f.IsProper) ∧ AllProper done
  | arms frames opening done before =>
    (∀ f ∈ frames, f.IsProper) ∧ markOf opening = .opensChoice ∧ ArmsProper done ∧ AllProper before

/-- A line that is read is the next of the lines, and does what it should. -/
theorem of_step {s s' : NestState} {l : Text} (h : s.step l = some s') (hs : s.IsProper) : s'.IsProper ∧ s'.lines = s.lines ++ [l] := by
  cases s with
  | blocks frames done =>
    obtain ⟨hframes, hdone⟩ := hs
    unfold step at h
    dsimp only at h
    split at h
    case h_1 hmark =>
      obtain rfl := Option.some.inj h
      refine ⟨⟨hframes, (allProper_append _ _).2 ⟨hdone, (allProper_singleton _).2 hmark⟩⟩, ?_⟩
      simp [lines, linesOfAll_append, linesOfAll_singleton, Block.lines]
    case h_2 g hmark =>
      obtain rfl := Option.some.inj h
      refine ⟨⟨List.forall_mem_cons.2 ⟨⟨hmark, hdone⟩, hframes⟩, trivial⟩, ?_⟩
      simp [lines, BlockFrame.lines, linesOfAll]
    case h_3 hmark =>
      obtain rfl := Option.some.inj h
      refine ⟨⟨hframes, hmark, trivial, hdone⟩, ?_⟩
      simp [lines, linesOfArms]
    case h_4 g g' opening before frames hmark =>
      obtain ⟨hg, hs'⟩ := Option.ite_none_right_eq_some.1 h
      subst hg
      obtain rfl := Option.some.inj hs'
      obtain ⟨⟨hopening, hbefore⟩, hframes⟩ := List.forall_mem_cons.1 hframes
      refine ⟨⟨hframes, (allProper_append _ _).2 ⟨hbefore, (allProper_singleton _).2 ⟨hopening, hdone⟩⟩⟩, ?_⟩
      simp [lines, BlockFrame.lines, linesOfAll_append, linesOfAll_singleton, Block.lines, ← eq_closing_of_markOf hmark]
    case h_5 label opening as before frames hmark =>
      obtain rfl := Option.some.inj h
      obtain ⟨⟨hopening, has, hbefore⟩, hframes⟩ := List.forall_mem_cons.1 hframes
      refine ⟨⟨hframes, hopening, (armsProper_append _ _).2 ⟨has, hdone, trivial⟩, hbefore⟩, ?_⟩
      simp [lines, BlockFrame.lines, linesOfArms_append, linesOfArms, ← eq_endOfArm_of_markOf hmark]
    case h_6 => cases h
  | arms frames opening done before =>
    obtain ⟨hframes, hopening, hdone, hbefore⟩ := hs
    rw [step] at h
    split at h
    · next hl =>
      subst hl
      obtain rfl := Option.some.inj h
      refine ⟨⟨hframes, (allProper_append _ _).2 ⟨hbefore, (allProper_singleton _).2 ⟨hopening, hdone⟩⟩⟩, ?_⟩
      simp [lines, linesOfAll_append, linesOfAll_singleton, Block.lines]
    · split at h
      · next hl =>
        obtain ⟨label, rfl⟩ := List.getLast?_eq_some_iff.1 hl
        obtain rfl := Option.some.inj h
        rw [List.dropLast_concat]
        refine ⟨⟨List.forall_mem_cons.2 ⟨⟨hopening, hdone, hbefore⟩, hframes⟩, trivial⟩, ?_⟩
        simp [lines, BlockFrame.lines, linesOfAll]
      · cases h

/-- The lines that are read are the next of the lines, and do what they should. -/
theorem of_run {s s' : NestState} {ls : List Text} (h : s.run ls = some s') (hs : s.IsProper) :
    s'.IsProper ∧ s'.lines = s.lines ++ ls := by
  induction ls generalizing s with
  | nil =>
    obtain rfl := Option.some.inj h
    exact ⟨hs, (List.append_nil _).symm⟩
  | cons l ls ih =>
    obtain ⟨next, hstep, hrun⟩ := Option.bind_eq_some_iff.1 h
    obtain ⟨hnext, hlines⟩ := of_step hstep hs
    obtain ⟨hs', hlines'⟩ := ih hrun hnext
    exact ⟨hs', by rw [hlines', hlines, List.append_assoc, List.singleton_append]⟩

end NestState

/-- Lines are well nested just if they are the lines of blocks that open and close what they should, and these blocks are read. -/
theorem nest?_eq_some_iff {ls : List Text} {bs : List Block} : nest? ls = some bs ↔ AllProper bs ∧ linesOfAll bs = ls := by
  constructor
  · intro h
    obtain ⟨s, hrun, hcomplete⟩ := Option.bind_eq_some_iff.1 h
    obtain ⟨hs, hlines⟩ := NestState.of_run hrun ⟨List.forall_mem_nil _, trivial⟩
    cases s with
    | arms frames opening done before => cases hcomplete
    | blocks frames done =>
      cases frames with
      | cons f frames => cases hcomplete
      | nil =>
        obtain rfl := Option.some.inj hcomplete
        exact ⟨hs.2, hlines⟩
  · rintro ⟨hproper, rfl⟩
    rw [nest?, NestState.run_linesOfAll bs hproper]
    rfl

end Bash

end DevWorkflow
