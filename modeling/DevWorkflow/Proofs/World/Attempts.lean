import DevWorkflow.Proofs.World.Actions

/-!
# Programs that are tried

Between two worlds programs are tried one after another, each with what comes of it (`World.Tries`). A plan lists the programs that
are to be started. It is followed as far as they end well: none is tried after one that did not (`FollowsPlan`). Actions one after
another follow their plans one after another (`WorldAction.Realizes.bind`).
-/

namespace DevWorkflow

/-- A program that is tried, and what comes of it. -/
structure Attempt where
  /-- The program with its arguments. -/
  words : List Text
  /-- How the program answers, or why it cannot be started. -/
  result : Except IoFault Response

namespace Attempt

/-- Whether the program is started at all. -/
def isStarted (a : Attempt) : Bool := a.result.isOk

/-- Whether the program is started and ends well. -/
def Succeeded (a : Attempt) : Prop := ∃ r, a.result = .ok r ∧ r.exit = .code 0

/-- What the program prints, without the blanks around it. -/
def answer (a : Attempt) : Text :=
  match a.result with
  | .ok r => Text.trim (Text.decodeLossy r.stdout)
  | .error _ => []

/-- A program that ends well was started. -/
theorem Succeeded.isStarted {a : Attempt} (h : a.Succeeded) : a.isStarted = true := by
  obtain ⟨r, hr, -⟩ := h
  rw [Attempt.isStarted, hr]
  rfl

/-- The programs that are started, in order. -/
def started (attempts : List Attempt) : List (List Text) := (attempts.filter isStarted).map (·.words)

end Attempt

open WorldAction

namespace World

/-- Whether from one world to another just some programs are tried, one after another. What is printed and what is done to files
before, between and after them is left open. -/
inductive Tries : World → List Attempt → World → Prop where
  | refl (w : World) : Tries w [] w
  /-- Something is done that tries no program. -/
  | quiet {w w₁ w' : World} {attempts : List Attempt} (hstarted : w₁.started = w.started) (hprograms : w₁.programs = w.programs)
      (h : Tries w₁ attempts w') : Tries w attempts w'
  /-- A program is tried. -/
  | start {w w₁ w' : World} {program : Text} {args : List Text} {result : Except IoFault Response} {attempts : List Attempt}
      (hstart : (start program args).runOn w = (.ok result, w₁)) (h : Tries w₁ attempts w') :
      Tries w (⟨program :: args, result⟩ :: attempts) w'

/-- Programs are tried in one go or in two. -/
theorem Tries.trans {w w₁ w' : World} {attempts later : List Attempt} (h : Tries w attempts w₁) (h' : Tries w₁ later w') :
    Tries w (attempts ++ later) w' := by
  induction h with
  | refl w => exact h'
  | quiet hstarted hprograms _ ih => exact .quiet hstarted hprograms (ih h')
  | start hstart _ ih => exact .start hstart (ih h')

/-- Where nothing is tried, the programs are left as they were. -/
theorem Tries.of_quiet {w w' : World} (hstarted : w'.started = w.started) (hprograms : w'.programs = w.programs) : Tries w [] w' :=
  .quiet hstarted hprograms (.refl w')

end World

/-- A program is tried in every world, and it is recorded if it is started. -/
theorem WorldAction.exists_of_start (program : Text) (args : List Text) (w : World) :
    ∃ result w₁, (start program args).runOn w = (.ok result, w₁) ∧
      w₁.started = w.started ++ if result.isOk then [program :: args] else [] := by
  have hrun : (start program args).runOn w = start program args w := rfl
  rw [hrun]
  unfold start
  split
  · exact ⟨_, _, rfl, by simp [Except.isOk, Except.toBool]⟩
  · cases respond program w.programs with
    | none => exact ⟨_, _, rfl, by simp [Except.isOk, Except.toBool]⟩
    | some next => exact ⟨_, _, rfl, by simp [Except.isOk, Except.toBool]⟩

/-- The programs that are recorded are those among the attempts that were started. -/
theorem World.Tries.started_eq {w w' : World} {attempts : List Attempt} (h : World.Tries w attempts w') :
    w'.started = w.started ++ Attempt.started attempts := by
  induction h with
  | refl w => simp [Attempt.started]
  | quiet hstarted _ _ ih => rw [ih, hstarted]
  | @start w w₁ w' program args result attempts hstart _ ih =>
    obtain ⟨result', w₁', hrun, hrecorded⟩ := exists_of_start program args w
    rw [hstart] at hrun
    obtain ⟨hresult, rfl⟩ := Prod.mk.inj hrun
    obtain rfl : result = result' := Except.ok.inj hresult
    rw [ih, hrecorded, Attempt.started, Attempt.started, List.filter_cons, Attempt.isStarted]
    cases result.isOk <;> simp

/-! ## Plans -/

/-- How some attempts follow a plan: they are tried in its order, none of them after one that did not end well, and it is done
exactly if the whole plan was tried and every program ended well. -/
structure FollowsPlan (plan : List (List Text)) (attempts : List Attempt) (done : Prop) : Prop where
  inOrder : attempts.map (·.words) <+: plan
  afterSuccess : ∀ a ∈ attempts.dropLast, a.Succeeded
  done_iff : done ↔ attempts.map (·.words) = plan ∧ ∀ a ∈ attempts, a.Succeeded

namespace FollowsPlan

variable {plan : List (List Text)} {attempts : List Attempt} {done done' : Prop}

theorem congr (h : FollowsPlan plan attempts done) (hdone : done' ↔ done) : FollowsPlan plan attempts done' :=
  ⟨h.inOrder, h.afterSuccess, hdone.trans h.done_iff⟩

/-- With nothing to start, nothing is tried. -/
theorem nil (h : done) : FollowsPlan [] [] done :=
  ⟨List.nil_prefix, List.forall_mem_nil _, iff_of_true h ⟨rfl, List.forall_mem_nil _⟩⟩

/-- A single program is tried, and it is done if it ended well. -/
theorem single {a : Attempt} (h : done ↔ a.Succeeded) : FollowsPlan [a.words] [a] done := by
  refine ⟨List.prefix_refl _, List.forall_mem_nil _, h.trans ?_⟩
  simp

/-- Once a plan is done, the next one may be followed. -/
theorem append (h : FollowsPlan plan attempts True) {plan' : List (List Text)} {later : List Attempt}
    (h' : FollowsPlan plan' later done) : FollowsPlan (plan ++ plan') (attempts ++ later) done := by
  obtain ⟨hplan, hsucceeded⟩ := h.done_iff.1 trivial
  refine ⟨?_, ?_, h'.done_iff.trans ?_⟩
  · rw [List.map_append, hplan]
    exact (List.prefix_append_right_inj plan).2 h'.inOrder
  · intro a ha
    rw [List.dropLast_append] at ha
    split at ha
    · exact hsucceeded a (List.dropLast_subset _ ha)
    · rcases List.mem_append.1 ha with ha | ha
      · exact hsucceeded a ha
      · exact h'.afterSuccess a ha
  · rw [List.map_append, hplan, List.append_cancel_left_eq, List.forall_mem_append]
    exact and_congr_right fun _ => (and_iff_right hsucceeded).symm

/-- A plan that was not done leaves a longer one undone. -/
theorem stop (h : FollowsPlan plan attempts False) (plan' : List (List Text)) : FollowsPlan (plan ++ plan') attempts False := by
  refine ⟨h.inOrder.trans (List.prefix_append plan plan'), h.afterSuccess, False.elim, ?_⟩
  rintro ⟨hplan, hsucceeded⟩
  -- All of the longer plan lies within the shorter one.
  have hlength := h.inOrder.length_le
  rw [hplan, List.length_append] at hlength
  have hnil : plan' = [] := List.eq_nil_of_length_eq_zero (by omega)
  rw [hnil, List.append_nil] at hplan
  exact h.done_iff.2 ⟨hplan, hsucceeded⟩

/-- After the first of several programs it may be given up, however it ended. -/
theorem first_of_several (a : Attempt) {plan' : List (List Text)} (h : plan' ≠ []) : FollowsPlan (a.words :: plan') [a] False := by
  refine ⟨⟨plan', rfl⟩, List.forall_mem_nil _, False.elim, ?_⟩
  rintro ⟨hplan, -⟩
  exact h (List.cons.inj hplan).2.symm

/-- The programs that were started are the beginning of the plan. -/
theorem started_prefix (h : FollowsPlan plan attempts done) : Attempt.started attempts <+: plan := by
  refine List.IsPrefix.trans ?_ h.inOrder
  rcases List.eq_nil_or_concat attempts with rfl | ⟨before, last, rfl⟩
  · exact List.prefix_refl _
  · rw [List.concat_eq_append] at h ⊢
    have hbefore : before.filter Attempt.isStarted = before := by
      rw [List.filter_eq_self]
      intro a ha
      exact (h.afterSuccess a (by simpa using ha)).isStarted
    rw [Attempt.started, List.filter_append, hbefore, List.map_append, List.map_append, List.prefix_append_right_inj]
    cases hlast : last.isStarted with
    | true => simp [hlast]
    | false => simp [hlast]

end FollowsPlan

namespace WorldAction

variable {α β : Type}

/-- Whether an action follows a plan in every world, and succeeds exactly if the plan is done. -/
def Realizes (action : WorldAction α) (plan : List (List Text)) : Prop :=
  ∀ w, ∃ attempts, World.Tries w attempts (action.runOn w).2 ∧ FollowsPlan plan attempts ((action.runOn w).1.isOk = true)

/-- What is done after an action that succeeded follows its own plan. -/
theorem exists_attempts_of_bind {action : WorldAction α} {next : α → WorldAction β} {w w₁ : World} {a : α}
    {plan plan' : List (List Text)} {attempts : List Attempt} (hrun : action.runOn w = (.ok a, w₁))
    (htries : World.Tries w attempts w₁) (hfollows : FollowsPlan plan attempts True) (hnext : Realizes (next a) plan') :
    ∃ later, World.Tries w (attempts ++ later) ((action >>= next).runOn w).2 ∧
      FollowsPlan (plan ++ plan') (attempts ++ later) (((action >>= next).runOn w).1.isOk = true) := by
  obtain ⟨later, hlater, hfollows'⟩ := hnext w₁
  rw [runOn_bind, hrun]
  exact ⟨later, htries.trans hlater, hfollows.append hfollows'⟩

/-- Actions one after another follow their plans one after another. -/
theorem Realizes.bind {action : WorldAction α} {next : α → WorldAction β} {plan plan' : List (List Text)}
    (h : Realizes action plan) (hnext : ∀ a, Realizes (next a) plan') : Realizes (action >>= next) (plan ++ plan') := by
  intro w
  obtain ⟨attempts, htries, hfollows⟩ := h w
  rcases hrun : action.runOn w with ⟨result, w₁⟩
  rw [hrun] at htries hfollows
  cases result with
  | ok a =>
    have hdone : FollowsPlan plan attempts True := hfollows.congr (iff_of_true trivial rfl)
    obtain ⟨later, hlater⟩ := exists_attempts_of_bind hrun htries hdone (hnext a)
    exact ⟨_, hlater⟩
  | error fault =>
    have hstopped : FollowsPlan plan attempts False := hfollows.congr (iff_of_false not_false Bool.false_ne_true)
    rw [runOn_bind, hrun]
    exact ⟨attempts, htries, (hstopped.stop plan').congr (iff_of_false Bool.false_ne_true not_false)⟩

theorem realizes_pure (a : α) : Realizes (pure a) [] :=
  fun w => ⟨[], .refl w, .nil rfl⟩

/-- Printing starts no program. -/
theorem realizes_printLine (t : Text) : Realizes (printLine t) [] :=
  fun _ => ⟨[], .of_quiet rfl rfl, .nil rfl⟩

/-- Starting a program whose output is printed is one attempt. -/
theorem exists_of_startPrinting (program : Text) (args : List Text) (w : World) :
    ∃ result w₁, (startPrinting program args).runOn w = (.ok (result.map (·.exit)), w₁) ∧
      World.Tries w [⟨program :: args, result⟩] w₁ := by
  obtain ⟨result, w₁, hstart, -⟩ := exists_of_start program args w
  refine ⟨result, ((startPrinting program args).runOn w).2, ?_, .start hstart ?_⟩
  · rw [startPrinting, runOn_bind, hstart]
    cases result <;> rfl
  · rw [startPrinting, runOn_bind, hstart]
    cases result <;> exact .of_quiet rfl rfl

/-- An action that starts one program and fails unless the program ends well. -/
theorem realizes_startPrinting_bind {program : Text} {args : List Text} {next : Except IoFault Exit → WorldAction Unit}
    (hdone : next (.ok (.code 0)) = pure ()) (herror : ∀ e, ∃ fault, next (.error e) = throw fault)
    (hfailed : ∀ exit, exit.isSuccess = false → ∃ fault, next (.ok exit) = throw fault) :
    Realizes (startPrinting program args >>= next) [program :: args] := by
  intro w
  obtain ⟨result, w₁, hrun, htries⟩ := exists_of_startPrinting program args w
  have hunsuccessful : ∀ fault, next (result.map (·.exit)) = throw fault → ¬(⟨program :: args, result⟩ : Attempt).Succeeded →
      ∃ attempts, World.Tries w attempts ((next (result.map (·.exit))).runOn w₁).2 ∧
        FollowsPlan [program :: args] attempts (((next (result.map (·.exit))).runOn w₁).1.isOk = true) := by
    intro fault hfault hnot
    rw [hfault]
    exact ⟨_, htries, .single (a := ⟨program :: args, result⟩) (iff_of_false Bool.false_ne_true hnot)⟩
  rw [runOn_bind, hrun]
  cases result with
  | error e =>
    obtain ⟨fault, hfault⟩ := herror e
    refine hunsuccessful fault hfault ?_
    rintro ⟨r, hr, -⟩
    nomatch hr
  | ok r =>
    cases hexit : r.exit.isSuccess with
    | true =>
      have hcode : r.exit = .code 0 := of_decide_eq_true hexit
      have hpure : next ((Except.ok r : Except IoFault Response).map (·.exit)) = pure () := by
        rw [Except.map, hcode, hdone]
      simp only [hpure]
      exact ⟨_, htries, .single (a := ⟨program :: args, .ok r⟩) (iff_of_true rfl ⟨r, rfl, hcode⟩)⟩
    | false =>
      obtain ⟨fault, hfault⟩ := hfailed r.exit hexit
      refine hunsuccessful fault hfault ?_
      rintro ⟨r', hr', hcode⟩
      obtain rfl : r = r' := Except.ok.inj hr'
      exact absurd (decide_eq_true hcode) (by rw [← Exit.isSuccess, hexit]; decide)

end WorldAction

end DevWorkflow
