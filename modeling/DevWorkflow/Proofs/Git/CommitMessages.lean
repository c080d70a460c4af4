import DevWorkflow.Proofs.Run.Plans
import DevWorkflow.Proofs.Settings.Values

/-!
# Reading commit messages back

The message of a commit is put together from parts that stand next to each other, some of which may be missing. It can be taken apart
again: the type ends before the first parenthesis, exclamation mark or colon, a scope has no closing parenthesis in it, and what
follows the first colon after them is the summary, whatever is in it (`CommitNote.read?_eq_some_iff`). So the message that git is
given for a commit says all that was asked for (`CommitNote.read?_commitMessage`).
-/

namespace DevWorkflow

/-- What the message of a commit says. -/
structure CommitNote where
  type : Text
  scope : Option Text
  breaking : Bool
  summary : Text
deriving DecidableEq, Repr

namespace CommitNote

/-- Whether a commit can be made with this message: the type is one of those of a commit, the scope can stand as one, and the summary
is not empty and has no blanks around it. -/
structure IsProper (n : CommitNote) : Prop where
  type_mem : n.type ∈ commitTypes
  isScope : n.scope.all isScope = true
  summary_ne_nil : n.summary ≠ []
  trim_summary : Text.trim n.summary = n.summary

instance (n : CommitNote) : Decidable n.IsProper :=
  decidable_of_iff (commitTypes.contains n.type = true ∧ n.scope.all DevWorkflow.isScope = true ∧ n.summary ≠ [] ∧
      Text.trim n.summary = n.summary)
    ⟨fun ⟨htype, hscope, hsummary, htrim⟩ => ⟨List.contains_iff_mem.1 htype, hscope, hsummary, htrim⟩,
      fun h => ⟨List.contains_iff_mem.2 h.type_mem, h.isScope, h.summary_ne_nil, h.trim_summary⟩⟩

/-! ## Taking a message apart -/

/-- Whether a character comes after the type, not in it. -/
def endsType (c : Char) : Bool := c = '(' || c = '!' || c = ':'

/-- Reads a scope in parentheses if a parenthesis comes first, and says what is left. -/
def readScope? : Text → Option (Option Text × Text)
  | '(' :: t =>
    match t.dropWhile (· ≠ ')') with
    | _ :: rest => some (some (t.takeWhile (· ≠ ')')), rest)
    | [] => none
  | t => some (none, t)

/-- Reads the mark of a change that breaks something if it comes first, then a colon and a blank, and then the summary. -/
def readSummary? : Text → Option (Bool × Text)
  | '!' :: ':' :: ' ' :: summary => some (true, summary)
  | ':' :: ' ' :: summary => some (false, summary)
  | _ => none

/-- Takes a message apart. -/
def parts? (message : Text) : Option CommitNote :=
  (readScope? (message.dropWhile fun c => !endsType c)).bind fun (scope, rest) =>
    (readSummary? rest).map fun (breaking, summary) => ⟨message.takeWhile fun c => !endsType c, scope, breaking, summary⟩

/-- What a message says, if a commit can be made with it. -/
def read? (message : Text) : Option CommitNote := (parts? message).filter fun n => n.IsProper

/-! ## The parts of a message -/

/-- A scope as it is written, if there is one. -/
def writtenScope : Option Text → Text
  | some scope => '(' :: (scope ++ [')'])
  | none => []

/-- A summary as it is written behind the mark of a change that breaks something. -/
def writtenSummary (breaking : Bool) (summary : Text) : Text :=
  if breaking then '!' :: ':' :: ' ' :: summary else ':' :: ' ' :: summary

/-- A message is its parts one after another. -/
theorem commitMessage_eq (type : Text) (scope : Option Text) (breaking : Bool) (summary : Text) :
    commitMessage type scope breaking summary =
      type ++ (writtenScope scope ++ writtenSummary breaking (Text.trim summary)) := by
  unfold commitMessage writtenScope writtenSummary
  cases scope <;> cases breaking <;> simp

theorem readSummary?_eq_some_iff {t : Text} {breaking : Bool} {summary : Text} :
    readSummary? t = some (breaking, summary) ↔ t = writtenSummary breaking summary := by
  unfold writtenSummary
  constructor
  · intro h
    unfold readSummary? at h
    split at h
    · simp_all
    · simp_all
    · cases h
  · rintro rfl
    cases breaking <;> rfl

/-- What follows a scope does not look like one. -/
theorem head?_writtenSummary (breaking : Bool) (summary : Text) :
    ∃ c ∈ (writtenSummary breaking summary).head?, endsType c = true ∧ c ≠ '(' := by
  cases breaking with
  | true => exact ⟨'!', rfl, by decide⟩
  | false => exact ⟨':', rfl, by decide⟩

theorem readScope?_none {t : Text} (h : t.head? ≠ some '(') : readScope? t = some (none, t) := by
  unfold readScope?
  split
  · exact absurd rfl h
  · rfl

theorem readScope?_some {scope : Text} (h : ')' ∉ scope) (rest : Text) :
    readScope? ('(' :: (scope ++ ')' :: rest)) = some (some scope, rest) := by
  have hscope : ∀ c ∈ scope, decide (c ≠ ')') = true := fun c hc => decide_eq_true (ne_of_mem_of_not_mem hc h)
  have htake : (scope ++ ')' :: rest).takeWhile (· ≠ ')') = scope := Text.takeWhile_append_cons hscope rfl rest
  have hdrop : (scope ++ ')' :: rest).dropWhile (· ≠ ')') = ')' :: rest := Text.dropWhile_append_cons hscope rfl rest
  simp only [readScope?, hdrop, htake]

theorem eq_of_readScope? {t rest : Text} {scope : Option Text} (h : readScope? t = some (scope, rest)) :
    t = writtenScope scope ++ rest := by
  unfold readScope? at h
  split at h
  · rename_i u
    split at h
    · rename_i c rest' hdrop
      have hc : c = ')' := by
        have hhead := List.head?_dropWhile_not (fun c : Char => decide (c ≠ ')')) u
        rw [hdrop] at hhead
        simpa using hhead
      have hparts : u.takeWhile (· ≠ ')') ++ u.dropWhile (· ≠ ')') = u := List.takeWhile_append_dropWhile
      obtain ⟨rfl, rfl⟩ := Prod.mk.inj (Option.some.inj h)
      rw [hdrop, hc] at hparts
      rw [writtenScope, List.cons_append, List.append_assoc, List.singleton_append, hparts]
    · cases h
  · obtain ⟨rfl, rfl⟩ := Prod.mk.inj (Option.some.inj h)
    rfl

theorem readScope?_writtenScope {scope : Option Text} (h : ∀ s ∈ scope, ')' ∉ s) (breaking : Bool) (summary : Text) :
    readScope? (writtenScope scope ++ writtenSummary breaking summary) = some (scope, writtenSummary breaking summary) := by
  cases scope with
  | some s =>
    rw [writtenScope, List.cons_append, List.append_assoc]
    exact readScope?_some (h s rfl) _
  | none =>
    obtain ⟨c, hc, -, hne⟩ := head?_writtenSummary breaking summary
    refine readScope?_none ?_
    rw [writtenScope, List.nil_append, Option.mem_def.1 hc]
    exact fun h => hne (Option.some.inj h)

/-- What follows the type does not belong to it. -/
theorem head?_after_type (scope : Option Text) (breaking : Bool) (summary : Text) :
    ∃ c ∈ (writtenScope scope ++ writtenSummary breaking summary).head?, endsType c = true := by
  cases scope with
  | some s => exact ⟨'(', rfl, by decide⟩
  | none =>
    obtain ⟨c, hc, hends, -⟩ := head?_writtenSummary breaking summary
    exact ⟨c, hc, hends⟩

/-- A message is taken apart into the parts it was put together from. -/
theorem parts?_commitMessage {type : Text} {scope : Option Text} (htype : ∀ c ∈ type, endsType c = false)
    (hscope : ∀ s ∈ scope, ')' ∉ s) (breaking : Bool) (summary : Text) :
    parts? (commitMessage type scope breaking summary) = some ⟨type, scope, breaking, Text.trim summary⟩ := by
  have hinside : ∀ c ∈ type, (!endsType c) = true := fun c hc => by rw [htype c hc]; rfl
  obtain ⟨c, hc, hends⟩ := head?_after_type scope breaking (Text.trim summary)
  have hread := readScope?_writtenScope hscope breaking (Text.trim summary)
  rw [commitMessage_eq]
  -- Of what follows the type only its first character matters here, and how it is read on.
  generalize writtenScope scope ++ writtenSummary breaking (Text.trim summary) = rest at hc hread
  obtain ⟨after, rfl⟩ := List.head?_eq_some_iff.1 (Option.mem_def.1 hc)
  have hends : (!endsType c) = false := by rw [hends]; rfl
  rw [parts?, Text.takeWhile_append_cons hinside hends, Text.dropWhile_append_cons hinside hends, hread, Option.bind_some]
  dsimp only
  rw [readSummary?_eq_some_iff.2 rfl]
  rfl

/-- The parts of a message make the message, if the summary has no blanks around it. -/
theorem commitMessage_of_parts? {message : Text} {n : CommitNote} (h : parts? message = some n)
    (htrim : Text.trim n.summary = n.summary) : commitMessage n.type n.scope n.breaking n.summary = message := by
  unfold parts? at h
  obtain ⟨⟨scope, rest⟩, hscope, h⟩ := Option.bind_eq_some_iff.1 h
  obtain ⟨⟨breaking, summary⟩, hsummary, rfl⟩ := Option.map_eq_some_iff.1 h
  have hsplit : message.takeWhile (fun c => !endsType c) ++ message.dropWhile (fun c => !endsType c) = message :=
    List.takeWhile_append_dropWhile
  rw [eq_of_readScope? hscope, readSummary?_eq_some_iff.1 hsummary] at hsplit
  rw [commitMessage_eq, htrim]
  exact hsplit

/-! ## Messages of commits -/

theorem endsType_of_mem_commitTypes {type : Text} (h : type ∈ commitTypes) : ∀ c ∈ type, endsType c = false := by
  have hall : (commitTypes.all fun type => type.all fun c => !endsType c) = true := by decide
  intro c hc
  simpa using List.all_eq_true.1 (List.all_eq_true.1 hall type h) c hc

theorem not_mem_of_isScope {scope : Text} (h : isScope scope = true) : ')' ∉ scope := by
  intro hmem
  unfold isScope at h
  simp only [Bool.and_eq_true, Bool.not_eq_true', List.any_eq_false] at h
  exact absurd (h.2 ')' hmem) (by decide)

/-- What is read of a message is exactly what makes the message, among all that a commit can be made with. -/
theorem read?_eq_some_iff (message : Text) (n : CommitNote) :
    read? message = some n ↔ n.IsProper ∧ commitMessage n.type n.scope n.breaking n.summary = message := by
  rw [read?, Option.filter_eq_some_iff, decide_eq_true_eq]
  constructor
  · rintro ⟨hparts, hproper⟩
    exact ⟨hproper, commitMessage_of_parts? hparts hproper.trim_summary⟩
  · rintro ⟨hproper, rfl⟩
    have hscope : ∀ s ∈ n.scope, ')' ∉ s := by
      intro s hs
      have hall := hproper.isScope
      rw [Option.mem_def.1 hs] at hall
      exact not_mem_of_isScope hall
    rw [parts?_commitMessage (endsType_of_mem_commitTypes hproper.type_mem) hscope, hproper.trim_summary]
    exact ⟨rfl, hproper⟩

end CommitNote

namespace CommitRequest

/-- What the message of the commit says if it is made with the given type. -/
def note (r : CommitRequest) (type : Text) : CommitNote := ⟨type, r.scope, r.breaking, Text.trim r.summary⟩

/-- A commit can be made as asked if and only if its summary is not blank and its scope, if there is one, can stand as one. -/
theorem defect?_eq_none_iff (r : CommitRequest) :
    r.defect? = none ↔ Text.trim r.summary ≠ [] ∧ r.scope.all isScope = true := by
  unfold defect?
  split
  · simp_all
  · split <;> simp_all

theorem isProper_note {r : CommitRequest} (h : r.defect? = none) {type : Text} (htype : type ∈ commitTypes) :
    (r.note type).IsProper :=
  ⟨htype, ((defect?_eq_none_iff r).1 h).2, ((defect?_eq_none_iff r).1 h).1, Text.trim_trim r.summary⟩

/-- The type that the commit is made with. -/
def typeIn (r : CommitRequest) (settings : Settings) : Text := (r.type.map CommitType.name).getD settings.commit.defaultType

theorem typeIn_mem (r : CommitRequest) {settings : Settings} (h : settings.defect? = none) : r.typeIn settings ∈ commitTypes := by
  unfold typeIn
  cases r.type with
  | some type => exact List.mem_map_of_mem (CommitType.mem_all type)
  | none => exact (Settings.defect?_eq_none_iff_allows settings).1 h .commitDefaultType

/-- The summary that a commit is made with may have blanks around it; its message has none. -/
theorem commitMessage_note (r : CommitRequest) (type : Text) :
    commitMessage (r.note type).type (r.note type).scope (r.note type).breaking (r.note type).summary =
      commitMessage type r.scope r.breaking r.summary := by
  simp only [note, CommitNote.commitMessage_eq, Text.trim_trim]

/-- The message of a commit that can be made is read back as what was asked for. -/
theorem read?_commitMessage_of_defect? {r : CommitRequest} (h : r.defect? = none) {type : Text} (htype : type ∈ commitTypes) :
    CommitNote.read? (commitMessage type r.scope r.breaking r.summary) = some (r.note type) :=
  (CommitNote.read?_eq_some_iff _ _).2 ⟨isProper_note h htype, commitMessage_note r type⟩

theorem defect?_of_refusal? {settings : Settings} {r : CommitRequest} (h : (Command.git (.commit r)).refusal? settings = none) :
    r.defect? = none := by
  unfold Command.refusal? at h
  cases hdefect : r.defect? with
  | none => rfl
  | some d => simp [hdefect] at h

end CommitRequest

/-- The message of a commit says all that was asked for. One way of reading takes every message apart into the type, the scope if
there is one, the mark of a change that breaks something, and the summary without the blanks around it, which is not empty. A message
is read as something only if it is the message of that, so two commits have one message just if they agree on all four. This is the
message that git is given if nothing is wrong with the commit. -/
theorem CommitNote.read?_commitMessage :
    (∀ type ∈ commitTypes, ∀ r : CommitRequest, r.defect? = none → Text.trim r.summary ≠ [] ∧
      read? (commitMessage type r.scope r.breaking r.summary) = some ⟨type, r.scope, r.breaking, Text.trim r.summary⟩) ∧
    (∀ message n, read? message = some n ↔ n.IsProper ∧ commitMessage n.type n.scope n.breaking n.summary = message) ∧
    (∀ type ∈ commitTypes, ∀ type' ∈ commitTypes, ∀ r r' : CommitRequest, r.defect? = none → r'.defect? = none →
      (commitMessage type r.scope r.breaking r.summary = commitMessage type' r'.scope r'.breaking r'.summary ↔
        type = type' ∧ r.scope = r'.scope ∧ r.breaking = r'.breaking ∧ Text.trim r.summary = Text.trim r'.summary)) ∧
    ∀ (settings : Settings) (r : CommitRequest), settings.defect? = none →
      (Command.git (.commit r)).refusal? settings = none →
      ∃ message, Run.commit settings r =
          ((if r.all then Run.runGit ["add".toList, "--update".toList] else pure ()) >>= fun _ =>
            Run.runGit (Run.commitArgs settings.git.signCommits message)) ∧
        read? message = some ⟨r.typeIn settings, r.scope, r.breaking, Text.trim r.summary⟩ := by
  refine ⟨?_, read?_eq_some_iff, ?_, ?_⟩
  · intro type htype r hr
    exact ⟨((CommitRequest.defect?_eq_none_iff r).1 hr).1, CommitRequest.read?_commitMessage_of_defect? hr htype⟩
  · intro type htype type' htype' r r' hr hr'
    constructor
    · intro heq
      have hnotes : some (r.note type) = some (r'.note type') := by
        rw [← CommitRequest.read?_commitMessage_of_defect? hr htype, heq, CommitRequest.read?_commitMessage_of_defect? hr' htype']
      exact CommitNote.mk.inj (Option.some.inj hnotes)
    · rintro ⟨rfl, hscope, hbreaking, hsummary⟩
      rw [commitMessage_eq, commitMessage_eq, hscope, hbreaking, hsummary]
  · intro settings r hsettings hr
    exact ⟨_, Run.commit_eq hr,
      CommitRequest.read?_commitMessage_of_defect? (CommitRequest.defect?_of_refusal? hr) (r.typeIn_mem hsettings)⟩

/-- A commit whose scope and summary have in them what stands between the parts of a message. -/
def tangledRequest : CommitRequest := { scope := some "a!b".toList, summary := " x (y)!: z ".toList, breaking := true }

/-- The message is read back, and git gets the one with the type that the settings say. -/
theorem CommitNote.read?_commitMessage_tangled :
    ("fix".toList ∈ commitTypes ∧ tangledRequest.defect? = none ∧ Settings.default.defect? = none ∧
      (Command.git (.commit tangledRequest)).refusal? Settings.default = none) ∧
    read? "fix(a!b)!: x (y)!: z".toList = some ⟨"fix".toList, some "a!b".toList, true, "x (y)!: z".toList⟩ ∧
    ∃ message, Run.commit Settings.default tangledRequest = (pure () >>= fun _ => Run.runGit (Run.commitArgs false message)) ∧
      read? message = some ⟨"feat".toList, some "a!b".toList, true, "x (y)!: z".toList⟩ := by
  have htype : "fix".toList ∈ commitTypes := by decide
  have hrequest : tangledRequest.defect? = none := by decide
  have hrefusal : (Command.git (.commit tangledRequest)).refusal? Settings.default = none := by decide
  exact ⟨⟨htype, hrequest, Settings.defect?_default, hrefusal⟩, (read?_commitMessage.1 _ htype _ hrequest).2,
    read?_commitMessage.2.2.2 _ _ Settings.defect?_default hrefusal⟩

end DevWorkflow
