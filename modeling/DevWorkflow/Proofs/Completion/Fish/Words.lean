import DevWorkflow.Proofs.Completion.Fish.Rules
import DevWorkflow.Proofs.Completion.Quoting

/-!
# The rules of the fish script as words

A rule is a line of words with spaces between them, some of which stand between single quotes. Fish divides the line at blanks and
reads what is quoted as `Fish.readQuoted?` does, so it gets the words of the command `complete` with the texts of the rule among them,
each on one line, whatever characters they have (`Fish.split?_rules`). Only the forms of an option are written as they are.
-/

namespace DevWorkflow

namespace Fish

/-! ## Words of a line -/

/-- Where the reader of a line stands. The characters of an unfinished word are kept in reverse. -/
inductive ReaderState where
  /-- Between words. -/
  | between
  /-- In a word, outside quotes. -/
  | bare (word : Text)
  /-- Inside single quotes. -/
  | quoted (word : Text)
  /-- Behind a backslash inside single quotes. -/
  | escaped (word : Text)
deriving DecidableEq, Repr

/-- The state behind a character that starts a word or stands in one, outside single quotes. Nothing is read where a double quote or a
backslash stands there. -/
def inWord? (word : Text) (c : Char) : Option ReaderState :=
  if c = '\'' then some (.quoted word)
  else if c = '"' || c = '\\' then none
  else some (.bare (c :: word))

/-- Reads on from a state; `none` also if the line ends inside quotes. -/
def splitFrom? : ReaderState → Text → Option (List Text)
  | .between, [] => some []
  | .bare word, [] => some [word.reverse]
  | .quoted _, [] => none
  | .escaped _, [] => none
  | .between, c :: rest =>
    if Text.isBlank c then splitFrom? .between rest else (inWord? [] c).bind fun s => splitFrom? s rest
  | .bare word, c :: rest =>
    if Text.isBlank c then (splitFrom? .between rest).map (word.reverse :: ·)
    else (inWord? word c).bind fun s => splitFrom? s rest
  | .quoted word, c :: rest =>
    splitFrom? (if c = '\'' then .bare word else if c = '\\' then .escaped word else .quoted (c :: word)) rest
  | .escaped word, c :: rest =>
    splitFrom? (.quoted (if c = '\\' || c = '\'' then c :: word else c :: '\\' :: word)) rest

/-- The words of a line. -/
def split? (line : Text) : Option (List Text) := splitFrom? .between line

/-- Whether a text is one word, alone or before a space and whatever follows there. -/
def IsWord (t word : Text) : Prop :=
  split? t = some [word] ∧ ∀ rest, split? (t ++ ' ' :: rest) = (split? rest).map (word :: ·)

/-- A text is a word if the reader is behind the word when it has read the text. -/
theorem isWord_of_forall {t word : Text} (h : ∀ rest, splitFrom? .between (t ++ rest) = splitFrom? (.bare word.reverse) rest) :
    IsWord t word := by
  constructor
  · have halone := h []
    rwa [List.append_nil, splitFrom?, List.reverse_reverse] at halone
  · intro rest
    rw [split?, h, splitFrom?, if_pos (by decide), List.reverse_reverse]
    rfl

/-- Words with spaces between them are read one after another. -/
theorem split?_join {parts : List (Text × Text)} (h : ∀ p ∈ parts, IsWord p.1 p.2) :
    split? (Text.join [' '] (parts.map Prod.fst)) = some (parts.map Prod.snd) := by
  induction parts with
  | nil => rfl
  | cons p parts ih =>
    obtain ⟨hp, hparts⟩ := List.forall_mem_cons.1 h
    cases parts with
    | nil => exact hp.1
    | cons q rest =>
      rw [List.map_cons, List.map_cons, Text.join_cons_cons, List.append_assoc, List.singleton_append, hp.2, ← List.map_cons,
        ih hparts]
      rfl

/-- Whether a character stands for itself in a word: it is neither blank nor a quote nor a backslash. -/
def IsPlain (c : Char) : Prop := Text.isBlank c = false ∧ c ≠ '\'' ∧ c ≠ '"' ∧ c ≠ '\\'

instance (c : Char) : Decidable (IsPlain c) := inferInstanceAs (Decidable (_ ∧ _))

/-- Whether a text is a word as it stands: it is not empty, and each of its characters stands for itself. -/
structure IsPlainWord (t : Text) : Prop where
  nonempty : t ≠ []
  plain : ∀ c ∈ t, IsPlain c

instance (t : Text) : Decidable (IsPlainWord t) :=
  decidable_of_iff (t ≠ [] ∧ t.all (fun c => decide (IsPlain c)) = true) <| by
    rw [List.all_eq_true]
    exact ⟨fun h => ⟨h.1, fun c hc => of_decide_eq_true (h.2 c hc)⟩, fun h => ⟨h.1, fun c hc => decide_eq_true (h.2 c hc)⟩⟩

theorem inWord?_of_isPlain {c : Char} (h : IsPlain c) (word : Text) : inWord? word c = some (.bare (c :: word)) := by
  obtain ⟨-, hsingle, hdouble, hbackslash⟩ := h
  simp [inWord?, hsingle, hdouble, hbackslash]

theorem splitFrom?_bare {t : Text} (h : ∀ c ∈ t, IsPlain c) (word rest : Text) :
    splitFrom? (.bare word) (t ++ rest) = splitFrom? (.bare (t.reverse ++ word)) rest := by
  induction t generalizing word with
  | nil => rfl
  | cons c t ih =>
    obtain ⟨hc, ht⟩ := List.forall_mem_cons.1 h
    rw [List.cons_append, splitFrom?, hc.1, if_neg Bool.false_ne_true, inWord?_of_isPlain hc, Option.bind_some, ih ht]
    simp

/-- A plain word is read as it stands. -/
theorem IsPlainWord.isWord {t : Text} (h : IsPlainWord t) : IsWord t t := by
  refine isWord_of_forall fun rest => ?_
  obtain ⟨c, t, rfl⟩ := List.exists_cons_of_ne_nil h.nonempty
  obtain ⟨hc, ht⟩ := List.forall_mem_cons.1 h.plain
  rw [List.cons_append, splitFrom?, hc.1, if_neg Bool.false_ne_true, inWord?_of_isPlain hc, Option.bind_some, splitFrom?_bare ht]
  simp

/-- Inside quotes the reader goes on as quoted texts are read. -/
theorem splitFrom?_of_readQuoted? {t read rest : Text} (h : readQuoted? t = some (read, rest)) (word : Text) :
    splitFrom? (.quoted word) t = splitFrom? (.bare (read.reverse ++ word)) rest := by
  induction t using readQuoted?.induct generalizing read word with
  | case1 => cases h
  | case2 t =>
    rw [readQuoted?, Option.some.injEq, Prod.mk.injEq] at h
    obtain ⟨rfl, rfl⟩ := h
    rfl
  | case3 t ih | case4 t ih =>
    rw [readQuoted?] at h
    obtain ⟨read', hread, rfl⟩ := Text.map_cons_eq_some_iff.1 h
    rw [List.reverse_cons, List.append_assoc]
    exact ih hread _
  | case5 c t hquote hbackslash hkept ih =>
    rw [readQuoted?] at h
    · obtain ⟨read', hread, rfl⟩ := Text.map_cons_eq_some_iff.1 h
      have hstep : splitFrom? (.quoted word) (c :: t) = splitFrom? (.quoted (c :: word)) t := by
        by_cases hc : c = '\\'
        · subst hc
          cases t with
          | nil => cases hread
          | cons d t =>
            have hbackslash' : d ≠ '\\' := fun hd => hbackslash t rfl (congrArg (· :: t) hd)
            have hquote' : d ≠ '\'' := fun hd => hkept t rfl (congrArg (· :: t) hd)
            have hescaped : splitFrom? (.quoted word) ('\\' :: d :: t) = splitFrom? (.escaped word) (d :: t) := rfl
            rw [hescaped, splitFrom?, splitFrom?]
            simp [hbackslash', hquote']
        · rw [splitFrom?, if_neg hquote, if_neg hc]
      rw [hstep, ih hread, List.reverse_cons, List.append_assoc]
      rfl
    all_goals assumption

/-- A text between single quotes. -/
def inQuotes (t : Text) : Text := "'".toList ++ t ++ "'".toList

/-- An escaped text between quotes is a word, even if it is empty. -/
theorem isWord_inQuotes_escape (t : Text) : IsWord (inQuotes (escape t)) t := by
  refine isWord_of_forall fun rest => ?_
  have hopen : splitFrom? .between (inQuotes (escape t) ++ rest) = splitFrom? (.quoted []) (escape t ++ ('\'' :: rest)) := by
    simp only [inQuotes, List.append_assoc]
    rfl
  rw [hopen, splitFrom?_of_readQuoted? (readQuoted?_escape t rest), List.append_nil]

/-! ## The words of a rule -/

/-- A word that is written as it is. -/
def bareWord (t : Text) : Text × Text := (t, t)

/-- A word that is written between quotes. -/
def quotedWord (t : Text) : Text × Text := (inQuotes (quote t), Text.singleLine t)

/-- The words that say what may follow an option. -/
def ValueRule.parts : ValueRule → List (Text × Text)
  | .none => []
  | .any => [bareWord "-r".toList]
  | .oneOf choices => [bareWord "-x".toList, bareWord "-a".toList, quotedWord (Text.join [' '] choices)]

/-- The words of a rule, as they are written and as they are read. -/
def Rule.parts (r : Rule) : List (Text × Text) :=
  bareWord "complete".toList ::
    ([bareWord "-c".toList, bareWord programName]
      ++ (if r.keepsFiles then [] else [bareWord "-f".toList])
      ++ [bareWord "-n".toList, quotedWord r.guard]
      ++ ((r.short.map fun c => [bareWord "-s".toList, bareWord [c]]).getD [])
      ++ ((r.long.map fun l => [bareWord "-l".toList, bareWord l]).getD [])
      ++ r.value.parts
      ++ ((r.candidates.map fun t => [bareWord "-a".toList, quotedWord t]).getD [])
      ++ if r.description.isEmpty then [] else [bareWord "-d".toList, quotedWord r.description])

/-- Words as they are written, with a space before each of them. -/
def spaced (parts : List (Text × Text)) : Text := parts.flatMap fun p => ' ' :: p.1

theorem spaced_append (ps qs : List (Text × Text)) : spaced (ps ++ qs) = spaced ps ++ spaced qs := List.flatMap_append

theorem join_map_fst_cons (p : Text × Text) (parts : List (Text × Text)) :
    Text.join [' '] ((p :: parts).map Prod.fst) = p.1 ++ spaced parts := by
  induction parts generalizing p with
  | nil => simp [spaced]
  | cons q rest ih =>
    rw [List.map_cons, List.map_cons, Text.join_cons_cons, ← List.map_cons, ih, spaced, spaced, List.flatMap_cons]
    simp

/-- A flag and a quoted text are two words. -/
theorem spaced_quoted (flag t : Text) : spaced [bareWord flag, quotedWord t] = quotedPart (' ' :: flag) t := by
  simp [spaced, bareWord, quotedWord, quotedPart, inQuotes]

theorem spaced_value (v : ValueRule) : spaced v.parts = v.render := by
  cases v with
  | none | any => rfl
  | oneOf choices => simp [ValueRule.parts, ValueRule.render, spaced, bareWord, quotedWord, quotedPart, inQuotes]

/-- A rule is written as its words with spaces between them. -/
theorem render_eq_join (r : Rule) : r.render = Text.join [' '] (r.parts.map Prod.fst) := by
  have hstart : spaced [bareWord "-c".toList, bareWord programName] = " -c ".toList ++ programName := rfl
  have hfiles : spaced (if r.keepsFiles then [] else [bareWord "-f".toList]) = if r.keepsFiles then [] else " -f".toList := by
    split <;> rfl
  have hshort : spaced ((r.short.map fun c => [bareWord "-s".toList, bareWord [c]]).getD []) =
      (r.short.map fun c => " -s ".toList ++ [c]).getD [] := by
    cases r.short <;> rfl
  have hlong : spaced ((r.long.map fun l => [bareWord "-l".toList, bareWord l]).getD []) =
      (r.long.map fun l => " -l ".toList ++ l).getD [] := by
    cases r.long <;> simp [spaced, bareWord]
  have hcandidates : spaced ((r.candidates.map fun t => [bareWord "-a".toList, quotedWord t]).getD []) =
      (r.candidates.map (quotedPart " -a".toList)).getD [] := by
    cases r.candidates with
    | none => rfl
    | some t => exact spaced_quoted "-a".toList t
  have hdescription : spaced (if r.description.isEmpty then [] else [bareWord "-d".toList, quotedWord r.description]) =
      if r.description.isEmpty then [] else quotedPart " -d".toList r.description := by
    split
    · rfl
    · exact spaced_quoted "-d".toList r.description
  have hguard : spaced [bareWord "-n".toList, quotedWord r.guard] = quotedPart " -n".toList r.guard :=
    spaced_quoted "-n".toList r.guard
  rw [Rule.parts, join_map_fst_cons]
  unfold Rule.render
  simp only [spaced_append, hstart, hfiles, hguard, hshort, hlong, spaced_value, hcandidates, hdescription, List.append_assoc]
  exact List.append_assoc "complete".toList " -c ".toList _

/-! ## What is read of a rule -/

theorem isWord_bareWord {t : Text} (h : IsPlainWord t) : IsWord (bareWord t).1 (bareWord t).2 := h.isWord

theorem isWord_quotedWord (t : Text) : IsWord (quotedWord t).1 (quotedWord t).2 := by
  rw [quotedWord, quote_eq]
  exact isWord_inQuotes_escape _

/-- A flag without anything to escape and the text behind it are words. -/
theorem isWord_of_mem_quoted {flag : Text} (h : IsPlainWord flag) (t : Text) :
    ∀ p ∈ [bareWord flag, quotedWord t], IsWord p.1 p.2 :=
  List.forall_mem_cons.2 ⟨isWord_bareWord h, List.forall_mem_singleton.2 (isWord_quotedWord t)⟩

/-- A flag and a word behind it that stand as they are are words. -/
theorem isWord_of_mem_bare {flag t : Text} (h : IsPlainWord flag) (ht : IsPlainWord t) :
    ∀ p ∈ [bareWord flag, bareWord t], IsWord p.1 p.2 :=
  List.forall_mem_cons.2 ⟨isWord_bareWord h, List.forall_mem_singleton.2 (isWord_bareWord ht)⟩

theorem isWord_of_mem_value (v : ValueRule) : ∀ p ∈ v.parts, IsWord p.1 p.2 := by
  cases v with
  | none => exact List.forall_mem_nil _
  | any => exact List.forall_mem_singleton.2 (isWord_bareWord (by decide))
  | oneOf choices => exact List.forall_mem_cons.2 ⟨isWord_bareWord (by decide), isWord_of_mem_quoted (by decide) _⟩

/-- A rule is read as its words if the forms of its option can be written as they are. -/
theorem split?_render {r : Rule} (hshort : ∀ c ∈ r.short, IsPlain c) (hlong : ∀ l ∈ r.long, IsPlainWord l) :
    split? r.render = some (r.parts.map Prod.snd) := by
  have hstart : ∀ p ∈ [bareWord "-c".toList, bareWord programName], IsWord p.1 p.2 := isWord_of_mem_bare (by decide) (by decide)
  have hfiles : ∀ p ∈ if r.keepsFiles then [] else [bareWord "-f".toList], IsWord p.1 p.2 := by
    split
    · exact List.forall_mem_nil _
    · exact List.forall_mem_singleton.2 (isWord_bareWord (by decide))
  have hguard : ∀ p ∈ [bareWord "-n".toList, quotedWord r.guard], IsWord p.1 p.2 := isWord_of_mem_quoted (by decide) r.guard
  have hshort' : ∀ p ∈ (r.short.map fun c => [bareWord "-s".toList, bareWord [c]]).getD [], IsWord p.1 p.2 := by
    cases hr : r.short with
    | none => exact List.forall_mem_nil _
    | some c =>
      have hletter : IsPlainWord [c] := ⟨List.cons_ne_nil c [], List.forall_mem_singleton.2 (hshort c hr)⟩
      exact isWord_of_mem_bare (by decide) hletter
  have hlong' : ∀ p ∈ (r.long.map fun l => [bareWord "-l".toList, bareWord l]).getD [], IsWord p.1 p.2 := by
    cases hr : r.long with
    | none => exact List.forall_mem_nil _
    | some l => exact isWord_of_mem_bare (by decide) (hlong l hr)
  have hcandidates : ∀ p ∈ (r.candidates.map fun t => [bareWord "-a".toList, quotedWord t]).getD [], IsWord p.1 p.2 := by
    cases r.candidates with
    | none => exact List.forall_mem_nil _
    | some t => exact isWord_of_mem_quoted (by decide) t
  have hdescription : ∀ p ∈ if r.description.isEmpty then [] else [bareWord "-d".toList, quotedWord r.description],
      IsWord p.1 p.2 := by
    split
    · exact List.forall_mem_nil _
    · exact isWord_of_mem_quoted (by decide) r.description
  rw [render_eq_join]
  refine split?_join (List.forall_mem_cons.2 ⟨isWord_bareWord (by decide), ?_⟩)
  simp only [List.forall_mem_append]
  exact ⟨⟨⟨⟨⟨⟨⟨hstart, hfiles⟩, hguard⟩, hshort'⟩, hlong'⟩, isWord_of_mem_value _⟩, hcandidates⟩, hdescription⟩

/-- The words that the rules of a command begin with. -/
def startWords (path : List Text) (t : CommandTree) : List Text :=
  ["complete".toList, "-c".toList, programName] ++ (if t.allowUnknownOption then [] else ["-f".toList])
    ++ ["-n".toList, Text.singleLine (guard path)]

/-- The words that say what may follow an option. -/
def valueWords (o : OptionEntry) : List Text :=
  if o.isBoolean then []
  else
    match o.choiceList with
    | some choices => ["-x".toList, "-a".toList, Text.singleLine (Text.join [' '] choices)]
    | none => ["-r".toList]

/-- The words that describe what is offered. -/
def descriptionWords (description : Text) : List Text :=
  if description.isEmpty then [] else ["-d".toList, Text.singleLine description]

theorem map_snd_parts (r : Rule) : r.parts.map Prod.snd =
    ["complete".toList, "-c".toList, programName] ++ (if r.keepsFiles then [] else ["-f".toList])
      ++ ["-n".toList, Text.singleLine r.guard] ++ ((r.short.map fun c => ["-s".toList, [c]]).getD [])
      ++ ((r.long.map fun l => ["-l".toList, l]).getD []) ++ r.value.parts.map Prod.snd
      ++ ((r.candidates.map fun t => ["-a".toList, Text.singleLine t]).getD []) ++ descriptionWords r.description := by
  have hfiles : (if r.keepsFiles then [] else [bareWord "-f".toList]).map Prod.snd =
      if r.keepsFiles then [] else ["-f".toList] := by
    split <;> rfl
  have hshort : ((r.short.map fun c => [bareWord "-s".toList, bareWord [c]]).getD []).map Prod.snd =
      (r.short.map fun c => ["-s".toList, [c]]).getD [] := by
    cases r.short <;> rfl
  have hlong : ((r.long.map fun l => [bareWord "-l".toList, bareWord l]).getD []).map Prod.snd =
      (r.long.map fun l => ["-l".toList, l]).getD [] := by
    cases r.long <;> rfl
  have hcandidates : ((r.candidates.map fun t => [bareWord "-a".toList, quotedWord t]).getD []).map Prod.snd =
      (r.candidates.map fun t => ["-a".toList, Text.singleLine t]).getD [] := by
    cases r.candidates <;> rfl
  have hdescription : (if r.description.isEmpty then [] else [bareWord "-d".toList, quotedWord r.description]).map Prod.snd =
      descriptionWords r.description := by
    unfold descriptionWords
    split <;> rfl
  rw [Rule.parts, List.map_cons]
  simp only [List.map_append, hfiles, hshort, hlong, hcandidates, hdescription]
  rfl

/-- A rule is one command: it has the words that its texts ask for, each text on one line. A rule for an option has them if the forms of
the option can be written as they are, the rules for arguments and subcommands always do. -/
theorem split?_rules :
    (∀ (path : List Text) (t : CommandTree) (o : OptionEntry), IsPlainWord o.long → (∀ c ∈ o.short, IsPlain c) →
      split? (optionRule path t o).render = some (startWords path t
        ++ ((o.short.map fun c => ["-s".toList, [c]]).getD []) ++ (if o.shortOnly then [] else ["-l".toList, o.long])
        ++ valueWords o ++ descriptionWords o.description)) ∧
    (∀ (path : List Text) (t : CommandTree) (a : ArgumentEntry),
      (argumentRule? path t a).map (fun r => split? r.render) = (candidates? (a.source t.name)).map fun found =>
        some (startWords path t ++ ["-a".toList, Text.singleLine found.1]
          ++ descriptionWords (if a.description.isEmpty then found.2 else a.description))) ∧
    ∀ (path : List Text) (t c : CommandTree),
      split? (childRule path t c).render = some (startWords path t ++ ["-a".toList, Text.singleLine c.name]
        ++ descriptionWords c.description) := by
  have hnoForms : ∀ r : Rule, r.short = none → r.long = none → split? r.render = some (r.parts.map Prod.snd) :=
    fun r hs hl => split?_render (fun c hc => absurd (hs ▸ hc) (Option.not_mem_none c))
      (fun l hmem => absurd (hl ▸ hmem) (Option.not_mem_none l))
  refine ⟨?_, ?_, ?_⟩
  · intro path t o hlong hshort
    have hform : ∀ l ∈ (optionRule path t o).long, IsPlainWord l := by
      intro l hl
      rw [optionRule] at hl
      split at hl
      · exact absurd hl (Option.not_mem_none l)
      · exact Option.mem_some_iff.1 hl ▸ hlong
    have hlongWords : ((optionRule path t o).long.map fun l => ["-l".toList, l]).getD [] =
        if o.shortOnly then [] else ["-l".toList, o.long] := by
      unfold optionRule
      dsimp only
      split <;> rfl
    have hvalue : (optionRule path t o).value.parts.map Prod.snd = valueWords o := by
      unfold optionRule valueWords
      dsimp only
      cases o.isBoolean <;> cases o.choiceList <;> rfl
    rw [split?_render hshort hform, map_snd_parts, hlongWords, hvalue]
    simp only [optionRule, startWords, Option.map_none, Option.getD_none, List.append_nil]
    rfl
  · intro path t a
    rw [argumentRule?, Option.map_map]
    cases candidates? (a.source t.name) with
    | none => rfl
    | some found =>
      simp only [Option.map_some, Function.comp_apply]
      rw [hnoForms _ rfl rfl, map_snd_parts]
      simp only [startWords, ValueRule.parts, Option.map_none, Option.getD_none, Option.map_some, Option.getD_some, List.map_nil,
        List.append_nil]
  · intro path t c
    rw [hnoForms _ rfl rfl, map_snd_parts]
    simp only [childRule, startWords, ValueRule.parts, Option.map_none, Option.getD_none, Option.map_some, Option.getD_some,
      List.map_nil, List.append_nil]
    rfl

/-- An option with backslashes and quotes in its texts, and blanks around them. -/
def driveOption : OptionEntry :=
  ((OptionEntry.value "drive".toList " A\\'s\n\\".toList).withShort 'd').withChoices ["C:\\".toList, "it's".toList]

/-- Its rule below a command with a quote in its name is read as its words. -/
theorem split?_rules_driveOption :
    IsPlainWord driveOption.long ∧ (∀ c ∈ driveOption.short, IsPlain c) ∧
    split? (optionRule ["who's".toList] {} driveOption).render = some
      ["complete".toList, "-c".toList, "devx".toList, "-f".toList, "-n".toList, "__fish_seen_subcommand_from who's".toList,
        "-s".toList, "d".toList, "-l".toList, "drive".toList, "-x".toList, "-a".toList, "C:\\ it's".toList, "-d".toList,
        "A\\'s \\".toList] := by
  have hlong : IsPlainWord driveOption.long := by decide
  have hshort : ∀ c ∈ driveOption.short, IsPlain c := by
    intro c hc
    obtain rfl := Option.mem_some_iff.1 hc
    decide
  exact ⟨hlong, hshort, split?_rules.1 ["who's".toList] {} driveOption hlong hshort⟩

end Fish

end DevWorkflow
