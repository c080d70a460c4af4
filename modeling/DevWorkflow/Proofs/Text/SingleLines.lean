import DevWorkflow.Proofs.Text.Splitting

/-!
# Texts on one line as a normal form

The words of a text are the maximal runs of characters that are not blank (`Text.hasRuns_iff`). Two texts with the same words differ in
their blanks only, and among them is one whose blanks are single spaces between words (`Text.IsSpaced`): this is the text on one line
(`Text.singleLine_isNormalForm`).
-/

namespace DevWorkflow

namespace Text

/-! ## Words as runs -/

/-- Whether a text consists of blanks and of the given runs of other characters, in order. Behind each run is a blank or the end of the
text, so no run can be made longer. -/
inductive HasRuns : Text → List Text → Prop where
  | blank {gap : Text} (hgap : ∀ c ∈ gap, isBlank c = true) : HasRuns gap []
  | run {gap w rest : Text} {ws : List Text} (hgap : ∀ c ∈ gap, isBlank c = true) (hne : w ≠ [])
      (hw : ∀ c ∈ w, isBlank c = false) (hend : ∀ c ∈ rest.head?, isBlank c = true) (hrest : HasRuns rest ws) :
      HasRuns (gap ++ (w ++ rest)) (w :: ws)

/-- Blanks at the start of a text belong to no word. -/
theorem words_append_of_blank {gap : Text} (h : ∀ c ∈ gap, isBlank c = true) (t : Text) : words (gap ++ t) = words t := by
  induction gap with
  | nil => rfl
  | cons c gap ih =>
    obtain ⟨hc, hgap⟩ := List.forall_mem_cons.1 h
    have hblank : words (c :: (gap ++ t)) = words [] ++ words (gap ++ t) := words_append_cons [] hc (gap ++ t)
    rw [List.cons_append, hblank, ih hgap]
    rfl

/-- What begins with a word and goes on with a blank, or ends there, has that word first. -/
theorem words_append_of_word {w : Text} (hne : w ≠ []) (hw : ∀ c ∈ w, isBlank c = false) {rest : Text}
    (hend : ∀ c ∈ rest.head?, isBlank c = true) : words (w ++ rest) = w :: words rest := by
  cases rest with
  | nil =>
    rw [List.append_nil, words_eq_singleton hne hw]
    rfl
  | cons c rest =>
    have hc : isBlank c = true := hend c rfl
    have hrest : words ([c] ++ rest) = words rest := words_append_of_blank (List.forall_mem_singleton.2 hc) rest
    rw [words_append_cons w hc, words_eq_singleton hne hw, ← hrest]
    rfl

/-- The runs of a text are its words. -/
theorem HasRuns.words_eq {t : Text} {ws : List Text} (h : HasRuns t ws) : words t = ws := by
  induction h with
  | @blank gap hgap =>
    rw [← List.append_nil gap, words_append_of_blank hgap]
    rfl
  | run hgap hne hw hend _ ih => rw [words_append_of_blank hgap, words_append_of_word hne hw hend, ih]

/-- A blank may come first. -/
theorem HasRuns.cons_of_blank {t : Text} {ws : List Text} (h : HasRuns t ws) {c : Char} (hc : isBlank c = true) :
    HasRuns (c :: t) ws := by
  cases h with
  | blank hgap => exact .blank (List.forall_mem_cons.2 ⟨hc, hgap⟩)
  | run hgap hne hw hend hrest => exact .run (List.forall_mem_cons.2 ⟨hc, hgap⟩) hne hw hend hrest

/-- A character that is not blank begins a run, or makes the run longer that the text begins with. -/
theorem HasRuns.exists_cons {t : Text} {ws : List Text} (h : HasRuns t ws) {c : Char} (hc : isBlank c = false) :
    ∃ us, HasRuns (c :: t) us := by
  have hnone : ∀ d ∈ ([] : Text), isBlank d = true := List.forall_mem_nil _
  by_cases hstart : ∀ d ∈ t.head?, isBlank d = true
  · exact ⟨[c] :: ws, .run hnone (List.cons_ne_nil c []) (List.forall_mem_singleton.2 hc) hstart h⟩
  · cases h with
    | blank hgap => exact absurd (fun d hd => hgap d (List.mem_of_mem_head? hd)) hstart
    | @run gap w rest ws hgap hne hw hend hrest =>
      cases gap with
      | nil => exact ⟨(c :: w) :: ws, .run hnone (List.cons_ne_nil c w) (List.forall_mem_cons.2 ⟨hc, hw⟩) hend hrest⟩
      | cons d gap => exact absurd (fun e he => hgap e (List.mem_of_mem_head? he)) hstart

/-- Every text has its runs. -/
theorem exists_hasRuns (t : Text) : ∃ ws, HasRuns t ws := by
  induction t with
  | nil => exact ⟨[], .blank (List.forall_mem_nil _)⟩
  | cons c t ih =>
    obtain ⟨ws, h⟩ := ih
    cases hc : isBlank c with
    | true => exact ⟨ws, h.cons_of_blank hc⟩
    | false => exact h.exists_cons hc

/-- The words of a text are its maximal runs of characters that are not blank. -/
theorem hasRuns_iff {t : Text} {ws : List Text} : HasRuns t ws ↔ words t = ws := by
  refine ⟨HasRuns.words_eq, ?_⟩
  rintro rfl
  obtain ⟨ws, h⟩ := exists_hasRuns t
  exact h.words_eq ▸ h

/-! ## Single spaces between words -/

/-- Whether the only blanks of a text are single spaces between words. -/
structure IsSpaced (t : Text) : Prop where
  spaces : ∀ c ∈ t, isBlank c = true → c = ' '
  single : ¬[' ', ' '] <:+: t
  start : t.head? ≠ some ' '
  finish : t.getLast? ≠ some ' '

/-- A word is spaced. -/
theorem isSpaced_of_forall {w : Text} (h : ∀ c ∈ w, isBlank c = false) : IsSpaced w := by
  have hspace : ' ' ∉ w := fun hmem => absurd (h ' ' hmem) (by decide)
  refine ⟨fun c hc hblank => ?_, fun hpair => ?_, fun hhead => ?_, fun hlast => ?_⟩
  · exact absurd hblank (by simp [h c hc])
  · exact hspace (hpair.subset List.mem_cons_self)
  · exact hspace (List.mem_of_head? hhead)
  · exact hspace (List.mem_of_getLast? hlast)

/-- So are two spaced texts with a space between them. -/
theorem IsSpaced.append_cons {t u : Text} (ht : IsSpaced t) (hu : IsSpaced u) (htne : t ≠ []) (hune : u ≠ []) :
    IsSpaced (t ++ ' ' :: u) := by
  refine ⟨fun c hc hblank => ?_, fun hpair => ?_, ?_, ?_⟩
  · rcases List.mem_append.1 hc with hc | hc
    · exact ht.spaces c hc hblank
    · rcases List.mem_cons.1 hc with rfl | hc
      · rfl
      · exact hu.spaces c hc hblank
  · -- the pair stands in one of the two texts, or the space in the middle is one of the pair
    rcases pair_infix_append_iff.1 hpair with hpair | hpair | ⟨hlast, -⟩
    · exact ht.single hpair
    · have hsplit : [' ', ' '] <:+: [' '] ++ u := hpair
      rcases pair_infix_append_iff.1 hsplit with hpair | hpair | ⟨-, hhead⟩
      · have hlength : 2 ≤ 1 := hpair.length_le
        omega
      · exact hu.single hpair
      · exact hu.start hhead
    · exact ht.finish hlast
  · rw [List.head?_append_of_ne_nil t htne]
    exact ht.start
  · rw [List.getLast?_append_of_ne_nil t (List.cons_ne_nil ' ' u), List.getLast?_cons_of_ne_nil hune]
    exact hu.finish

/-- Words with a space between each two are a spaced text. -/
theorem isSpaced_join {ws : List Text} (h : ∀ w ∈ ws, w ≠ [] ∧ ∀ c ∈ w, isBlank c = false) : IsSpaced (join [' '] ws) := by
  induction ws with
  | nil => exact isSpaced_of_forall (List.forall_mem_nil _)
  | cons w ws ih =>
    obtain ⟨⟨hne, hw⟩, hws⟩ := List.forall_mem_cons.1 h
    cases ws with
    | nil => exact isSpaced_of_forall hw
    | cons u rest =>
      have hrest : join [' '] (u :: rest) ≠ [] := by
        obtain ⟨hu, -⟩ := (List.forall_mem_cons.1 hws).1
        intro hnil
        have hinfix : u <:+: join [' '] (u :: rest) := infix_join List.mem_cons_self
        exact hu (List.infix_nil.1 (hnil ▸ hinfix))
      rw [join_cons_cons, List.append_assoc, List.singleton_append]
      exact (isSpaced_of_forall hw).append_cons (ih hws) hne hrest

/-- A spaced text has no empty piece between two of its spaces, nor one at an end. -/
theorem IsSpaced.nil_not_mem_splitAt {t : Text} (h : IsSpaced t) (hne : t ≠ []) : [] ∉ splitAt (· = ' ') t := by
  intro hmem
  obtain ⟨before, after, hpieces⟩ := List.append_of_mem hmem
  have htext : join [' '] (before ++ [] :: after) = t := by rw [← hpieces, join_splitAt]
  by_cases hbefore : before = []
  · subst hbefore
    cases after with
    | nil => exact hne htext.symm
    | cons piece after => exact h.start (htext ▸ rfl)
  · rw [join_append [' '] hbefore (List.cons_ne_nil [] after)] at htext
    cases after with
    | nil =>
      rw [join_singleton, List.append_nil] at htext
      exact h.finish (htext ▸ List.getLast?_concat)
    | cons piece after =>
      refine h.single ⟨join [' '] before, join [' '] (piece :: after), ?_⟩
      rw [← htext, join_cons_cons]
      simp only [List.append_assoc, List.cons_append, List.nil_append]

/-- A spaced text is on one line as it stands. -/
theorem IsSpaced.singleLine_eq {t : Text} (h : IsSpaced t) : singleLine t = t := by
  by_cases hne : t = []
  · subst hne
    rfl
  · have hblank : splitAt isBlank t = splitAt (· = ' ') t := by
      refine splitAt_congr fun c hc => ?_
      rw [Bool.eq_iff_iff, decide_eq_true_iff]
      exact ⟨h.spaces c hc, fun hspace => hspace ▸ by decide⟩
    have hkept : words t = splitAt (· = ' ') t := by
      rw [words, hblank, List.filter_eq_self]
      intro piece hpiece
      have hpiece' : piece ≠ [] := ne_of_mem_of_not_mem hpiece (h.nil_not_mem_splitAt hne)
      simpa using hpiece'
    rw [singleLine, hkept, join_splitAt]

/-! ## The normal form -/

/-- A text on one line is spaced. -/
theorem isSpaced_singleLine (t : Text) : IsSpaced (singleLine t) := isSpaced_join fun _ hw => of_mem_words hw

/-- The texts on one line are the spaced texts. -/
theorem singleLine_eq_self_iff {t : Text} : singleLine t = t ↔ IsSpaced t :=
  ⟨fun h => h ▸ isSpaced_singleLine t, IsSpaced.singleLine_eq⟩

/-- Being on one line is a normal form of texts up to their blanks: it is taken in one step, keeps the runs of characters that are not
blank and leaves no blanks but single spaces between them. These texts do not change any more, and two texts are the same on one line
just if they have the same runs. -/
theorem singleLine_isNormalForm (s t : Text) :
    singleLine (singleLine s) = singleLine s ∧
    HasRuns s (words s) ∧ (∀ ws, HasRuns (singleLine s) ws ↔ HasRuns s ws) ∧
    IsSpaced (singleLine s) ∧ (singleLine s = s ↔ IsSpaced s) ∧
    (singleLine s = singleLine t ↔ ∀ ws, HasRuns s ws ↔ HasRuns t ws) := by
  refine ⟨(isSpaced_singleLine s).singleLine_eq, hasRuns_iff.2 rfl, ?_, isSpaced_singleLine s, singleLine_eq_self_iff, ?_⟩
  · intro ws
    rw [hasRuns_iff, hasRuns_iff, words_singleLine]
  · constructor
    · intro h ws
      have hwords : words s = words t := by rw [← words_singleLine s, h, words_singleLine]
      rw [hasRuns_iff, hasRuns_iff, hwords]
    · intro h
      have hwords : words t = words s := hasRuns_iff.1 ((h (words s)).1 (hasRuns_iff.2 rfl))
      rw [singleLine, singleLine, hwords]

end Text

end DevWorkflow
