import DevWorkflow.Text.Blank
import DevWorkflow.Text.Lines
import Mathlib.Data.List.DropRight

/-!
# Pieces, lines and words of texts that are put together

Splitting undoes putting together: a separator divides the pieces before it from those after it (`Text.splitAt_append_cons`), so
lines that end with line feeds are found again (`Text.splitAt_flatMap`, `Text.lines_flatMap`), and so are words with spaces between
them (`Text.words_join`). A text on one line has no blanks but spaces in it (`Text.eq_space_of_mem_singleLine`).
-/

namespace DevWorkflow

namespace Text

variable {p : Char → Bool}

/-! ## Pieces -/

/-- A text without separators is one piece. -/
theorem splitAt_of_forall {t : Text} (h : ∀ c ∈ t, p c = false) : splitAt p t = [t] := by
  induction t with
  | nil => rfl
  | cons c rest ih =>
    obtain ⟨hc, hrest⟩ := List.forall_mem_cons.1 h
    rw [splitAt, hc, ih hrest]
    rfl

/-- Only what the separators are among the characters of a text matters for its pieces. -/
theorem splitAt_congr {q : Char → Bool} {t : Text} (h : ∀ c ∈ t, p c = q c) : splitAt p t = splitAt q t := by
  induction t with
  | nil => rfl
  | cons c rest ih =>
    obtain ⟨hc, hrest⟩ := List.forall_mem_cons.1 h
    rw [splitAt, splitAt, hc, ih hrest]

/-- The pieces before a separator come before the pieces after it. -/
theorem splitAt_append_cons (t : Text) {c : Char} (hc : p c = true) (rest : Text) :
    splitAt p (t ++ c :: rest) = splitAt p t ++ splitAt p rest := by
  induction t with
  | nil =>
    have hempty : splitAt p [] = [[]] := rfl
    rw [List.nil_append, hempty, splitAt, hc]
    rfl
  | cons d t ih =>
    rw [List.cons_append, splitAt, splitAt, ih]
    cases hd : p d with
    | true => rfl
    | false =>
      cases hpieces : splitAt p t with
      | nil => exact absurd hpieces (splitAt_ne_nil p t)
      | cons piece pieces => rfl

/-- Up to the first separator is the first piece. -/
theorem splitAt_eq_cons (p : Char → Bool) (t : Text) : splitAt p t = t.takeWhile (fun c => !p c) :: (splitAt p t).tail := by
  induction t with
  | nil => rfl
  | cons c rest ih =>
    rw [splitAt]
    cases hc : p c with
    | true =>
      rw [List.takeWhile_cons_of_neg (by simp [hc])]
      rfl
    | false =>
      rw [List.takeWhile_cons_of_pos (by simp [hc]), ih]
      rfl

/-- Texts with a separator behind each are divided one after another. -/
theorem splitAt_flatMap_concat (ts : List Text) {c : Char} (hc : p c = true) (rest : Text) :
    splitAt p ((ts.flatMap fun t => t ++ [c]) ++ rest) = ts.flatMap (splitAt p) ++ splitAt p rest := by
  induction ts with
  | nil => rfl
  | cons t ts ih =>
    rw [List.flatMap_cons, List.append_assoc, List.append_assoc, List.singleton_append, splitAt_append_cons t hc, ih,
      List.flatMap_cons, List.append_assoc]

/-- What ends with separators is divided again. -/
theorem splitAt_flatMap {ts : List Text} (h : ∀ t ∈ ts, ∀ c ∈ t, p c = false) {c : Char} (hc : p c = true) (rest : Text) :
    splitAt p ((ts.flatMap fun t => t ++ [c]) ++ rest) = ts ++ splitAt p rest := by
  rw [splitAt_flatMap_concat ts hc, List.flatMap_congr fun t ht => splitAt_of_forall (h t ht), List.flatMap_singleton']

/-- Pieces have no separators in them. -/
theorem eq_false_of_mem_splitAt {t piece : Text} (h : piece ∈ splitAt p t) : ∀ c ∈ piece, p c = false := by
  induction t generalizing piece with
  | nil =>
    obtain rfl := List.mem_singleton.1 h
    exact List.forall_mem_nil _
  | cons c rest ih =>
    rw [splitAt] at h
    cases hc : p c with
    | true =>
      rw [hc] at h
      rcases List.mem_cons.1 h with rfl | h
      · exact List.forall_mem_nil _
      · exact ih h
    | false =>
      rw [hc] at h
      cases hpieces : splitAt p rest with
      | nil => exact absurd hpieces (splitAt_ne_nil p rest)
      | cons first others =>
        rw [hpieces] at h ih
        rcases List.mem_cons.1 h with rfl | h
        · exact List.forall_mem_cons.2 ⟨hc, ih List.mem_cons_self⟩
        · exact ih (List.mem_cons_of_mem _ h)

/-- Pieces have only characters of the text in them. -/
theorem mem_of_mem_splitAt {t piece : Text} (h : piece ∈ splitAt p t) : ∀ c ∈ piece, c ∈ t := by
  induction t generalizing piece with
  | nil =>
    obtain rfl := List.mem_singleton.1 h
    exact List.forall_mem_nil _
  | cons d rest ih =>
    rw [splitAt] at h
    split at h
    · rcases List.mem_cons.1 h with rfl | h
      · exact List.forall_mem_nil _
      · exact fun c hc => List.mem_cons_of_mem d (ih h c hc)
    · cases hpieces : splitAt p rest with
      | nil => exact absurd hpieces (splitAt_ne_nil p rest)
      | cons first others =>
        rw [hpieces] at h ih
        rcases List.mem_cons.1 h with rfl | h
        · intro c hc
          rcases List.mem_cons.1 hc with rfl | hc
          · exact List.mem_cons_self
          · exact List.mem_cons_of_mem d (ih List.mem_cons_self c hc)
        · exact fun c hc => List.mem_cons_of_mem d (ih (List.mem_cons_of_mem first h) c hc)

/-- Putting the pieces of a text together gives the text. -/
theorem join_splitAt (c : Char) (t : Text) : join [c] (splitAt (· = c) t) = t := by
  induction t with
  | nil => rfl
  | cons d rest ih =>
    rw [splitAt]
    cases hpieces : splitAt (· = c) rest with
    | nil => exact absurd hpieces (splitAt_ne_nil _ rest)
    | cons piece pieces =>
      rw [hpieces] at ih
      by_cases hd : d = c
      · subst hd
        rw [if_pos (decide_eq_true rfl), join_cons_cons, ih]
        rfl
      · rw [if_neg (by simpa using hd)]
        cases pieces with
        | nil => rw [join_singleton, ← ih, join_singleton]
        | cons next pieces =>
          rw [← ih, join_cons_cons, join_cons_cons]
          rfl

/-- A separator stands between what is put together first and what is put together after it. -/
theorem join_append (sep : Text) {ts us : List Text} (hts : ts ≠ []) (hus : us ≠ []) :
    join sep (ts ++ us) = join sep ts ++ sep ++ join sep us := by
  induction ts with
  | nil => exact absurd rfl hts
  | cons t ts ih =>
    cases ts with
    | nil =>
      obtain ⟨u, us, rfl⟩ := List.exists_cons_of_ne_nil hus
      rw [List.singleton_append, join_cons_cons, join_singleton]
    | cons t' ts =>
      have hrest := ih (List.cons_ne_nil t' ts)
      rw [List.cons_append] at hrest
      rw [List.cons_append, List.cons_append, join_cons_cons, hrest, join_cons_cons]
      simp only [List.append_assoc]

/-! ## Lines -/

/-- Whether every line of a text that ends with a line feed has a property, whatever follows the text. -/
def HasLines (P : Text → Prop) (t : Text) : Prop :=
  ∀ rest, ∀ line ∈ splitAt (· = '\n') (t ++ rest), P line ∨ line ∈ splitAt (· = '\n') rest

namespace HasLines

variable {P : Text → Prop}

theorem nil : HasLines P [] := fun _ _ h => .inr h

theorem append {t u : Text} (ht : HasLines P t) (hu : HasLines P u) : HasLines P (t ++ u) := by
  intro rest line h
  rw [List.append_assoc] at h
  rcases ht (u ++ rest) line h with h | h
  · exact .inl h
  · exact hu rest line h

theorem flatMap {α : Type} {f : α → Text} {as : List α} (h : ∀ a ∈ as, HasLines P (f a)) : HasLines P (as.flatMap f) := by
  induction as with
  | nil => exact nil
  | cons a rest ih =>
    obtain ⟨ha, hrest⟩ := List.forall_mem_cons.1 h
    rw [List.flatMap_cons]
    exact ha.append (ih hrest)

theorem imp {Q : Text → Prop} {t : Text} (h : HasLines P t) (hPQ : ∀ line, P line → Q line) : HasLines Q t :=
  fun rest line hline => (h rest line hline).imp_left (hPQ line)

/-- The lines of a text and a line feed after it are the lines of the text. -/
theorem of_forall {t : Text} (h : ∀ line ∈ splitAt (· = '\n') t, P line) : HasLines P (t ++ ['\n']) := by
  intro rest line hline
  rw [List.append_assoc, List.singleton_append, splitAt_append_cons t (by decide)] at hline
  rcases List.mem_append.1 hline with hline | hline
  · exact .inl (h line hline)
  · exact .inr hline

/-- A text without line feeds is one line. -/
theorem of_line {t : Text} (h : '\n' ∉ t) (ht : P t) : HasLines P (t ++ ['\n']) := by
  refine of_forall ?_
  rw [splitAt_of_forall fun c hc => decide_eq_false (ne_of_mem_of_not_mem hc h)]
  exact List.forall_mem_singleton.2 ht

/-- A line of such a text has the property or is the empty one at the end. -/
theorem of_mem {t line : Text} (h : HasLines P t) (hline : line ∈ splitAt (· = '\n') t) : P line ∨ line = [] := by
  rw [← List.append_nil t] at hline
  rcases h [] line hline with h | h
  · exact .inl h
  · exact .inr (List.mem_singleton.1 h)

end HasLines

/-! ## Printed lines -/

theorem dropReturn_of_getLast? {line : Text} (h : line.getLast? ≠ some '\r') : dropReturn line = line := if_neg h

theorem dropReturn_append {line : Text} (h : line ≠ []) (start : Text) : dropReturn (start ++ line) = start ++ dropReturn line := by
  unfold dropReturn
  rw [List.getLast?_append_of_ne_nil start h, List.dropLast_append_of_ne_nil h]
  split <;> rfl

/-- Without the carriage return at its end, a line is a beginning of itself. -/
theorem dropReturn_prefix (line : Text) : dropReturn line <+: line := by
  unfold dropReturn
  split
  · exact List.dropLast_prefix line
  · exact List.prefix_rfl

theorem dropReturn_eq_iff {line t : Text} (h : t.getLast? ≠ some '\r') : dropReturn line = t ↔ line = t ∨ line = t ++ ['\r'] := by
  unfold dropReturn
  split
  · next hlast =>
    obtain ⟨start, rfl⟩ := List.getLast?_eq_some_iff.1 hlast
    rw [List.dropLast_concat, List.append_left_inj]
    exact ⟨.inr, fun hor => hor.resolve_left fun heq => h (heq ▸ hlast)⟩
  · next hlast => exact ⟨.inl, fun hor => hor.resolve_right fun heq => hlast (heq ▸ List.getLast?_concat)⟩

/-- Lines that are printed one by one are read again, without the carriage returns at their ends. -/
theorem lines_flatMap {ts : List Text} (h : ∀ t ∈ ts, '\n' ∉ t) : lines (ts.flatMap fun t => t ++ ['\n']) = ts.map dropReturn := by
  have hpieces : splitAt (· = '\n') (ts.flatMap fun t => t ++ ['\n']) = ts ++ [[]] := by
    have hfeed : ∀ t ∈ ts, ∀ c ∈ t, decide (c = '\n') = false :=
      fun t ht c hc => decide_eq_false (ne_of_mem_of_not_mem hc (h t ht))
    have hflat := splitAt_flatMap hfeed (decide_eq_true (rfl : '\n' = '\n')) []
    rwa [List.append_nil] at hflat
  rw [lines, hpieces]
  clear h hpieces
  induction ts with
  | nil => rfl
  | cons t ts ih =>
    rw [List.map_cons, ← ih]
    cases ts <;> rfl

/-! ## Words -/

/-- Words are not empty and have no blanks in them. -/
theorem of_mem_words {t w : Text} (h : w ∈ words t) : w ≠ [] ∧ ∀ c ∈ w, isBlank c = false := by
  obtain ⟨hpiece, hne⟩ := List.mem_filter.1 h
  exact ⟨by simpa using hne, eq_false_of_mem_splitAt hpiece⟩

/-- A text without blanks is one word, unless it is empty. -/
theorem words_of_forall {t : Text} (h : ∀ c ∈ t, isBlank c = false) : words t = [t].filter fun w => !w.isEmpty := by
  rw [words, splitAt_of_forall h]

/-- A word is its only word. -/
theorem words_eq_singleton {w : Text} (hne : w ≠ []) (h : ∀ c ∈ w, isBlank c = false) : words w = [w] := by
  rw [words_of_forall h, List.filter_cons_of_pos (by simpa using hne), List.filter_nil]

/-- The words before a blank come before the words after it. -/
theorem words_append_cons (t : Text) {c : Char} (hc : isBlank c = true) (rest : Text) :
    words (t ++ c :: rest) = words t ++ words rest := by
  rw [words, splitAt_append_cons t hc, List.filter_append]
  rfl

/-- The words of texts with spaces between them are the words of the texts. -/
theorem words_join (ts : List Text) : words (join [' '] ts) = ts.flatMap words := by
  induction ts with
  | nil => rfl
  | cons t ts ih =>
    cases ts with
    | nil => rw [join_singleton, List.flatMap_singleton]
    | cons u rest =>
      rw [join_cons_cons, List.append_assoc, List.singleton_append, words_append_cons t (by decide), ih]
      rfl

/-! ## Texts on one line -/

/-- Texts that are put together may be changed one by one, if each character is changed on its own. -/
theorem flatMap_join (f : Char → Text) (sep : Text) (ts : List Text) :
    (join sep ts).flatMap f = join (sep.flatMap f) (ts.map fun t => t.flatMap f) := by
  induction ts with
  | nil => rfl
  | cons t ts ih =>
    cases ts with
    | nil => rfl
    | cons u rest =>
      rw [join_cons_cons, List.flatMap_append, List.flatMap_append, ih]
      rfl

/-- Every character of texts put together is one of theirs or of the separator. -/
theorem mem_of_mem_join {sep : Text} {ts : List Text} {c : Char} (h : c ∈ join sep ts) : c ∈ sep ∨ ∃ t ∈ ts, c ∈ t := by
  induction ts with
  | nil => exact absurd h List.not_mem_nil
  | cons t ts ih =>
    cases ts with
    | nil => exact .inr ⟨t, List.mem_singleton_self t, h⟩
    | cons u rest =>
      rw [join_cons_cons] at h
      rcases List.mem_append.1 h with h | h
      · rcases List.mem_append.1 h with h | h
        · exact .inr ⟨t, List.mem_cons_self, h⟩
        · exact .inl h
      · rcases ih h with h | ⟨v, hv, h⟩
        · exact .inl h
        · exact .inr ⟨v, List.mem_cons_of_mem t hv, h⟩

/-- Texts stand in what they are put together to. -/
theorem infix_join {sep t : Text} {ts : List Text} (h : t ∈ ts) : t <:+: join sep ts := by
  induction ts with
  | nil => nomatch h
  | cons u rest ih =>
    cases rest with
    | nil =>
      obtain rfl := List.mem_singleton.1 h
      exact List.infix_rfl
    | cons v rest =>
      rw [join_cons_cons]
      rcases List.mem_cons.1 h with rfl | h
      · exact ⟨[], sep ++ join sep (v :: rest), by simp⟩
      · exact (ih h).trans (List.suffix_append _ _).isInfix

/-- The pieces of a text stand in it. -/
theorem infix_of_mem_splitAt {a : Char} {t piece : Text} (h : piece ∈ splitAt (· = a) t) : piece <:+: t := by
  have hjoin : piece <:+: join [a] (splitAt (· = a) t) := infix_join h
  rwa [join_splitAt] at hjoin

/-- A text on one line has no blanks but spaces in it. -/
theorem eq_space_of_mem_singleLine {t : Text} {c : Char} (h : c ∈ singleLine t) (hc : isBlank c = true) : c = ' ' := by
  rcases mem_of_mem_join h with h | ⟨w, hw, h⟩
  · exact List.mem_singleton.1 h
  · exact absurd hc (by rw [(of_mem_words hw).2 c h]; exact Bool.false_ne_true)

/-- The words of a text are still its words when they are on one line. -/
@[simp] theorem words_singleLine (t : Text) : words (singleLine t) = words t := by
  have hword : ∀ w ∈ words t, words w = [w] := fun w hw => words_eq_singleton (of_mem_words hw).1 (of_mem_words hw).2
  rw [singleLine, words_join, List.flatMap_congr hword]
  exact List.flatMap_singleton' (words t)

/-- A text without blanks is on one line as it stands. -/
theorem singleLine_of_forall {t : Text} (h : ∀ c ∈ t, isBlank c = false) : singleLine t = t := by
  rw [singleLine, words_of_forall h]
  cases t with
  | nil => rfl
  | cons c rest => rfl

/-- What replaces characters of a text has the other characters of the text and those of the substitute. -/
theorem mem_of_mem_replace {a : Char} {substitute t : Text} {c : Char} (h : c ∈ replace a substitute t) :
    c ∈ substitute ∨ c ∈ t := by
  obtain ⟨d, hd, hc⟩ := List.mem_flatMap.1 h
  by_cases hda : d = a
  · rw [if_pos hda] at hc
    exact .inl hc
  · rw [if_neg hda] at hc
    obtain rfl := List.mem_singleton.1 hc
    exact .inr hd

/-- Where a character does not occur, nothing is replaced. -/
theorem replace_of_not_mem {a : Char} {substitute t : Text} (h : a ∉ t) : replace a substitute t = t := by
  induction t with
  | nil => rfl
  | cons c t ih =>
    obtain ⟨hc, ht⟩ := not_or.1 (mt List.mem_cons.2 h)
    rw [replace, List.flatMap_cons, if_neg (Ne.symm hc), List.singleton_append]
    exact congrArg (c :: ·) (ih ht)

/-- Two characters can be replaced in either order, if neither occurs in what replaces the other one. -/
theorem replace_comm {a b : Char} {s u : Text} (hne : a ≠ b) (ha : a ∉ u) (hb : b ∉ s) (t : Text) :
    replace a s (replace b u t) = replace b u (replace a s t) := by
  have hu : (u.flatMap fun d => if d = a then s else [d]) = u := replace_of_not_mem ha
  have hs : (s.flatMap fun d => if d = b then u else [d]) = s := replace_of_not_mem hb
  simp only [replace, List.flatMap_assoc]
  refine List.flatMap_congr fun c _ => ?_
  by_cases hca : c = a
  · subst hca
    simp [hne, hs]
  · by_cases hcb : c = b
    · subst hcb
      simp [hca, hu]
    · simp [hca, hcb]

/-! ## What a text goes on with and what it contains -/

/-- A text up to the first character that does not belong to it. -/
theorem takeWhile_append_cons {t : Text} (h : ∀ c ∈ t, p c = true) {d : Char} (hd : p d = false) (rest : Text) :
    (t ++ d :: rest).takeWhile p = t := by
  rw [List.takeWhile_append_of_pos h, List.takeWhile_cons_of_neg (by simp [hd]), List.append_nil]

theorem dropWhile_append_cons {t : Text} (h : ∀ c ∈ t, p c = true) {d : Char} (hd : p d = false) (rest : Text) :
    (t ++ d :: rest).dropWhile p = d :: rest := by
  rw [List.dropWhile_append_of_pos h, List.dropWhile_cons_of_neg (by simp [hd])]

/-- What follows the beginning of a text is found. -/
theorem afterPrefix?_append (start t : Text) : afterPrefix? start (start ++ t) = some t := by
  induction start with
  | nil => rfl
  | cons c start ih => rw [List.cons_append, afterPrefix?, if_pos rfl, ih]

theorem afterPrefix?_eq_some_iff {start t rest : Text} : afterPrefix? start t = some rest ↔ t = start ++ rest := by
  constructor
  · intro h
    induction start generalizing t with
    | nil => exact Option.some.inj h
    | cons c start ih =>
      cases t with
      | nil => cases h
      | cons d t =>
        rw [afterPrefix?] at h
        split at h
        · next heq => rw [heq, ih h, List.cons_append]
        · cases h
  · rintro rfl
    exact afterPrefix?_append start rest

theorem afterPrefix?_eq_none_iff {start t : Text} : afterPrefix? start t = none ↔ ¬start <+: t := by
  rw [Option.eq_none_iff_forall_ne_some]
  refine ⟨fun h ⟨rest, hrest⟩ => h rest (afterPrefix?_eq_some_iff.2 hrest.symm), fun h rest hrest => ?_⟩
  exact h ⟨rest, (afterPrefix?_eq_some_iff.1 hrest).symm⟩

/-- What is read with a character before it is the character and what is read. -/
theorem map_cons_eq_some_iff {found : Option (Text × Text)} {c : Char} {t rest : Text} :
    (found.map fun r => (c :: r.1, r.2)) = some (t, rest) ↔ ∃ u, found = some (u, rest) ∧ t = c :: u := by
  constructor
  · intro h
    obtain ⟨⟨u, rest'⟩, hfound, heq⟩ := Option.map_eq_some_iff.1 h
    obtain ⟨rfl, rfl⟩ := Prod.mk.inj heq
    exact ⟨u, hfound, rfl⟩
  · rintro ⟨u, rfl, rfl⟩
    rfl

/-- A text that begins with another one contains it. -/
theorem contains_of_isPrefixOf {part t : Text} (h : part.isPrefixOf t = true) : contains part t = true := by
  cases t with
  | nil =>
    cases part with
    | nil => rfl
    | cons c part => exact absurd h Bool.false_ne_true
  | cons c rest => rw [contains, h, Bool.true_or]

/-- A text contains its parts. -/
theorem contains_append (before part after : Text) : contains part (before ++ part ++ after) = true := by
  induction before with
  | nil =>
    rw [List.nil_append]
    exact contains_of_isPrefixOf (List.isPrefixOf_iff_prefix.2 (List.prefix_append part after))
  | cons c before ih =>
    have hrest : contains part (before ++ part ++ after) = true := ih
    rw [List.cons_append, List.cons_append, contains, hrest, Bool.or_true]

/-- What a text contains stands in it as consecutive characters. -/
theorem contains_eq_true_iff {part t : Text} : contains part t = true ↔ part <:+: t := by
  induction t with
  | nil => rw [contains, List.isEmpty_iff, List.infix_nil]
  | cons c rest ih => rw [contains, Bool.or_eq_true, List.isPrefixOf_iff_prefix, ih, List.infix_cons_iff]

/-- Two characters in a row stand in one of two texts or where these meet. -/
theorem pair_infix_append_iff {a b : Char} {t u : Text} :
    [a, b] <:+: t ++ u ↔ [a, b] <:+: t ∨ [a, b] <:+: u ∨ t.getLast? = some a ∧ u.head? = some b := by
  rw [List.infix_append_iff_ne_nil, ← List.singleton_suffix_iff_getLast?_eq_some, ← List.singleton_prefix_iff_head?_eq_some]
  refine or_congr_right (or_congr_right ⟨?_, fun ⟨ha, hb⟩ => ⟨[a], [b], by simp, by simp, rfl, ha, hb⟩⟩)
  rintro ⟨first, second, hfirst, hsecond, hpair, ha, hb⟩
  obtain ⟨c, rest, rfl⟩ := List.exists_cons_of_ne_nil hfirst
  obtain ⟨rfl, hrest⟩ := List.cons.inj hpair
  rcases List.append_eq_singleton_iff.1 hrest.symm with ⟨rfl, rfl⟩ | ⟨-, rfl⟩
  · exact ⟨ha, hb⟩
  · exact absurd rfl hsecond

/-- Without some characters at its end, a text is a beginning of itself. -/
theorem dropEndWhile_prefix (p : Char → Bool) (t : Text) : dropEndWhile p t <+: t := by
  rw [dropEndWhile, ← List.reverse_suffix, List.reverse_reverse]
  exact List.dropWhile_suffix p

/-- What is left then does not end with such a character. -/
theorem eq_false_of_getLast?_dropEndWhile {t : Text} {c : Char} (h : (dropEndWhile p t).getLast? = some c) : p c = false := by
  rw [dropEndWhile, List.getLast?_reverse] at h
  have hhead := List.head?_dropWhile_not p t.reverse
  rwa [h] at hhead

/-- Of blanks alone, nothing is left without those at the start and the end. -/
theorem trim_of_forall {t : Text} (h : ∀ c ∈ t, isBlank c = true) : trim t = [] := by
  rw [trim, ← List.append_nil t, List.dropWhile_append_of_pos h]
  rfl

/-- A text without the blanks at its start and end has none there. -/
theorem trim_trim (t : Text) : trim (trim t) = trim t := by
  have hend : ∀ u, dropEndWhile isBlank (dropEndWhile isBlank u) = dropEndWhile isBlank u := by
    intro u
    rw [dropEndWhile, dropEndWhile, List.reverse_reverse, List.dropWhile_idempotent]
  have hstart : (trim t).dropWhile isBlank = trim t := by
    have hprefix : trim t <+: t.dropWhile isBlank := dropEndWhile_prefix _ _
    cases htrim : trim t with
    | nil => rfl
    | cons c rest =>
      have hhead : (t.dropWhile isBlank).head? = some c := by
        obtain ⟨after, hafter⟩ := hprefix
        rw [← hafter, htrim]
        rfl
      have hc := List.head?_dropWhile_not isBlank t
      rw [hhead] at hc
      exact List.dropWhile_cons_of_neg (by simpa using hc)
  rw [trim, hstart]
  exact hend _

theorem identifier_append (t u : Text) : identifier (t ++ u) = identifier t ++ identifier u := List.map_append

end Text

end DevWorkflow
