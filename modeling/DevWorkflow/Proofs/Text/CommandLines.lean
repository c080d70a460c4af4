import DevWorkflow.Text.ShellWords
import Mathlib.Data.List.Basic

/-!
# What command lines are made of

The reader of command lines is given by its states; here the lines are given by their parts. A word is spelled by plain characters,
backslashes and quoted texts (`ShellWords.IsSpelling`), a line has words with blanks and comments between them, and something may be
left open at its end (`ShellWords.Reads`). Every line is made in this way and in no other, and it is read as it is made
(`ShellWords.split_eq_iff_reads`).
-/

namespace DevWorkflow

namespace ShellWords

/-! ## Parts of a line -/

/-- What stands between double quotes, as it is written and as it is read. -/
inductive IsQuoted : Text → Text → Prop where
  | nil : IsQuoted [] []
  | plain {c : Char} {t read : Text} (hc : c ≠ '"' ∧ c ≠ '\\') (h : IsQuoted t read) : IsQuoted (c :: t) (c :: read)
  /-- A backslash keeps a special character. -/
  | kept {c : Char} {t read : Text} (hc : isDoubleQuoteEscape c = true) (h : IsQuoted t read) :
      IsQuoted ('\\' :: c :: t) (c :: read)
  /-- A backslash joins two lines. -/
  | joined {t read : Text} (h : IsQuoted t read) : IsQuoted ('\\' :: '\n' :: t) read
  /-- A backslash stands for itself before any other character. -/
  | literal {c : Char} {t read : Text} (hc : isDoubleQuoteEscape c = false ∧ c ≠ '\n') (h : IsQuoted t read) :
      IsQuoted ('\\' :: c :: t) ('\\' :: c :: read)

/-- Whether a character stands for itself in a word. -/
def IsPlain (c : Char) : Prop := isSeparator c = false ∧ c ≠ '"' ∧ c ≠ '\'' ∧ c ≠ '\\'

/-- What stands in a word, as it is written and as it is read; no quotes are open before it or after it. -/
inductive IsSpelling : Text → Text → Prop where
  | nil : IsSpelling [] []
  | plain {c : Char} {t read : Text} (hc : IsPlain c) (h : IsSpelling t read) : IsSpelling (c :: t) (c :: read)
  /-- A backslash keeps a character. -/
  | kept {c : Char} {t read : Text} (hc : c ≠ '\n') (h : IsSpelling t read) : IsSpelling ('\\' :: c :: t) (c :: read)
  /-- A backslash joins two lines. -/
  | joined {t read : Text} (h : IsSpelling t read) : IsSpelling ('\\' :: '\n' :: t) read
  | single {quoted t read : Text} (hquoted : '\'' ∉ quoted) (h : IsSpelling t read) :
      IsSpelling ('\'' :: (quoted ++ '\'' :: t)) (quoted ++ read)
  | double {quoted inside t read : Text} (hquoted : IsQuoted quoted inside) (h : IsSpelling t read) :
      IsSpelling ('"' :: (quoted ++ '"' :: t)) (inside ++ read)

/-- What stands at the end of a line and is left open there: a backslash with nothing to keep, or quotes. -/
inductive IsLeftOpen : Text → Prop where
  | backslash : IsLeftOpen ['\\']
  | single {quoted : Text} (hquoted : '\'' ∉ quoted) : IsLeftOpen ('\'' :: quoted)
  | double {quoted inside : Text} (hquoted : IsQuoted quoted inside) : IsLeftOpen ('"' :: quoted)
  | doubleBackslash {quoted inside : Text} (hquoted : IsQuoted quoted inside) : IsLeftOpen ('"' :: (quoted ++ ['\\']))

/-- Whether a spelling can begin a word: there is something, and it begins no comment. -/
def BeginsWord (t : Text) : Prop := t ≠ [] ∧ t.head? ≠ some '#'

/-- The words of a line, or `none` if something is left open at its end. -/
inductive Reads : Text → Option (List Text) → Prop where
  | nil : Reads [] (some [])
  | blank {c : Char} {rest : Text} {words : Option (List Text)} (hc : isSeparator c = true) (h : Reads rest words) :
      Reads (c :: rest) words
  | comment {t rest : Text} {words : Option (List Text)} (ht : '\n' ∉ t) (h : Reads rest words) :
      Reads ('#' :: (t ++ '\n' :: rest)) words
  | lastComment {t : Text} (ht : '\n' ∉ t) : Reads ('#' :: t) (some [])
  | word {t read rest : Text} {c : Char} {words : Option (List Text)} (hbegins : BeginsWord t) (ht : IsSpelling t read)
      (hc : isSeparator c = true) (h : Reads rest words) : Reads (t ++ c :: rest) (words.map (read :: ·))
  | lastWord {t read : Text} (hbegins : BeginsWord t) (ht : IsSpelling t read) : Reads t (some [read])
  | leftOpen {t read rest : Text} (hbegins : BeginsWord (t ++ rest)) (ht : IsSpelling t read) (hrest : IsLeftOpen rest) :
      Reads (t ++ rest) none

/-! ## Lines are read as they are made -/

/-- Inside double quotes the reader goes on with what is read. -/
theorem IsQuoted.splitFrom_double {t read : Text} (h : IsQuoted t read) (word rest : Text) :
    splitFrom (.double word) (t ++ rest) = splitFrom (.double (read.reverse ++ word)) rest := by
  have hbackslash : ∀ word rest, splitFrom (.double word) ('\\' :: rest) = splitFrom (.doubleEscaped word) rest := fun _ _ => rfl
  induction h generalizing word with
  | nil => rfl
  | plain hc _ ih =>
    rw [List.cons_append, splitFrom, if_neg hc.1, if_neg hc.2, ih]
    simp
  | kept hc _ ih =>
    rw [List.cons_append, List.cons_append, hbackslash, splitFrom, if_pos hc, ih]
    simp
  | joined _ ih => exact ih word
  | literal hc _ ih =>
    rw [List.cons_append, List.cons_append, hbackslash, splitFrom, hc.1, if_neg Bool.false_ne_true, if_neg hc.2, ih]
    simp

/-- Inside single quotes the reader goes on with every character but the quote. -/
theorem splitFrom_single_of_not_mem {t : Text} (h : '\'' ∉ t) (word rest : Text) :
    splitFrom (.single word) (t ++ rest) = splitFrom (.single (t.reverse ++ word)) rest := by
  induction t generalizing word with
  | nil => rfl
  | cons c t ih =>
    obtain ⟨hc, ht⟩ := not_or.1 (List.mem_cons.not.1 h)
    rw [List.cons_append, splitFrom, if_neg (Ne.symm hc), ih ht]
    simp

/-- In a word the reader goes on with what is read. -/
theorem IsSpelling.splitFrom_bare {t read : Text} (h : IsSpelling t read) (word rest : Text) :
    splitFrom (.bare word) (t ++ rest) = splitFrom (.bare (read.reverse ++ word)) rest := by
  induction h generalizing word with
  | nil => rfl
  | plain hc _ ih =>
    obtain ⟨hseparator, hdouble, hsingle, hbackslash⟩ := hc
    rw [List.cons_append, splitFrom, hseparator, if_neg Bool.false_ne_true, Place.inWord, if_neg hdouble, if_neg hsingle,
      if_neg hbackslash, ih]
    simp
  | @kept c t _ hc _ ih =>
    have hstep : splitFrom (.bare word) ('\\' :: c :: t ++ rest) =
        splitFrom (.bare (if c = '\n' then word else c :: word)) (t ++ rest) := rfl
    rw [hstep, if_neg hc, ih]
    simp
  | joined _ ih => exact ih word
  | @single quoted t _ hquoted _ ih =>
    have hopen : splitFrom (.bare word) ('\'' :: (quoted ++ '\'' :: t) ++ rest) =
        splitFrom (.single word) (quoted ++ '\'' :: (t ++ rest)) := by
      rw [List.cons_append, List.append_assoc]
      rfl
    rw [hopen, splitFrom_single_of_not_mem hquoted, splitFrom, if_pos rfl, ih]
    simp
  | @double quoted _ t _ hquoted _ ih =>
    have hopen : splitFrom (.bare word) ('"' :: (quoted ++ '"' :: t) ++ rest) =
        splitFrom (.double word) (quoted ++ '"' :: (t ++ rest)) := by
      rw [List.cons_append, List.append_assoc]
      rfl
    rw [hopen, hquoted.splitFrom_double, splitFrom, if_pos rfl, ih]
    simp

/-- Where something is left open, there are no words. -/
theorem IsLeftOpen.splitFrom_bare {t : Text} (h : IsLeftOpen t) (word : Text) : splitFrom (.bare word) t = none := by
  cases h with
  | backslash => rfl
  | @single quoted hquoted =>
    have hopen : splitFrom (.bare word) ('\'' :: quoted) = splitFrom (.single word) (quoted ++ []) := by
      rw [List.append_nil]
      rfl
    rw [hopen, splitFrom_single_of_not_mem hquoted, splitFrom]
  | @double quoted _ hquoted =>
    have hopen : splitFrom (.bare word) ('"' :: quoted) = splitFrom (.double word) (quoted ++ []) := by
      rw [List.append_nil]
      rfl
    rw [hopen, hquoted.splitFrom_double, splitFrom]
  | @doubleBackslash quoted _ hquoted =>
    have hopen : splitFrom (.bare word) ('"' :: (quoted ++ ['\\'])) = splitFrom (.double word) (quoted ++ ['\\']) := rfl
    rw [hopen, hquoted.splitFrom_double]
    rfl

/-- No blank begins a spelling. -/
theorem IsSpelling.isSeparator_head {t read : Text} (h : IsSpelling t read) {c : Char} (hc : t.head? = some c) :
    isSeparator c = false := by
  cases h with
  | nil => nomatch hc
  | plain hplain _ =>
    obtain rfl := Option.some.inj hc
    exact hplain.1
  | kept _ _ | joined _ | single _ _ | double _ _ =>
    obtain rfl := Option.some.inj hc
    rfl

/-- No blank begins what is left open. -/
theorem IsLeftOpen.isSeparator_head {t : Text} (h : IsLeftOpen t) {c : Char} (hc : t.head? = some c) : isSeparator c = false := by
  cases h <;> obtain rfl := Option.some.inj hc <;> rfl

/-- Between words the reader is at once in the word that begins. -/
theorem BeginsWord.splitFrom_between {t : Text} (h : BeginsWord t) (hhead : ∀ c, t.head? = some c → isSeparator c = false) :
    splitFrom .between t = splitFrom (.bare []) t := by
  obtain ⟨c, rest, rfl⟩ := List.exists_cons_of_ne_nil h.1
  have hc : c ≠ '#' := fun he => h.2 (congrArg some he)
  rw [splitFrom, splitFrom, hhead c rfl, if_neg Bool.false_ne_true, if_neg Bool.false_ne_true, if_neg hc]

/-- A comment goes on to the end of the line. -/
theorem splitFrom_comment {t : Text} (h : '\n' ∉ t) (rest : Text) : splitFrom .comment (t ++ rest) = splitFrom .comment rest := by
  induction t with
  | nil => rfl
  | cons c t ih =>
    obtain ⟨hc, ht⟩ := not_or.1 (List.mem_cons.not.1 h)
    rw [List.cons_append, splitFrom, if_neg (Ne.symm hc), ih ht]

/-- A line is read as it is made. -/
theorem Reads.split_eq {line : Text} {words : Option (List Text)} (h : Reads line words) : split line = words := by
  induction h with
  | nil => rfl
  | blank hc _ ih =>
    rw [split, splitFrom, if_pos hc]
    exact ih
  | @comment t rest _ ht _ ih =>
    have hopen : split ('#' :: (t ++ '\n' :: rest)) = splitFrom .comment (t ++ '\n' :: rest) := rfl
    rw [hopen, splitFrom_comment ht, splitFrom, if_pos rfl]
    exact ih
  | @lastComment t ht =>
    have hopen : split ('#' :: t) = splitFrom .comment (t ++ []) := by
      rw [List.append_nil]
      rfl
    rw [hopen, splitFrom_comment ht, splitFrom]
  | @word t read rest c words hbegins ht hc _ ih =>
    have hhead : (t ++ c :: rest).head? = t.head? := List.head?_append_of_ne_nil t hbegins.1
    have hbegins' : BeginsWord (t ++ c :: rest) := ⟨by simp, hhead ▸ hbegins.2⟩
    rw [split, hbegins'.splitFrom_between fun d hd => ht.isSeparator_head (hhead ▸ hd), ht.splitFrom_bare, List.append_nil,
      splitFrom, if_pos hc, List.reverse_reverse]
    exact congrArg _ ih
  | @lastWord t read hbegins ht =>
    have hread := ht.splitFrom_bare [] []
    rw [List.append_nil, List.append_nil] at hread
    rw [split, hbegins.splitFrom_between fun d hd => ht.isSeparator_head hd, hread, splitFrom, List.reverse_reverse]
  | @leftOpen t read rest hbegins ht hrest =>
    have hhead : ∀ d, (t ++ rest).head? = some d → isSeparator d = false := by
      intro d hd
      cases t with
      | nil => exact hrest.isSeparator_head hd
      | cons e t => exact ht.isSeparator_head hd
    rw [split, hbegins.splitFrom_between hhead, ht.splitFrom_bare, hrest.splitFrom_bare]

/-! ## Every line is made in this way -/

/-- What holds of a text if it holds of all shorter ones holds of every text. -/
theorem induction_shorter {motive : Text → Prop} (step : ∀ t, (∀ u, u.length < t.length → motive u) → motive t) (t : Text) :
    motive t :=
  (measure List.length).wf.induction t step

/-- Whether a text behind a double quote has one that ends the quoted text, or leaves the quotes open. -/
def EndsQuoted (t : Text) : Prop :=
  (∃ quoted inside rest, IsQuoted quoted inside ∧ t = quoted ++ '"' :: rest) ∨ IsLeftOpen ('"' :: t)

theorem EndsQuoted.prepend {t : Text} (h : EndsQuoted t) (start read : Text)
    (hstart : ∀ {t inside}, IsQuoted t inside → IsQuoted (start ++ t) (read ++ inside)) : EndsQuoted (start ++ t) := by
  rcases h with ⟨quoted, inside, rest, hquoted, rfl⟩ | hopen
  · exact .inl ⟨start ++ quoted, read ++ inside, rest, hstart hquoted, (List.append_assoc ..).symm⟩
  · cases hopen with
    | double hquoted => exact .inr (.double (hstart hquoted))
    | @doubleBackslash quoted inside hquoted =>
      have hmore := IsLeftOpen.doubleBackslash (hstart hquoted)
      rw [List.append_assoc] at hmore
      exact .inr hmore

/-- There is nothing else that a text behind a double quote can do. -/
theorem endsQuoted (t : Text) : EndsQuoted t := by
  match t with
  | [] => exact .inr (.double .nil)
  | c :: t =>
    by_cases hquote : c = '"'
    · subst hquote
      exact .inl ⟨[], [], t, .nil, rfl⟩
    by_cases hbackslash : c = '\\'
    · subst hbackslash
      match t with
      | [] => exact .inr (.doubleBackslash .nil)
      | d :: t =>
        have ht : EndsQuoted t := endsQuoted t
        by_cases hline : d = '\n'
        · subst hline
          exact ht.prepend ['\\', '\n'] [] .joined
        cases hkept : isDoubleQuoteEscape d with
        | true => exact ht.prepend ['\\', d] [d] (.kept hkept)
        | false => exact ht.prepend ['\\', d] ['\\', d] (.literal ⟨hkept, hline⟩)
    · exact (endsQuoted t).prepend [c] [c] (.plain ⟨hquote, hbackslash⟩)

/-- Whether a text begins with a spelling that goes on to a blank, to the end of the line or to what is left open there. -/
def HasWord (t : Text) : Prop :=
  ∃ start read rest, IsSpelling start read ∧ t = start ++ rest ∧
    (rest = [] ∨ (∃ c more, isSeparator c = true ∧ rest = c :: more) ∨ IsLeftOpen rest)

theorem HasWord.prepend {t : Text} (h : HasWord t) (start read : Text)
    (hstart : ∀ {t read'}, IsSpelling t read' → IsSpelling (start ++ t) (read ++ read')) : HasWord (start ++ t) := by
  obtain ⟨start', read', rest, hspelling, rfl, hrest⟩ := h
  exact ⟨start ++ start', read ++ read', rest, hstart hspelling, (List.append_assoc ..).symm, hrest⟩

/-- Every text begins with such a spelling, which may be empty. -/
theorem hasWord (t : Text) : HasWord t := by
  -- Quoted texts are passed over as a whole, so what follows is shorter by more than one character.
  induction t using induction_shorter with
  | step t ih =>
    cases t with
    | nil => exact ⟨[], [], [], .nil, rfl, .inl rfl⟩
    | cons c t =>
      by_cases hseparator : isSeparator c = true
      · exact ⟨[], [], c :: t, .nil, rfl, .inr (.inl ⟨c, t, hseparator, rfl⟩)⟩
      by_cases hbackslash : c = '\\'
      · subst hbackslash
        cases t with
        | nil => exact ⟨[], [], _, .nil, rfl, .inr (.inr .backslash)⟩
        | cons d t =>
          have ht : HasWord t := ih t (by simp only [List.length_cons]; omega)
          by_cases hline : d = '\n'
          · subst hline
            exact ht.prepend ['\\', '\n'] [] .joined
          · exact ht.prepend ['\\', d] [d] (.kept hline)
      by_cases hsingle : c = '\''
      · subst hsingle
        by_cases hends : '\'' ∈ t
        · obtain ⟨quoted, rest, rfl, hquoted⟩ := List.eq_append_cons_of_mem hends
          have hrest : HasWord rest := ih rest (by simp; omega)
          have hword := hrest.prepend ('\'' :: (quoted ++ ['\''])) quoted fun h => by simpa using IsSpelling.single hquoted h
          simpa using hword
        · exact ⟨[], [], _, .nil, rfl, .inr (.inr (.single hends))⟩
      by_cases hdouble : c = '"'
      · subst hdouble
        rcases endsQuoted t with ⟨quoted, inside, rest, hquoted, rfl⟩ | hopen
        · have hrest : HasWord rest := ih rest (by simp; omega)
          have hword := hrest.prepend ('"' :: (quoted ++ ['"'])) inside fun h => by simpa using IsSpelling.double hquoted h
          simpa using hword
        · exact ⟨[], [], _, .nil, rfl, .inr (.inr hopen)⟩
      · have hplain : IsPlain c := ⟨Bool.eq_false_iff.2 hseparator, hdouble, hsingle, hbackslash⟩
        exact (ih t (by simp)).prepend [c] [c] (.plain hplain)

/-- Every line is made of these parts. -/
theorem exists_reads (line : Text) : ∃ words, Reads line words := by
  induction line using induction_shorter with
  | step line ih =>
    cases line with
    | nil => exact ⟨_, .nil⟩
    | cons c rest =>
      by_cases hseparator : isSeparator c = true
      · obtain ⟨words, hwords⟩ := ih rest (by simp)
        exact ⟨words, .blank hseparator hwords⟩
      by_cases hcomment : c = '#'
      · subst hcomment
        by_cases hends : '\n' ∈ rest
        · obtain ⟨t, rest, rfl, ht⟩ := List.eq_append_cons_of_mem hends
          obtain ⟨words, hwords⟩ := ih rest (by simp; omega)
          exact ⟨words, .comment ht hwords⟩
        · exact ⟨_, .lastComment hends⟩
      -- A word begins here; after it the line ends, goes on behind a blank, or leaves something open.
      have hbegins : BeginsWord (c :: rest) := ⟨List.cons_ne_nil c rest, by simpa using hcomment⟩
      obtain ⟨start, read, tail, hstart, hline, htail⟩ := hasWord (c :: rest)
      rcases htail with rfl | ⟨d, more, hd, rfl⟩ | hopen
      · rw [List.append_nil] at hline
        rw [← hline] at hstart
        exact ⟨_, .lastWord hbegins hstart⟩
      · obtain ⟨words, hwords⟩ := ih more (by rw [hline]; simp; omega)
        cases start with
        | nil =>
          obtain ⟨rfl, -⟩ := List.cons.inj hline
          exact absurd hd hseparator
        | cons e start =>
          obtain ⟨rfl, rfl⟩ := List.cons.inj hline
          have hword : BeginsWord (c :: start) := ⟨List.cons_ne_nil c start, by simpa using hcomment⟩
          exact ⟨_, .word hword hstart hd hwords⟩
      · rw [hline] at hbegins ⊢
        exact ⟨none, .leftOpen hbegins hstart hopen⟩

/-- The reader gives the words of a line just as the line is made. -/
theorem split_eq_iff_reads {line : Text} {words : Option (List Text)} : split line = words ↔ Reads line words := by
  constructor
  · rintro rfl
    obtain ⟨words, hwords⟩ := exists_reads line
    rwa [hwords.split_eq]
  · exact Reads.split_eq

/-- A line without words that has more than blanks has a comment. -/
theorem Reads.comment_of_nil {line : Text} (h : Reads line (some [])) (hline : ∃ c ∈ line, isSeparator c = false) : '#' ∈ line := by
  generalize hwords : some [] = words at h
  induction h with
  | nil => nomatch hline
  | blank hc _ ih =>
    obtain ⟨d, hd, hdc⟩ := hline
    rcases List.mem_cons.1 hd with rfl | hd
    · exact absurd (hdc.symm.trans hc) Bool.false_ne_true
    · exact List.mem_cons_of_mem _ (ih ⟨d, hd, hdc⟩ hwords)
  | comment _ _ _ | lastComment _ => exact List.mem_cons_self
  | word _ _ _ _ _ => simp [eq_comm] at hwords
  | lastWord _ _ => simp at hwords
  | leftOpen _ _ _ => nomatch hwords

end ShellWords

end DevWorkflow
