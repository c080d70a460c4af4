import DevWorkflow.Proofs.Completion.Choices

/-!
# Word lists in the bash script

The words that the dispatcher offers are written into one list between double quotes. Inside double quotes a shell goes on expanding,
so a reader of the list has to say more than where it ends: `Bash.readQuoted?` gives nothing where a dollar sign or a backquote begins
an expansion. No such thing happens in a list, whatever the words are, and what is read has the words of the offered texts in it
(`Bash.offer_read`). What `compgen` goes on to do with the word that it is given is another matter.
-/

namespace DevWorkflow

namespace Bash

open ShellWords

/-! ## What a shell makes of double quotes -/

/-- Reads on inside double quotes; gives what was quoted and what follows the closing quote. A backslash keeps the special characters
and joins two lines, and stands for itself before any other character. Nothing is given if an expansion begins, which a dollar sign
and a backquote do unless they are kept, or if the quotes are left open. -/
def readQuoted? : Text → Option (Text × Text)
  | [] => none
  | '"' :: rest => some ([], rest)
  | '\\' :: c :: rest =>
    if c = '\n' then readQuoted? rest
    else (readQuoted? rest).map fun r => (if isSpecial c then c :: r.1 else '\\' :: c :: r.1, r.2)
  | c :: rest => if c = '$' || c = '\x60' then none else (readQuoted? rest).map fun r => (c :: r.1, r.2)

theorem readQuoted?_kept {c : Char} (hc : isSpecial c = true) (t : Text) :
    readQuoted? ('\\' :: c :: t) = (readQuoted? t).map fun r => (c :: r.1, r.2) := by
  have hline : c ≠ '\n' := by
    rintro rfl
    exact absurd hc (by decide)
  rw [readQuoted?, if_neg hline]
  simp only [hc, if_true]

theorem readQuoted?_plain {c : Char} (hc : isSpecial c = false) (t : Text) :
    readQuoted? (c :: t) = (readQuoted? t).map fun r => (c :: r.1, r.2) := by
  have hne : c ≠ '\\' ∧ c ≠ '"' ∧ c ≠ '$' ∧ c ≠ '\x60' := by
    refine ⟨?_, ?_, ?_, ?_⟩ <;> rintro rfl <;> exact absurd hc (by decide)
  obtain ⟨hbackslash, hquote, hdollar, hbackquote⟩ := hne
  rw [readQuoted?]
  · simp [hdollar, hbackquote]
  · exact hquote
  · rintro d rest rfl
    exact absurd rfl hbackslash

/-- A text that is written for use inside double quotes is read as it is, up to the quote at the end. -/
theorem readQuoted?_escape (t rest : Text) : readQuoted? (escape t ++ '"' :: rest) = some (t, rest) := by
  induction t with
  | nil => rfl
  | cons c t ih =>
    have hcons : escape (c :: t) = (if isSpecial c then ['\\', c] else [c]) ++ escape t := rfl
    rw [hcons, List.append_assoc]
    cases hc : isSpecial c with
    | true =>
      rw [if_pos rfl, List.cons_append, List.singleton_append, readQuoted?_kept hc, ih]
      rfl
    | false =>
      rw [if_neg Bool.false_ne_true, List.singleton_append, readQuoted?_plain hc, ih]
      rfl

example : readQuoted? "a $HOME\" b".toList = none := by decide

example : readQuoted? (escape "a $HOME".toList ++ "\" b".toList) = some ("a $HOME".toList, " b".toList) := by decide

/-! ## What a shell makes of the line -/

theorem isDoubleQuoteEscape_eq_isSpecial (c : Char) : isDoubleQuoteEscape c = isSpecial c := by
  rw [Bool.eq_iff_iff]
  simp only [isDoubleQuoteEscape, isSpecial, Bool.or_eq_true, decide_eq_true_eq]
  tauto

/-- Where no expansion begins, the reader of command lines goes on with what is read. -/
theorem splitFrom_of_readQuoted? {t read rest : Text} (h : readQuoted? t = some (read, rest)) (word : Text) :
    splitFrom (.double word) t = splitFrom (.bare (read.reverse ++ word)) rest := by
  induction t using readQuoted?.induct generalizing read word with
  | case1 => cases h
  | case2 t =>
    rw [readQuoted?, Option.some.injEq, Prod.mk.injEq] at h
    obtain ⟨rfl, rfl⟩ := h
    rw [splitFrom, if_pos rfl]
    rfl
  | case3 t ih =>
    rw [readQuoted?, if_pos rfl] at h
    exact ih h word
  | case4 c t hline ih =>
    rw [readQuoted?, if_neg hline] at h
    obtain ⟨⟨read', rest'⟩, hread, heq⟩ := Option.map_eq_some_iff.1 h
    obtain ⟨rfl, rfl⟩ := Prod.mk.inj heq
    have hbackslash : splitFrom (.double word) ('\\' :: c :: t) = splitFrom (.doubleEscaped word) (c :: t) := rfl
    rw [hbackslash, splitFrom, isDoubleQuoteEscape_eq_isSpecial, if_neg hline, ih hread]
    cases isSpecial c <;> simp
  | case5 c t hquote hbackslash hexpands =>
    rw [readQuoted?, if_pos hexpands] at h
    · cases h
    · exact hquote
    · exact hbackslash
  | case6 c t hquote hbackslash hplain ih =>
    rw [readQuoted?, if_neg hplain] at h
    · obtain ⟨read', hread, rfl⟩ := Text.map_cons_eq_some_iff.1 h
      have hne : c ≠ '\\' := by
        rintro rfl
        cases t with
        | nil => cases hread
        | cons d t => exact hbackslash d t rfl rfl
      rw [splitFrom, if_neg hquote, if_neg hne, ih hread]
      simp
    · exact hquote
    · exact hbackslash

/-- A text between double quotes. -/
def inQuotes (t : Text) : Text := "\"".toList ++ t ++ "\"".toList

/-- What is read between double quotes without an expansion is one word, alone or before a blank and whatever follows there. -/
theorem split_of_readQuoted? {t read : Text} (h : ∀ rest, readQuoted? (t ++ '"' :: rest) = some (read, rest)) :
    split (inQuotes t) = some [read] ∧ ∀ rest, split (inQuotes t ++ ' ' :: rest) = (split rest).map (read :: ·) := by
  have hopen : ∀ rest, split (inQuotes t ++ rest) = splitFrom (.bare read.reverse) rest := by
    intro rest
    have hstart : split (inQuotes t ++ rest) = splitFrom (.double []) (t ++ '"' :: rest) := by
      simp only [inQuotes, List.append_assoc]
      rfl
    rw [hstart, splitFrom_of_readQuoted? (h rest), List.append_nil]
  constructor
  · have halone := hopen []
    rwa [List.append_nil, splitFrom, List.reverse_reverse] at halone
  · intro rest
    rw [hopen, splitFrom, if_pos (by decide), List.reverse_reverse]
    rfl

/-- The line that offers words has one list between double quotes in it. A shell takes the list for one word, whatever follows behind
the blank, and nothing in the list ends the quotes or begins an expansion. Between the blanks of that word, be they any blanks or those
at which a shell divides a text, stand the words of the offered texts, one text after another; these are the offered texts just if each
of them is one word. -/
theorem offer_read (depth : Nat) (words : List Text) :
    (Command.offer words).lines depth =
      [line depth ("COMPREPLY=( $(compgen -W ".toList ++ inQuotes (wordList words) ++ " -- \"$\x7bcur\x7d\") )".toList)] ∧
    ∃ content,
      split (inQuotes (wordList words)) = some [content] ∧
      (∀ rest, split (inQuotes (wordList words) ++ ' ' :: rest) = (split rest).map (content :: ·)) ∧
      (∀ rest, readQuoted? (wordList words ++ '"' :: rest) = some (content, rest)) ∧
      Text.words content = words.flatMap Text.words ∧ fields content = words.flatMap Text.words ∧
      (Text.words content = words ↔ ∀ w ∈ words, w ≠ [] ∧ ∀ c ∈ w, Text.isBlank c = false) := by
  have hread : ∀ rest, readQuoted? (wordList words ++ '"' :: rest) =
      some (Text.join [' '] (words.map Text.singleLine), rest) := by
    intro rest
    rw [wordList_eq, readQuoted?_escape]
  have hwords : Text.words (Text.join [' '] (words.map Text.singleLine)) = words.flatMap Text.words := by
    rw [Text.words_join, List.flatMap_map]
    exact List.flatMap_congr fun w _ => Text.words_singleLine w
  obtain ⟨hone, hbefore⟩ := split_of_readQuoted? hread
  refine ⟨?_, _, hone, hbefore, hread, hwords, fields_join_singleLine words, ?_⟩
  · rw [Command.lines]
    unfold inQuotes
    simp
  · rw [hwords]
    exact Text.flatMap_words_eq_self_iff words

end Bash

end DevWorkflow
