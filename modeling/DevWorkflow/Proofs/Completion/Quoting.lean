import DevWorkflow.Completion.Script
import DevWorkflow.Proofs.Text.CommandLines
import DevWorkflow.Proofs.Text.Splitting

/-!
# Quoted texts

A shell undoes what was done to a text for it to stand between quotes, whatever characters are in the text. Between single quotes a
POSIX shell takes every character for itself (`ShellWords.splitFrom_single`), between double quotes a backslash keeps the
characters that are special there (`ShellWords.isQuoted_escape`), and between single quotes fish knows two escapes
(`Fish.readQuoted?_escape`).
-/

namespace DevWorkflow

/-! ## Single quotes -/

namespace Zsh

/-- A text for use inside single quotes, which a quote can only leave and enter again. -/
def escape (t : Text) : Text := Text.replace '\'' "'\\''".toList t

theorem quote_eq (t : Text) : quote t = escape (Text.singleLine t) := rfl

theorem escape_cons (c : Char) (t : Text) : escape (c :: t) = (if c = '\'' then "'\\''".toList else [c]) ++ escape t := rfl

theorem escape_append (t u : Text) : escape (t ++ u) = escape t ++ escape u := List.flatMap_append

end Zsh

namespace ShellWords

/-- Inside single quotes the characters of a text are read as they are, up to the quote at the end or further on. -/
theorem splitFrom_single (t word rest : Text) :
    splitFrom (.single word) (Zsh.escape t ++ rest) = splitFrom (.single (t.reverse ++ word)) rest := by
  induction t generalizing word with
  | nil => rfl
  | cons c t ih =>
    have hstep : ∀ rest, splitFrom (.single word) ((if c = '\'' then "'\\''".toList else [c]) ++ rest) =
        splitFrom (.single (c :: word)) rest := by
      intro rest
      by_cases hc : c = '\''
      · subst hc
        -- the quote is left, a quote stands behind a backslash, and the quote is entered again
        rfl
      · rw [if_neg hc, List.singleton_append, splitFrom, if_neg hc]
    rw [Zsh.escape_cons, List.append_assoc, hstep, ih]
    simp

/-- A text between single quotes is one word. -/
theorem split_single (t : Text) : split (Zsh.inQuotes (Zsh.escape t)) = some [t] := by
  have hopen : split (Zsh.inQuotes (Zsh.escape t)) = splitFrom (.single []) (Zsh.escape t ++ "'".toList) := rfl
  rw [hopen, splitFrom_single, List.append_nil]
  have hclose : splitFrom (.single t.reverse) "'".toList = some [t.reverse.reverse] := rfl
  rw [hclose, List.reverse_reverse]

end ShellWords

/-! ## Double quotes -/

namespace Bash

/-- Whether a character is special inside double quotes. -/
def isSpecial (c : Char) : Bool := c = '\\' || c = '"' || c = '$' || c = '\x60'

/-- A text for use inside double quotes. -/
def escape (t : Text) : Text := t.flatMap fun c => if isSpecial c then ['\\', c] else [c]

theorem quote_eq (t : Text) : quote t = escape (Text.singleLine t) := rfl

end Bash

namespace ShellWords

/-- Inside double quotes the characters of a text are read as they are. -/
theorem isQuoted_escape (t : Text) : IsQuoted (Bash.escape t) t := by
  induction t with
  | nil => exact .nil
  | cons c t ih =>
    have hcons : Bash.escape (c :: t) = (if Bash.isSpecial c then ['\\', c] else [c]) ++ Bash.escape t := rfl
    rw [hcons]
    by_cases hc : Bash.isSpecial c = true
    · have hescape : isDoubleQuoteEscape c = true := by
        simp only [Bash.isSpecial, Bool.or_eq_true, decide_eq_true_eq] at hc
        rcases hc with ((rfl | rfl) | rfl) | rfl <;> rfl
      rw [if_pos hc]
      exact .kept hescape ih
    · have hother : c ≠ '"' ∧ c ≠ '\\' := by
        constructor <;> rintro rfl <;> exact hc rfl
      rw [if_neg hc]
      exact .plain hother ih

/-- A text between double quotes is one word. -/
theorem split_double (t : Text) : split ("\"".toList ++ Bash.escape t ++ "\"".toList) = some [t] := by
  have hspelling : IsSpelling ('"' :: (Bash.escape t ++ ['"'])) (t ++ []) := .double (isQuoted_escape t) .nil
  have hbegins : BeginsWord ('"' :: (Bash.escape t ++ ['"'])) := ⟨List.cons_ne_nil _ _, by simp⟩
  have hreads := (Reads.lastWord hbegins hspelling).split_eq
  rwa [List.append_nil] at hreads

end ShellWords

/-! ## What stands between blanks -/

namespace ShellWords

/-- The words of a text between the blanks at which a shell divides it. -/
def fields (t : Text) : List Text := (Text.splitAt isSeparator t).filter fun w => !w.isEmpty

/-- Where a space is the only blank, a shell finds the words of the text. -/
theorem fields_eq_words {t : Text} (h : ∀ c ∈ t, Text.isBlank c = true → c = ' ') : fields t = Text.words t := by
  have hblank : ∀ c ∈ t, isSeparator c = Text.isBlank c := by
    intro c hc
    cases hb : Text.isBlank c with
    | true =>
      obtain rfl := h c hc hb
      rfl
    | false =>
      have hne : ∀ d, Text.isBlank d = true → c ≠ d := by
        rintro _ hd rfl
        exact Bool.false_ne_true (hb.symm.trans hd)
      simp [isSeparator, hne ' ' (by decide), hne '\t' (by decide), hne '\n' (by decide)]
  rw [fields, Text.splitAt_congr hblank, Text.words]

/-- Of texts that stand on one line with spaces between them a shell finds the words. -/
theorem fields_join_singleLine (ts : List Text) :
    fields (Text.join [' '] (ts.map Text.singleLine)) = ts.flatMap Text.words := by
  have hspace : ∀ c ∈ Text.join [' '] (ts.map Text.singleLine), Text.isBlank c = true → c = ' ' := by
    intro c hc hblank
    rcases Text.mem_of_mem_join hc with hc | ⟨u, hu, hc⟩
    · exact List.mem_singleton.1 hc
    · obtain ⟨t, -, rfl⟩ := List.mem_map.1 hu
      exact Text.eq_space_of_mem_singleLine hc hblank
  rw [fields_eq_words hspace, Text.words_join, List.flatMap_map]
  exact List.flatMap_congr fun t _ => Text.words_singleLine t

end ShellWords

/-! ## The quotes of fish -/

namespace Fish

/-- Reads on inside single quotes, where a backslash escapes a backslash and a quote; gives what was quoted and what follows the
closing quote. -/
def readQuoted? : Text → Option (Text × Text)
  | [] => none
  | '\'' :: rest => some ([], rest)
  | '\\' :: '\\' :: rest => (readQuoted? rest).map fun r => ('\\' :: r.1, r.2)
  | '\\' :: '\'' :: rest => (readQuoted? rest).map fun r => ('\'' :: r.1, r.2)
  | c :: rest => (readQuoted? rest).map fun r => (c :: r.1, r.2)

/-- A text for use inside single quotes. -/
def escape (t : Text) : Text := Text.replace '\'' "\\'".toList (Text.replace '\\' "\\\\".toList t)

theorem quote_eq (t : Text) : quote t = escape (Text.singleLine t) := rfl

theorem escape_cons (c : Char) (t : Text) :
    escape (c :: t) = (if c = '\\' then "\\\\".toList else if c = '\'' then "\\'".toList else [c]) ++ escape t := by
  have hsplit : escape (c :: t) = Text.replace '\'' "\\'".toList (if c = '\\' then "\\\\".toList else [c]) ++ escape t :=
    List.flatMap_append
  rw [hsplit]
  by_cases hbackslash : c = '\\'
  · rw [if_pos hbackslash, if_pos hbackslash]
    rfl
  · rw [if_neg hbackslash, if_neg hbackslash, Text.replace, List.flatMap_singleton]

/-- A text between single quotes is read as it is. -/
theorem readQuoted?_escape (t rest : Text) : readQuoted? (escape t ++ '\'' :: rest) = some (t, rest) := by
  induction t with
  | nil => rfl
  | cons c t ih =>
    rw [escape_cons, List.append_assoc]
    by_cases hbackslash : c = '\\'
    · subst hbackslash
      rw [if_pos rfl]
      show (readQuoted? (escape t ++ '\'' :: rest)).map _ = _
      rw [ih]
      rfl
    · rw [if_neg hbackslash]
      by_cases hquote : c = '\''
      · subst hquote
        rw [if_pos rfl]
        show (readQuoted? (escape t ++ '\'' :: rest)).map _ = _
        rw [ih]
        rfl
      · rw [if_neg hquote, List.singleton_append, readQuoted?, ih]
        · rfl
        all_goals simp_all

end Fish

end DevWorkflow
