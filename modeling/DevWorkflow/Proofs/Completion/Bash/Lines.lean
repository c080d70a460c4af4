import DevWorkflow.Completion.Bash
import DevWorkflow.Proofs.Text.SingleLines
import Mathlib.Data.List.Basic

/-!
# The lines of the bash dispatcher

A command of the dispatcher is written on one or more lines, each of which is one token. A line is read back as the shell reads
it: the parts between its double quotes are compared with those of the tokens, and the words in it have to be plain, so that the
shell takes them as they stand. Every token with plain words is read back from its line (`Bash.readLine?_line`), but for one:
where the label of an arm is expected, the shell takes the word `esac` for the end of the choice.
-/

namespace DevWorkflow

namespace Bash

/-! ## Plain words -/

/-- Whether a character stands for itself wherever the shell reads it: a letter, a digit, a hyphen or an underscore, or a character
outside ASCII that is not blank. -/
def isWordCharacter (c : Char) : Bool :=
  if c.toNat < 128 then c.isAlphanum || c = '-' || c = '_' else !Text.isBlank c

/-- Whether all characters of a word stand for themselves. -/
def IsPlain (w : Text) : Prop := w.all isWordCharacter = true

instance (w : Text) : Decidable (IsPlain w) := inferInstanceAs (Decidable (w.all isWordCharacter = true))

theorem isBlank_of_isWordCharacter {c : Char} (h : isWordCharacter c = true) : Text.isBlank c = false := by
  by_cases hascii : c.toNat < 128
  · -- the ASCII characters are tried one by one
    have hall : ∀ n < 128, isWordCharacter (Char.ofNat n) = true → Text.isBlank (Char.ofNat n) = false := by decide
    rw [← Char.ofNat_toNat c] at h ⊢
    exact hall c.toNat hascii h
  · rw [isWordCharacter, if_neg hascii] at h
    simpa using h

theorem IsPlain.of_mem {w : Text} (h : IsPlain w) {c : Char} (hc : c ∈ w) : isWordCharacter c = true := List.all_eq_true.1 h c hc

/-- A plain word lacks every character that does not stand for itself. -/
theorem IsPlain.not_mem {w : Text} (h : IsPlain w) {c : Char} (hc : isWordCharacter c = false) : c ∉ w :=
  fun hmem => Bool.false_ne_true (hc.symm.trans (h.of_mem hmem))

/-- A plain word is written as it is. -/
theorem quote_of_isPlain {w : Text} (h : IsPlain w) : quote w = w := by
  rw [quote, Text.singleLine_of_forall fun c hc => isBlank_of_isWordCharacter (h.of_mem hc)]
  refine (List.flatMap_congr fun c hc => ?_).trans (List.flatMap_singleton' w)
  have hspecial : ∀ d, isWordCharacter d = false → c ≠ d := fun d hd hcd => h.not_mem hd (hcd ▸ hc)
  simp [hspecial '\\' (by decide), hspecial '"' (by decide), hspecial '$' (by decide), hspecial '\x60' (by decide)]

/-! ## Tokens -/

/-- What a line says. -/
inductive Token where
  | offer (words : List Text)
  | offerFiles
  | done
  | ifPosition (n : Nat)
  | ifPrevious (words : List Text)
  | endIf
  | byWord (n : Nat)
  | label (name : Text)
  | endArm
  | endChoice
deriving DecidableEq, Repr

namespace Token

/-- The text of a line, without indentation. -/
def text : Token → Text
  | offer words => "COMPREPLY=( $(compgen -W \"".toList ++ wordList words ++ "\" -- \"$\x7bcur\x7d\") )".toList
  | offerFiles => "COMPREPLY+=( $(compgen -f -- \"$\x7bcur\x7d\") )".toList
  | done => "return 0".toList
  | ifPosition n => "if [[ $\x7bCOMP_CWORD\x7d -eq ".toList ++ Nat.toDigits 10 n ++ " ]]; then".toList
  | ifPrevious words => "if [[ ".toList ++ previousTest words ++ " ]]; then".toList
  | endIf => "fi".toList
  | byWord n => "case \"$\x7bCOMP_WORDS[".toList ++ Nat.toDigits 10 n ++ "]\x7d\" in".toList
  | label name => quote name ++ ")".toList
  | endArm => ";;".toList
  | endChoice => "esac".toList

/-- Whether the words of a token are plain and the shell can see where they stand. -/
def HasPlainWords : Token → Prop
  | offer words => ∀ w ∈ words, IsPlain w
  | ifPrevious words => words ≠ [] ∧ ∀ w ∈ words, IsPlain w
  | label name => name ≠ [] ∧ IsPlain name
  | _ => True

/-- The words that the previous word is compared with. They are written as they are, but all other words of a token on one line. -/
def tested : Token → List Text
  | ifPrevious words => words
  | _ => []

/-- The token that is read back. An empty word leaves no trace in a list of words. -/
def asRead : Token → Token
  | offer words => offer (words.filter fun w => !w.isEmpty)
  | k => k

end Token

/-- The word that ends a choice. -/
def endOfChoice : Text := "esac".toList

/-! ## Reading a line -/

/-- What stands between two texts. -/
def between? (before after t : Text) : Option Text :=
  (Text.afterPrefix? before t).bind fun rest => (Text.afterPrefix? after.reverse rest.reverse).map List.reverse

/-- The number that is written with the given digits. -/
def number? (digits : Text) : Option Nat :=
  if Nat.toDigits 10 (Nat.ofDigitChars 10 digits 0) = digits then some (Nat.ofDigitChars 10 digits 0) else none

/-- The label of an arm. Where a label is expected, the shell takes `esac` for the end of the choice. -/
def label? (name : Text) : Option Token := if name ≠ [] ∧ name ≠ endOfChoice ∧ IsPlain name then some (.label name) else none

/-- A line without quotes. -/
def bareLine? (t : Text) : Option Token :=
  if t.getLast? = some ')' then label? t.dropLast
  else if t = "return 0".toList then some .done
  else if t = "fi".toList then some .endIf
  else if t = ";;".toList then some .endArm
  else if t = "esac".toList then some .endChoice
  else ((between? "if [[ $\x7bCOMP_CWORD\x7d -eq ".toList " ]]; then".toList t).bind number?).map .ifPosition

/-- The parts of a line that offers words, but for the first. -/
def offerLine? : List Text → Option Token
  | list :: rest =>
    if rest = [" -- ".toList, "$\x7bcur\x7d".toList, ") )".toList] ∧ list.all (fun c => isWordCharacter c || c = ' ') then
      some (.offer (Text.words list))
    else none
  | [] => none

/-- The words that the previous word is compared with, from the parts of a test. -/
def alternatives? : List Text → Option (List Text)
  | previous :: equals :: w :: next :: rest =>
    if previous = "$\x7bprev\x7d".toList ∧ equals = " == ".toList ∧ IsPlain w then
      if next = " || ".toList then (alternatives? rest).map (w :: ·)
      else if next = " ]]; then".toList ∧ rest = [] then some [w]
      else none
    else none
  | _ => none

/-- The parts of a line that chooses by a word, but for the first. -/
def choiceLine? : List Text → Option Token
  | word :: rest =>
    if rest = [" in".toList] then ((between? "$\x7bCOMP_WORDS[".toList "]\x7d".toList word).bind number?).map .byWord else none
  | [] => none

/-- The parts of a line with quotes. -/
def quotedLine? (first : Text) (rest : List Text) : Option Token :=
  if first = "COMPREPLY=( $(compgen -W ".toList then offerLine? rest
  else if first = "COMPREPLY+=( $(compgen -f -- ".toList ∧ rest = ["$\x7bcur\x7d".toList, ") )".toList] then some .offerFiles
  else if first = "if [[ ".toList then (alternatives? rest).map .ifPrevious
  else if first = "case ".toList then choiceLine? rest
  else none

/-- What the parts of a line between its quotes say. -/
def ofParts? : List Text → Option Token
  | [] => none
  | [t] => bareLine? t
  | first :: next :: rest => quotedLine? first (next :: rest)

/-- What a line says. -/
def readLine? (l : Text) : Option Token := ofParts? (Text.splitAt (· = '"') (l.dropWhile (· = ' ')))

/-! ## Reading back -/

theorem between?_append (before after t : Text) : between? before after (before ++ t ++ after) = some t := by
  rw [between?, List.append_assoc, Text.afterPrefix?_append, Option.bind_some, List.reverse_append, Text.afterPrefix?_append,
    Option.map_some, List.reverse_reverse]

theorem number?_toDigits (n : Nat) : number? (Nat.toDigits 10 n) = some n := by
  rw [number?, Nat.ofDigitChars_toDigits (by decide) (by decide), if_pos rfl]

theorem not_mem_toDigits {c : Char} (hc : c.isDigit = false) (n : Nat) : c ∉ Nat.toDigits 10 n := fun h =>
  Bool.false_ne_true (hc.symm.trans (Nat.isDigit_of_mem_toDigits (by decide) (by decide) h))

/-- A text without quotes is one part. -/
theorem splitAt_of_not_mem {t : Text} (h : '"' ∉ t) : Text.splitAt (· = '"') t = [t] :=
  Text.splitAt_of_forall fun _ hc => decide_eq_false (ne_of_mem_of_not_mem hc h)

/-- What stands before the first quote is the first part. -/
theorem splitAt_append_quote {t : Text} (h : '"' ∉ t) (rest : Text) :
    Text.splitAt (· = '"') (t ++ '"' :: rest) = t :: Text.splitAt (· = '"') rest := by
  rw [Text.splitAt_append_cons t (by decide), splitAt_of_not_mem h, List.singleton_append]

theorem text_label {name : Text} (h : IsPlain name) : (Token.label name).text = name ++ [')'] :=
  congrArg (· ++ [')']) (quote_of_isPlain h)

/-- The line of an arm says its label, unless that is the word that ends the choice. -/
theorem ofParts?_label {name : Text} (hname : name ≠ []) (hplain : IsPlain name) :
    ofParts? (Text.splitAt (· = '"') (Token.label name).text) = if name = endOfChoice then none else some (.label name) := by
  have hquote : '"' ∉ name ++ [')'] := by simpa using hplain.not_mem (by decide)
  have hlast : (name ++ [')']).getLast? = some ')' := List.getLast?_concat
  rw [text_label hplain, splitAt_of_not_mem hquote, ofParts?, bareLine?, if_pos hlast, List.dropLast_concat, label?]
  by_cases hend : name = endOfChoice
  · rw [if_neg fun h => h.2.1 hend, if_pos hend]
  · rw [if_pos ⟨hname, hend, hplain⟩, if_neg hend]

theorem wordList_of_isPlain {words : List Text} (h : ∀ w ∈ words, IsPlain w) : wordList words = Text.join [' '] words := by
  rw [wordList, List.map_congr_left fun w hw => quote_of_isPlain (h w hw), List.map_id']

/-- A list of plain words has nothing but their characters and spaces in it. -/
theorem of_mem_wordList {words : List Text} (h : ∀ w ∈ words, IsPlain w) :
    ∀ c ∈ wordList words, isWordCharacter c = true ∨ c = ' ' := by
  rw [wordList_of_isPlain h]
  intro c hc
  rcases Text.mem_of_mem_join hc with hc | ⟨w, hw, hc⟩
  · exact .inr (List.mem_singleton.1 hc)
  · exact .inl ((h w hw).of_mem hc)

/-- The line that offers words says which words are offered. -/
theorem ofParts?_offer {words : List Text} (h : ∀ w ∈ words, IsPlain w) :
    ofParts? (Text.splitAt (· = '"') (Token.offer words).text) = some (.offer (words.filter fun w => !w.isEmpty)) := by
  have hquote : '"' ∉ wordList words := fun hmem => absurd (of_mem_wordList h '"' hmem) (by decide)
  have hall : (wordList words).all (fun c => isWordCharacter c || c = ' ') = true :=
    List.all_eq_true.2 fun c hc => by simpa using of_mem_wordList h c hc
  have hread : Text.words (wordList words) = words.filter fun w => !w.isEmpty := by
    rw [wordList_of_isPlain h, Text.words_join,
      List.flatMap_congr fun w hw => Text.words_of_forall fun c hc => isBlank_of_isWordCharacter ((h w hw).of_mem hc),
      ← List.filter_flatMap, List.flatMap_singleton']
  have htext : (Token.offer words).text = "COMPREPLY=( $(compgen -W ".toList ++ '"' :: (wordList words ++ '"' ::
      (" -- ".toList ++ '"' :: ("$\x7bcur\x7d".toList ++ '"' :: ") )".toList))) := by
    unfold Token.text
    simp
  rw [htext, splitAt_append_quote (by decide), splitAt_append_quote hquote, splitAt_append_quote (by decide),
    splitAt_append_quote (by decide), splitAt_of_not_mem (by decide), ofParts?, quotedLine?, if_pos rfl,
    offerLine?, if_pos ⟨rfl, hall⟩, hread]

/-- The line that chooses by a word says at which position the word stands. -/
theorem ofParts?_byWord (n : Nat) : ofParts? (Text.splitAt (· = '"') (Token.byWord n).text) = some (.byWord n) := by
  have htext : (Token.byWord n).text = "case ".toList ++ '"' ::
      ("$\x7bCOMP_WORDS[".toList ++ Nat.toDigits 10 n ++ "]\x7d".toList ++ '"' :: " in".toList) := by
    unfold Token.text
    simp
  have hquote : '"' ∉ "$\x7bCOMP_WORDS[".toList ++ Nat.toDigits 10 n ++ "]\x7d".toList := by
    simp [@not_mem_toDigits '"' (by decide) n]
  rw [htext, splitAt_append_quote (by decide), splitAt_append_quote hquote, splitAt_of_not_mem (by decide), ofParts?,
    quotedLine?, if_neg (by decide), if_neg fun h => absurd h.1 (by decide), if_neg (by decide), if_pos rfl, choiceLine?,
    if_pos rfl, between?_append, Option.bind_some, number?_toDigits, Option.map_some]

/-- The line of a test for the position says the position. -/
theorem ofParts?_ifPosition (n : Nat) : ofParts? (Text.splitAt (· = '"') (Token.ifPosition n).text) = some (.ifPosition n) := by
  have htext : (Token.ifPosition n).text =
      "if [[ $\x7bCOMP_CWORD\x7d -eq ".toList ++ Nat.toDigits 10 n ++ " ]]; then".toList := rfl
  have hquote : '"' ∉ "if [[ $\x7bCOMP_CWORD\x7d -eq ".toList ++ Nat.toDigits 10 n ++ " ]]; then".toList := by
    simp [@not_mem_toDigits '"' (by decide) n]
  have hlast : ("if [[ $\x7bCOMP_CWORD\x7d -eq ".toList ++ Nat.toDigits 10 n ++ " ]]; then".toList).getLast? = some 'n' := by
    rw [List.getLast?_append]
    rfl
  rw [htext, splitAt_of_not_mem hquote, ofParts?, bareLine?, hlast, if_neg (by decide), if_neg (by simp),
    if_neg (by simp), if_neg (by simp), if_neg (by simp), between?_append, Option.bind_some, number?_toDigits, Option.map_some]

/-- A comparison of the previous word begins with a quote, and the words that it is compared with are read from what follows. -/
theorem alternatives?_previousTest {words : List Text} (hwords : words ≠ []) (h : ∀ w ∈ words, IsPlain w) :
    ∃ rest, previousTest words ++ " ]]; then".toList = '"' :: rest ∧
      alternatives? (Text.splitAt (· = '"') rest) = some words := by
  induction words with
  | nil => exact absurd rfl hwords
  | cons w ws ih =>
    obtain ⟨hw, hws⟩ := List.forall_mem_cons.1 h
    -- a comparison has three quotes inside it and one behind it, so its parts are followed by those of what is behind it
    have hparts : ∀ tail, Text.splitAt (· = '"')
        ("$\x7bprev\x7d".toList ++ '"' :: (" == ".toList ++ '"' :: (w ++ '"' :: tail))) =
        "$\x7bprev\x7d".toList :: " == ".toList :: w :: Text.splitAt (· = '"') tail := fun tail => by
      rw [splitAt_append_quote (by decide), splitAt_append_quote (by decide), splitAt_append_quote (hw.not_mem (by decide))]
    cases ws with
    | nil =>
      refine ⟨"$\x7bprev\x7d".toList ++ '"' :: (" == ".toList ++ '"' :: (w ++ '"' :: " ]]; then".toList)), ?_, ?_⟩
      · simp [previousTest]
      · rw [hparts, splitAt_of_not_mem (by decide), alternatives?, if_pos ⟨rfl, rfl, hw⟩, if_neg (by decide), if_pos ⟨rfl, rfl⟩]
    | cons v vs =>
      obtain ⟨rest, htext, hrest⟩ := ih (List.cons_ne_nil v vs) hws
      refine ⟨"$\x7bprev\x7d".toList ++ '"' :: (" == ".toList ++ '"' :: (w ++ '"' :: (" || ".toList ++ '"' :: rest))), ?_, ?_⟩
      · rw [← htext]
        simp [previousTest, Text.join_cons_cons]
      · rw [hparts, splitAt_append_quote (by decide), alternatives?, if_pos ⟨rfl, rfl, hw⟩, if_pos rfl, hrest, Option.map_some]

/-- The line of a test for the previous word says the words that it is compared with. -/
theorem ofParts?_ifPrevious {words : List Text} (hwords : words ≠ []) (h : ∀ w ∈ words, IsPlain w) :
    ofParts? (Text.splitAt (· = '"') (Token.ifPrevious words).text) = some (.ifPrevious words) := by
  obtain ⟨rest, htext, hrest⟩ := alternatives?_previousTest hwords h
  have hline : (Token.ifPrevious words).text = "if [[ ".toList ++ '"' :: rest := by
    rw [← htext, ← List.append_assoc]
    rfl
  rw [hline, splitAt_append_quote (by decide)]
  cases hparts : Text.splitAt (· = '"') rest with
  | nil => exact absurd hparts (Text.splitAt_ne_nil _ rest)
  | cons part parts =>
    rw [hparts] at hrest
    rw [ofParts?, quotedLine?, if_neg (by decide), if_neg fun h => absurd h.1 (by decide), if_pos rfl, hrest,
      Option.map_some]

/-- Every token with plain words is read back from its text, but for a label that the shell takes for the end of the choice. -/
theorem ofParts?_text {k : Token} (h : k.HasPlainWords) :
    ofParts? (Text.splitAt (· = '"') k.text) = if k = .label endOfChoice then none else some k.asRead := by
  cases k with
  | offer words => rw [ofParts?_offer h, if_neg nofun]; rfl
  | ifPosition n => rw [ofParts?_ifPosition, if_neg nofun]; rfl
  | ifPrevious words => rw [ofParts?_ifPrevious h.1 h.2, if_neg nofun]; rfl
  | byWord n => rw [ofParts?_byWord, if_neg nofun]; rfl
  | label name => simp [ofParts?_label h.1 h.2, Token.asRead]
  | offerFiles | done | endIf | endArm | endChoice => decide

/-! ## Indented lines -/

/-- A quoted text does not begin with a space. -/
theorem head?_quote (t : Text) : (quote t).head? ≠ some ' ' := by
  have hstart := (Text.isSpaced_singleLine t).start
  rw [quote]
  cases hline : Text.singleLine t with
  | nil => exact nofun
  | cons c rest =>
    have hc : c ≠ ' ' := by simpa [hline] using hstart
    rw [List.flatMap_cons]
    split
    · simp
    · simpa using hc

/-- Neither does the text of a token. -/
theorem head?_text (k : Token) : k.text.head? ≠ some ' ' := by
  cases k with
  | label name =>
    have hname := head?_quote name
    unfold Token.text
    cases hquote : quote name with
    | nil => simp [hquote]
    | cons c rest => simpa [hquote] using hname
  | offer words | ifPosition n | ifPrevious words | byWord n =>
    unfold Token.text
    simp
  | offerFiles | done | endIf | endArm | endChoice => decide

/-- No token is written with one character. -/
theorem two_le_length_text {k : Token} (h : k.HasPlainWords) : 2 ≤ k.text.length := by
  cases k with
  | label name =>
    obtain ⟨hname, hplain⟩ := h
    have hlength : 0 < name.length := List.length_pos_of_ne_nil hname
    rw [text_label hplain, List.length_append, List.length_singleton]
    omega
  | offer words | ifPosition n | ifPrevious words | byWord n =>
    unfold Token.text
    simp
  | offerFiles | done | endIf | endArm | endChoice => decide

/-- A quoted text has no line feed in it. -/
theorem lineFeed_not_mem_quote (t : Text) : '\n' ∉ quote t := by
  intro hmem
  obtain ⟨c, hc, hmem⟩ := List.mem_flatMap.1 hmem
  split at hmem
  · next hspecial =>
    rcases List.mem_pair.1 hmem with h | rfl
    · exact absurd h (by decide)
    · exact absurd hspecial (by decide)
  · obtain rfl := List.mem_singleton.1 hmem
    exact absurd (Text.eq_space_of_mem_singleLine hc (by decide)) (by decide)

theorem lineFeed_not_mem_wordList (words : List Text) : '\n' ∉ wordList words := by
  intro hmem
  rcases Text.mem_of_mem_join hmem with hmem | ⟨t, ht, hmem⟩
  · exact absurd hmem (by decide)
  · obtain ⟨w, -, rfl⟩ := List.mem_map.1 ht
    exact lineFeed_not_mem_quote w hmem

theorem lineFeed_not_mem_previousTest {words : List Text} (h : ∀ w ∈ words, '\n' ∉ w) : '\n' ∉ previousTest words := by
  intro hmem
  rcases Text.mem_of_mem_join hmem with hmem | ⟨test, htest, hmem⟩
  · exact absurd hmem (by decide)
  · obtain ⟨w, hw, rfl⟩ := List.mem_map.1 htest
    simp [h w hw] at hmem

/-- A token is written on one line, if the words that the previous word is compared with are. -/
theorem lineFeed_not_mem_text {k : Token} (h : ∀ w ∈ k.tested, '\n' ∉ w) : '\n' ∉ k.text := by
  cases k with
  | label name =>
    unfold Token.text
    simp [lineFeed_not_mem_quote name]
  | offer words =>
    unfold Token.text
    simp [lineFeed_not_mem_wordList words]
  | ifPrevious words =>
    have htest : '\n' ∉ previousTest words := lineFeed_not_mem_previousTest h
    unfold Token.text
    simp [htest]
  | ifPosition n | byWord n =>
    unfold Token.text
    simp [@not_mem_toDigits '\n' (by decide) n]
  | offerFiles | done | endIf | endArm | endChoice => decide

/-- Plain words are on one line. -/
theorem Token.HasPlainWords.lineFeed_not_mem {k : Token} (h : k.HasPlainWords) : ∀ w ∈ k.tested, '\n' ∉ w := by
  cases k with
  | ifPrevious words => exact fun w hw => (h.2 w hw).not_mem (by decide)
  | _ => exact List.forall_mem_nil _

/-- Indentation is made of spaces. -/
theorem eq_space_of_mem_indentation {depth : Nat} {c : Char} (h : c ∈ (List.replicate depth "    ".toList).flatten) : c = ' ' := by
  obtain ⟨four, hfour, hc⟩ := List.mem_flatten.1 h
  obtain rfl := List.eq_of_mem_replicate hfour
  simpa using hc

/-- Without its indentation a line is the text of its token. -/
theorem dropWhile_line (depth : Nat) (k : Token) : (line depth k.text).dropWhile (· = ' ') = k.text := by
  have htext : k.text.dropWhile (· = ' ') = k.text := by
    have hhead := head?_text k
    cases hk : k.text with
    | nil => rfl
    | cons c rest =>
      have hc : ¬ c = ' ' := by simpa [hk] using hhead
      exact List.dropWhile_cons_of_neg (by simpa using hc)
  rw [line, List.dropWhile_append_of_pos fun c hc => decide_eq_true (eq_space_of_mem_indentation hc), htext]

/-- Every token with plain words is read back from its line, but for a label that the shell takes for the end of the choice. -/
theorem readLine?_line (depth : Nat) {k : Token} (h : k.HasPlainWords) :
    readLine? (line depth k.text) = if k = .label endOfChoice then none else some k.asRead := by
  rw [readLine?, dropWhile_line, ofParts?_text h]

theorem two_le_length_line (depth : Nat) {k : Token} (h : k.HasPlainWords) : 2 ≤ (line depth k.text).length := by
  rw [line, List.length_append]
  exact Nat.le_add_left_of_le (two_le_length_text h)

/-- A line has no line feeds in it. -/
theorem lineFeed_not_mem_line (depth : Nat) {k : Token} (h : ∀ w ∈ k.tested, '\n' ∉ w) : '\n' ∉ line depth k.text := by
  intro hmem
  rcases List.mem_append.1 hmem with hmem | hmem
  · exact absurd (eq_space_of_mem_indentation hmem) (by decide)
  · exact lineFeed_not_mem_text h hmem

end Bash

end DevWorkflow
