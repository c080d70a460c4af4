import DevWorkflow.Proofs.Completion.Zsh.Words

/-!
# Descriptions in brackets

`_arguments` reads the description of an option between brackets, where a backslash keeps the next character. Brackets are written
behind backslashes there, but a backslash that is in the description already is written as it is, and is taken for one that keeps
something. So a description is read back just if each of its backslashes stands right before an opening bracket, where the one that is
written in front of the bracket keeps it (`Zsh.readSpec?_optionSpecs`).
-/

namespace DevWorkflow

namespace Zsh

/-! ## What `_arguments` reads -/

/-- Reads on inside brackets, where a backslash keeps the next character; gives what stands in the brackets and what follows the closing
one. -/
def readBracketed? : Text → Option (Text × Text)
  | [] => none
  | ']' :: rest => some ([], rest)
  | '\\' :: c :: rest => (readBracketed? rest).map fun r => (c :: r.1, r.2)
  | c :: rest => (readBracketed? rest).map fun r => (c :: r.1, r.2)

/-- What a specification of an option says: the form of the option, its description and what follows the description. -/
structure ReadSpec where
  form : Text
  description : Text
  value : Text
deriving DecidableEq, Repr

/-- Reads a specification, in which the first opening bracket begins the description. -/
def readSpec? : Text → Option ReadSpec
  | [] => none
  | '[' :: rest => (readBracketed? rest).map fun r => ⟨[], r.1, r.2⟩
  | c :: rest => (readSpec? rest).map fun r => { r with form := c :: r.form }

theorem readBracketed?_plain {c : Char} (hbracket : c ≠ ']') (hbackslash : c ≠ '\\') (t : Text) :
    readBracketed? (c :: t) = (readBracketed? t).map fun r => (c :: r.1, r.2) := by
  rw [readBracketed?]
  · exact hbracket
  · exact fun _ _ h => absurd h hbackslash

/-- Up to its first opening bracket a specification is the form of the option. -/
theorem readSpec?_append {form : Text} (h : '[' ∉ form) (rest : Text) :
    readSpec? (form ++ '[' :: rest) = (readBracketed? rest).map fun r => ⟨form, r.1, r.2⟩ := by
  induction form with
  | nil => rfl
  | cons c form ih =>
    obtain ⟨hc, hform⟩ := not_or.1 (mt List.mem_cons.2 h)
    rw [List.cons_append, readSpec?, ih hform, Option.map_map]
    · rfl
    · exact Ne.symm hc

/-! ## What becomes of a description -/

theorem escapeBrackets_cons (c : Char) (t : Text) :
    escapeBrackets (c :: t) = (if c = '[' ∨ c = ']' then ['\\', c] else [c]) ++ escapeBrackets t := by
  have hsplit : escapeBrackets (c :: t) = Text.replace ']' "\\]".toList (if c = '[' then "\\[".toList else [c]) ++ escapeBrackets t :=
    List.flatMap_append
  rw [hsplit]
  by_cases hopen : c = '['
  · subst hopen
    rfl
  · by_cases hclose : c = ']'
    · subst hclose
      rfl
    · rw [if_neg hopen, if_neg (not_or.2 ⟨hopen, hclose⟩), Text.replace_of_not_mem]
      simpa using Ne.symm hclose

/-- Whether every backslash in a text stands right before an opening bracket. -/
def IsRestorable (t : Text) : Prop := t.IsChain (fun a b => a = '\\' → b = '[') ∧ t.getLast? ≠ some '\\'

instance (t : Text) : Decidable (IsRestorable t) := inferInstanceAs (Decidable (_ ∧ _))

theorem isRestorable_nil : IsRestorable [] := by decide

theorem not_isRestorable_backslash : ¬IsRestorable ['\\'] := by decide

theorem isRestorable_cons_iff {c : Char} (hc : c ≠ '\\') (t : Text) : IsRestorable (c :: t) ↔ IsRestorable t := by
  cases t with
  | nil => simp [IsRestorable, hc]
  | cons d t => simp [IsRestorable, hc]

theorem isRestorable_backslash_cons_iff (c : Char) (t : Text) : IsRestorable ('\\' :: c :: t) ↔ c = '[' ∧ IsRestorable t := by
  have hstep : IsRestorable ('\\' :: c :: t) ↔ c = '[' ∧ IsRestorable (c :: t) := by
    simp [IsRestorable, and_assoc]
  rw [hstep]
  refine and_congr_right ?_
  rintro rfl
  exact isRestorable_cons_iff (by decide) t

/-! ## What is read of a description -/

/-- A character that is no backslash is read back, be it a bracket or not. -/
theorem readBracketed?_escape_cons {c : Char} (hc : c ≠ '\\') (t rest : Text) :
    readBracketed? (escapeBrackets (c :: t) ++ rest) = (readBracketed? (escapeBrackets t ++ rest)).map fun r => (c :: r.1, r.2) := by
  rw [escapeBrackets_cons, List.append_assoc]
  by_cases hbracket : c = '[' ∨ c = ']'
  · rw [if_pos hbracket, List.cons_append, List.singleton_append, readBracketed?]
  · rw [if_neg hbracket, List.singleton_append, readBracketed?_plain (not_or.1 hbracket).2 hc]

/-- A backslash before an opening bracket is read back, since it is kept by the one that is written for the bracket. -/
theorem readBracketed?_escape_open (t rest : Text) :
    readBracketed? (escapeBrackets ('\\' :: '[' :: t) ++ rest) =
      (readBracketed? (escapeBrackets t ++ rest)).map fun r => ('\\' :: '[' :: r.1, r.2) := by
  have htext : escapeBrackets ('\\' :: '[' :: t) = '\\' :: '\\' :: '[' :: escapeBrackets t := by
    rw [escapeBrackets_cons, escapeBrackets_cons]
    rfl
  rw [htext, List.cons_append, List.cons_append, List.cons_append, readBracketed?, readBracketed?_plain (by decide) (by decide),
    Option.map_map]
  rfl

/-- Before a closing bracket it is read back too, but the bracket ends the description. -/
theorem readBracketed?_escape_close (t rest : Text) :
    readBracketed? (escapeBrackets ('\\' :: ']' :: t) ++ rest) = some (['\\'], escapeBrackets t ++ rest) := by
  have htext : escapeBrackets ('\\' :: ']' :: t) = '\\' :: '\\' :: ']' :: escapeBrackets t := by
    rw [escapeBrackets_cons, escapeBrackets_cons]
    rfl
  rw [htext]
  rfl

/-- Before any other character it is lost. -/
theorem readBracketed?_escape_lost {c : Char} (hc : ¬(c = '[' ∨ c = ']')) (t rest : Text) :
    readBracketed? (escapeBrackets ('\\' :: c :: t) ++ rest) =
      (readBracketed? (escapeBrackets t ++ rest)).map fun r => (c :: r.1, r.2) := by
  have htext : escapeBrackets ('\\' :: c :: t) = '\\' :: c :: escapeBrackets t := by
    rw [escapeBrackets_cons, escapeBrackets_cons, if_neg hc]
    rfl
  rw [htext, List.cons_append, List.cons_append, readBracketed?]

/-- At the end it keeps the bracket that should end the description, and what follows is read on. -/
theorem readBracketed?_escape_last (rest : Text) :
    readBracketed? (escapeBrackets ['\\'] ++ ']' :: rest) = (readBracketed? rest).map fun r => (']' :: r.1, r.2) := rfl

/-- What holds of the empty text and of a single backslash, and goes on to longer texts by a backslash with the character behind it and by
any other character, holds of every text. -/
theorem induction_backslash {motive : Text → Prop} (nil : motive []) (last : motive ['\\'])
    (pair : ∀ c t, motive t → motive ('\\' :: c :: t)) (cons : ∀ c t, c ≠ '\\' → motive t → motive (c :: t)) :
    ∀ t, motive t
  | [] => nil
  | c :: t => by
    by_cases hc : c = '\\'
    · subst hc
      cases t with
      | nil => exact last
      | cons d t => exact pair d t (induction_backslash nil last pair cons t)
    · exact cons c t hc (induction_backslash nil last pair cons t)

/-- What follows the closing bracket is shorter than what was read. -/
theorem length_lt_of_readBracketed? {t read rest : Text} (h : readBracketed? t = some (read, rest)) : rest.length < t.length := by
  induction t using readBracketed?.induct generalizing read with
  | case1 => cases h
  | case2 t =>
    rw [readBracketed?, Option.some.injEq, Prod.mk.injEq] at h
    obtain ⟨rfl, rfl⟩ := h
    exact Nat.lt_succ_self _
  | case3 c t ih =>
    rw [readBracketed?] at h
    obtain ⟨read', hread, -⟩ := Text.map_cons_eq_some_iff.1 h
    exact Nat.lt_add_right 2 (ih hread)
  | case4 c t hbracket hbackslash ih =>
    rw [readBracketed?] at h
    · obtain ⟨read', hread, -⟩ := Text.map_cons_eq_some_iff.1 h
      exact Nat.lt_add_right 1 (ih hread)
    all_goals assumption

/-- If the reader goes on with what follows a description, it has not read more than the description. -/
theorem length_le_of_readBracketed?_escape {t read rest : Text}
    (h : readBracketed? (escapeBrackets t ++ ']' :: rest) = some (read, rest)) : read.length ≤ t.length := by
  induction t using induction_backslash generalizing read with
  | nil =>
    obtain ⟨rfl, -⟩ := Prod.mk.inj (Option.some.inj h)
    exact Nat.le_refl _
  | last =>
    rw [readBracketed?_escape_last] at h
    obtain ⟨read', hread, -⟩ := Text.map_cons_eq_some_iff.1 h
    exact absurd (length_lt_of_readBracketed? hread) (Nat.lt_irrefl _)
  | pair c t ih =>
    by_cases hbracket : c = '[' ∨ c = ']'
    · rcases hbracket with rfl | rfl
      · rw [readBracketed?_escape_open] at h
        obtain ⟨⟨read', rest'⟩, hread, heq⟩ := Option.map_eq_some_iff.1 h
        obtain ⟨rfl, rfl⟩ := Prod.mk.inj heq
        exact Nat.add_le_add_right (ih hread) 2
      · rw [readBracketed?_escape_close] at h
        obtain ⟨rfl, -⟩ := Prod.mk.inj (Option.some.inj h)
        exact Nat.le_add_left 1 _
    · rw [readBracketed?_escape_lost hbracket] at h
      obtain ⟨read', hread, rfl⟩ := Text.map_cons_eq_some_iff.1 h
      exact Nat.le_succ_of_le (Nat.add_le_add_right (ih hread) 1)
  | cons c t hc ih =>
    rw [readBracketed?_escape_cons hc] at h
    obtain ⟨read', hread, rfl⟩ := Text.map_cons_eq_some_iff.1 h
    exact Nat.add_le_add_right (ih hread) 1

/-- A description is read back, with what follows it, just if every backslash in it stands right before an opening bracket. -/
theorem readBracketed?_escape_eq_iff (t rest : Text) :
    readBracketed? (escapeBrackets t ++ ']' :: rest) = some (t, rest) ↔ IsRestorable t := by
  induction t using induction_backslash with
  | nil => exact iff_of_true rfl isRestorable_nil
  | last =>
    refine iff_of_false (fun h => ?_) not_isRestorable_backslash
    rw [readBracketed?_escape_last] at h
    obtain ⟨read, hread, -⟩ := Text.map_cons_eq_some_iff.1 h
    exact Nat.lt_irrefl _ (length_lt_of_readBracketed? hread)
  | pair c t ih =>
    rw [isRestorable_backslash_cons_iff, ← ih]
    by_cases hbracket : c = '[' ∨ c = ']'
    · rcases hbracket with rfl | rfl
      · rw [readBracketed?_escape_open]
        constructor
        · intro h
          obtain ⟨⟨read, rest'⟩, hread, heq⟩ := Option.map_eq_some_iff.1 h
          obtain ⟨htext, rfl⟩ := Prod.mk.inj heq
          obtain rfl : read = t := by simpa using htext
          exact ⟨rfl, hread⟩
        · rintro ⟨-, hread⟩
          rw [hread]
          rfl
      · rw [readBracketed?_escape_close]
        exact iff_of_false (by simp) fun h => absurd h.1 (by decide)
    · rw [readBracketed?_escape_lost hbracket]
      refine iff_of_false (fun h => ?_) fun h => hbracket (.inl h.1)
      -- one backslash is missing from what is read, so it cannot be the whole description
      obtain ⟨read, hread, htext⟩ := Text.map_cons_eq_some_iff.1 h
      obtain ⟨-, rfl⟩ := List.cons.inj htext
      exact absurd (length_le_of_readBracketed?_escape hread) (Nat.not_succ_le_self _)
  | cons c t hc ih =>
    rw [isRestorable_cons_iff hc, ← ih, readBracketed?_escape_cons hc, Text.map_cons_eq_some_iff]
    constructor
    · rintro ⟨read, hread, htext⟩
      obtain ⟨-, rfl⟩ := List.cons.inj htext
      exact hread
    · exact fun h => ⟨t, h, rfl⟩

/-! ## What is read of a specification -/

/-- What follows an option's description as it is read: nothing, or the name of its value and the listed values. -/
def plainValue (o : OptionEntry) : Text :=
  if o.isBoolean then []
  else ":".toList ++ Text.singleLine (o.valueName.getD o.long) ++ ":".toList ++ ((o.choiceList.map plainListing).getD [])

theorem plainRest_eq (o : OptionEntry) :
    plainRest o = '[' :: (escapeBrackets (Text.singleLine o.description) ++ ']' :: plainValue o) := by
  have hrest : plainRest o =
      "[".toList ++ escapeBrackets (Text.singleLine o.description) ++ "]".toList ++ plainValue o := rfl
  rw [hrest]
  simp

/-- A form without quotes and what is escaped behind it are one word. -/
theorem isWord_append_escape {form : Text} (h : '\'' ∉ form) (t : Text) : IsWord (inQuotes (form ++ escape t)) (form ++ t) := by
  have hword := isWord_inQuotes_escape (form ++ t)
  rwa [escape_append, escape_of_not_mem h] at hword

/-- If neither the long name nor the letter of an option has a quote or an opening bracket, then the shell takes each specification of the
option for one word, and `_arguments` finds the form of the option in it and, behind the closing bracket, what is read of the value
part; and the description on one line between them, just if every backslash in that stands right before an opening bracket. -/
theorem readSpec?_optionSpecs (o : OptionEntry) (hlong : '\'' ∉ o.long ∧ '[' ∉ o.long)
    (hshort : o.short ≠ some '\'' ∧ o.short ≠ some '[') :
    ∃ value, IsWord (inQuotes (valuePart o)) value ∧
      List.Forall₂ (fun spec form => ∃ word, IsWord spec word ∧
        (readSpec? word = some ⟨form, Text.singleLine o.description, value⟩ ↔ IsRestorable (Text.singleLine o.description)))
        (optionSpecs o) (specForms o) := by
  have hvalue : IsWord (inQuotes (valuePart o)) (plainValue o) := by
    rw [valuePart_eq]
    exact isWord_inQuotes_escape (plainValue o)
  refine ⟨plainValue o, hvalue, ?_⟩
  rw [optionSpecs_eq, List.forall₂_map_left_iff, List.forall₂_same]
  intro form hform
  have hquote : '\'' ∉ form := not_mem_of_mem_specForms (by decide) hlong.1 hshort.1 form hform
  have hbracket : '[' ∉ form := not_mem_of_mem_specForms (by decide) hlong.2 hshort.2 form hform
  refine ⟨form ++ plainRest o, isWord_append_escape hquote _, ?_⟩
  rw [plainRest_eq, readSpec?_append hbracket, ← readBracketed?_escape_eq_iff _ (plainValue o)]
  constructor
  · intro h
    obtain ⟨⟨read, rest⟩, hread, heq⟩ := Option.map_eq_some_iff.1 h
    obtain ⟨-, rfl, rfl⟩ := ReadSpec.mk.inj heq
    exact hread
  · intro h
    rw [h]
    rfl

/-- An option whose description has quotes, brackets and a backslash before a bracket. -/
def globOption : OptionEntry :=
  ((OptionEntry.value "glob".toList "Don't use \\[these]\n [ever]".toList).withShort 'g').withChoices ["[a]".toList, "b\\".toList]

/-- The specifications of this option are read as they should be. -/
theorem readSpec?_optionSpecs_globOption :
    ('\'' ∉ globOption.long ∧ '[' ∉ globOption.long) ∧ (globOption.short ≠ some '\'' ∧ globOption.short ≠ some '[') ∧
    ∃ value, IsWord (inQuotes (valuePart globOption)) value ∧
      List.Forall₂ (fun spec form => ∃ word, IsWord spec word ∧
        readSpec? word = some ⟨form, "Don't use \\[these] [ever]".toList, value⟩)
        (optionSpecs globOption) ["-g".toList, "--glob=".toList] := by
  have hlong : '\'' ∉ globOption.long ∧ '[' ∉ globOption.long := by decide
  have hshort : globOption.short ≠ some '\'' ∧ globOption.short ≠ some '[' := by decide
  have hrestorable : IsRestorable (Text.singleLine globOption.description) := by decide
  obtain ⟨value, hvalue, hspecs⟩ := readSpec?_optionSpecs globOption hlong hshort
  refine ⟨hlong, hshort, value, hvalue, hspecs.imp fun spec form hspec => ?_⟩
  obtain ⟨word, hword, hread⟩ := hspec
  exact ⟨word, hword, hread.2 hrestorable⟩

/-- An option whose description ends with a backslash, and one whose description has a backslash before a letter. -/
def strayTree : CommandTree :=
  ((CommandTree.ofName "devx".toList []).addOption (OptionEntry.flag "drive".toList "Drive, such as C:\\".toList)).addOption
    (OptionEntry.flag "digits".toList "Same as \\d+".toList)

/-- The tree is valid and the forms of its options have neither quotes nor brackets, but the first description is never closed and the
second one is read without its backslash. -/
theorem readSpec?_strayTree :
    strayTree.defect? = none ∧
    (strayTree.options.map fun o => (o.long, o.short)) = [("drive".toList, none), ("digits".toList, none)] ∧
    (strayTree.options.map fun o => (Text.singleLine o.description, optionSpecs o)) =
      [("Drive, such as C:\\".toList, ["'--drive[Drive, such as C:\\]'".toList]),
        ("Same as \\d+".toList, ["'--digits[Same as \\d+]'".toList])] ∧
    ShellWords.split "'--drive[Drive, such as C:\\]'".toList = some ["--drive[Drive, such as C:\\]".toList] ∧
    readSpec? "--drive[Drive, such as C:\\]".toList = none ∧
    ShellWords.split "'--digits[Same as \\d+]'".toList = some ["--digits[Same as \\d+]".toList] ∧
    readSpec? "--digits[Same as \\d+]".toList = some ⟨"--digits".toList, "Same as d+".toList, []⟩ := by
  decide

end Zsh

end DevWorkflow
