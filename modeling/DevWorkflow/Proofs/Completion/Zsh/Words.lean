import DevWorkflow.Proofs.Completion.Choices

/-!
# Specifications as words

What a specification has between its quotes is a plain text, escaped as a whole: the escape in brackets, which is applied on top of
the one for quotes, may as well be applied below it (`Zsh.escapeBrackets_escape`). So a shell takes each specification for one word,
and finds in it the form of the option or the place of the argument and behind that the texts that belong to it, whatever characters
they have (`Zsh.split_specs`).
-/

namespace DevWorkflow

namespace ShellWords

/-- A text between single quotes is one word, and what follows behind a blank is read as if it stood alone. -/
theorem split_single_append (t : Text) {c : Char} (hc : isSeparator c = true) (rest : Text) :
    split (Zsh.inQuotes (Zsh.escape t) ++ c :: rest) = (split rest).map (t :: ·) := by
  have hopen : split (Zsh.inQuotes (Zsh.escape t) ++ c :: rest) =
      splitFrom (.single []) (Zsh.escape t ++ ("'".toList ++ c :: rest)) := by
    simp only [Zsh.inQuotes, List.append_assoc]
    rfl
  have hclose : splitFrom (.single t.reverse) ("'".toList ++ c :: rest) = splitFrom (.bare t.reverse) (c :: rest) := rfl
  rw [hopen, splitFrom_single, List.append_nil, hclose, splitFrom, if_pos hc, List.reverse_reverse]
  rfl

end ShellWords

namespace Zsh

open ShellWords

/-! ## What is escaped -/

/-- Without quotes there is nothing to escape. -/
theorem escape_of_not_mem {t : Text} (h : '\'' ∉ t) : escape t = t := Text.replace_of_not_mem h

/-- Quotes and brackets do not get in each other's way. -/
theorem escapeBrackets_escape (t : Text) : escapeBrackets (escape t) = escape (escapeBrackets t) := by
  unfold escapeBrackets escape
  rw [Text.replace_comm (a := '[') (by decide) (by decide) (by decide),
    Text.replace_comm (a := ']') (by decide) (by decide) (by decide)]

/-- Listed values as they are read, each on one line. -/
def plainListing (candidates : List Text) : Text := "(".toList ++ Text.join [' '] (candidates.map Text.singleLine) ++ ")".toList

theorem listing_eq (candidates : List Text) : listing candidates = escape (plainListing candidates) := by
  rw [listing, quotedWords_eq, plainListing, escape_append, escape_append]
  rfl

/-! ## Options -/

/-- What the specifications of an option begin with: its forms, the long one with an equals sign if a value follows. -/
def specForms (o : OptionEntry) : List Text :=
  (o.short.map fun c => ['-', c]).toList
    ++ if o.shortOnly then [] else ["--".toList ++ o.long ++ if o.isBoolean then [] else "=".toList]

/-- What follows each form as it is read: the description in brackets, and for a value its name and the listed values. -/
def plainRest (o : OptionEntry) : Text :=
  "[".toList ++ escapeBrackets (Text.singleLine o.description) ++ "]".toList
    ++ if o.isBoolean then []
       else ":".toList ++ Text.singleLine (o.valueName.getD o.long) ++ ":".toList ++ ((o.choiceList.map plainListing).getD [])

theorem valuePart_eq (o : OptionEntry) : valuePart o = escape (if o.isBoolean then []
    else ":".toList ++ Text.singleLine (o.valueName.getD o.long) ++ ":".toList ++ ((o.choiceList.map plainListing).getD [])) := by
  have hvalues : (o.choiceList.map listing).getD [] = escape ((o.choiceList.map plainListing).getD []) := by
    cases o.choiceList with
    | none => rfl
    | some values => exact listing_eq values
  unfold valuePart
  split
  · rfl
  · rw [hvalues, quote_eq]
    simp only [escape_append]
    rfl

theorem bracketed_append_valuePart (o : OptionEntry) : bracketed o ++ valuePart o = escape (plainRest o) := by
  rw [bracketed, quote_eq, escapeBrackets_escape, valuePart_eq, plainRest]
  simp only [escape_append]
  rfl

/-- The specifications of an option are its forms with what follows, each between quotes. -/
theorem optionSpecs_eq (o : OptionEntry) :
    optionSpecs o = (specForms o).map fun form => inQuotes (form ++ escape (plainRest o)) := by
  unfold optionSpecs specForms
  simp only [bracketed_append_valuePart, List.map_append]
  congr 1
  · cases o.short <;> rfl
  · split <;> rfl

/-- No form has a character in it that neither the long name nor the letter has, but for hyphens and the equals sign. -/
theorem not_mem_of_mem_specForms {o : OptionEntry} {a : Char} (ha : a ≠ '-' ∧ a ≠ '=') (hlong : a ∉ o.long)
    (hshort : o.short ≠ some a) : ∀ form ∈ specForms o, a ∉ form := by
  obtain ⟨hhyphen, hequals⟩ := ha
  intro form hform
  rcases List.mem_append.1 hform with h | h
  · obtain ⟨c, hc, rfl⟩ := Option.map_eq_some_iff.1 (Option.mem_toList.1 h)
    have hne : a ≠ c := by
      rintro rfl
      exact hshort hc
    simp [hhyphen, hne]
  · split at h
    · nomatch h
    · obtain rfl := List.mem_singleton.1 h
      cases o.isBoolean <;> simp [hhyphen, hequals, hlong]

/-- No form has a quote in it if neither the long name nor the letter does. -/
theorem quote_not_mem_of_mem_specForms {o : OptionEntry} (hlong : '\'' ∉ o.long) (hshort : o.short ≠ some '\'') :
    ∀ form ∈ specForms o, '\'' ∉ form :=
  not_mem_of_mem_specForms (by decide) hlong hshort

/-! ## Arguments -/

/-- What completes an argument, as it is read. -/
def plainAction : ArgumentSource → Text
  | .dynamic source => source.function
  | .choices candidates => plainListing candidates
  | .settingKeys => plainListing settingKeys
  | .rest => "_default".toList
  | .positional => "_default".toList

/-- The helpers are named without quotes, and everything else is escaped. -/
theorem action_eq (a : ArgumentEntry) (parent : Text) : action (a.source parent) = escape (plainAction (a.source parent)) := by
  unfold ArgumentEntry.source
  split
  · rfl
  · split
    · rfl
    · split
      · exact listing_eq _
      · split
        · exact listing_eq _
        · split <;> rfl

theorem quote_not_mem_place (a : ArgumentEntry) (position : Nat) : '\'' ∉ place a position := by
  have hdigits : '\'' ∉ Nat.toDigits 10 position := by
    intro h
    have hdigit := Nat.isDigit_of_mem_toDigits (by decide) (by decide) h
    exact absurd hdigit (by decide)
  unfold place
  split
  · decide
  · split <;> simp [hdigits]

theorem argumentSpec_eq (parent : Text) (a : ArgumentEntry) (position : Nat) :
    argumentSpec parent a position =
      inQuotes (escape (place a position ++ Text.singleLine a.name ++ ":".toList ++ plainAction (a.source parent))) := by
  rw [argumentSpec, quote_eq, action_eq]
  simp only [escape_append, escape_of_not_mem (quote_not_mem_place a position)]
  rfl

/-! ## Words -/

/-- Whether a text in the script is one word for a shell, alone or before a blank and whatever follows there. -/
def IsWord (spec word : Text) : Prop :=
  split spec = some [word] ∧ ∀ c rest, isSeparator c = true → split (spec ++ c :: rest) = (split rest).map (word :: ·)

theorem isWord_inQuotes_escape (t : Text) : IsWord (inQuotes (escape t)) t :=
  ⟨split_single t, fun _ rest hc => split_single_append t hc rest⟩

/-- If neither the long name nor the letter of an option has a quote, then each specification of the option is one word: the form,
the description in brackets, and for a value its name and the listed values. The specification of an argument always is one: the
place, the name and what completes it. -/
theorem split_specs :
    (∀ o : OptionEntry, '\'' ∉ o.long → o.short ≠ some '\'' →
      List.Forall₂ IsWord (optionSpecs o)
        ((specForms o).map fun form => form ++ "[".toList ++ escapeBrackets (Text.singleLine o.description) ++ "]".toList
          ++ if o.isBoolean then []
             else ":".toList ++ Text.singleLine (o.valueName.getD o.long) ++ ":".toList
               ++ ((o.choiceList.map plainListing).getD []))) ∧
    ∀ (parent : Text) (a : ArgumentEntry) (position : Nat),
      IsWord (argumentSpec parent a position)
        (place a position ++ Text.singleLine a.name ++ ":".toList ++ plainAction (a.source parent)) := by
  constructor
  · intro o hlong hshort
    have hforms := quote_not_mem_of_mem_specForms hlong hshort
    rw [optionSpecs_eq, List.forall₂_map_left_iff, List.forall₂_map_right_iff, List.forall₂_same]
    intro form hform
    have hword := isWord_inQuotes_escape (form ++ plainRest o)
    rw [escape_append, escape_of_not_mem (hforms form hform)] at hword
    simpa only [plainRest, List.append_assoc] using hword
  · intro parent a position
    rw [argumentSpec_eq]
    exact isWord_inQuotes_escape _

/-- An option whose texts have quotes, brackets and a line break in them. -/
def pickOption : OptionEntry :=
  { long := "pick".toList, short := some 'p', description := "Don't [ever]\n stop".toList, required := true
    valueName := some "it's".toList, choices := some ["a'b".toList, "c]d".toList] }

/-- Each of its specifications is one word, and so is that of an argument with a quote in its name. -/
theorem split_specs_pickOption :
    '\'' ∉ pickOption.long ∧ pickOption.short ≠ some '\'' ∧
    List.Forall₂ IsWord (optionSpecs pickOption)
      ["-p[Don't \\[ever\\] stop]:it's:(a'b c]d)".toList, "--pick=[Don't \\[ever\\] stop]:it's:(a'b c]d)".toList] ∧
    IsWord (argumentSpec "tool".toList { name := "who's".toList, variadic := true } 1) "*:who's:_default".toList := by
  have hlong : '\'' ∉ pickOption.long := by decide
  have hshort : pickOption.short ≠ some '\'' := by decide
  refine ⟨hlong, hshort, ?_, ?_⟩
  · exact split_specs.1 pickOption hlong hshort
  · exact split_specs.2 "tool".toList { name := "who's".toList, variadic := true } 1

end Zsh

end DevWorkflow
