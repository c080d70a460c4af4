import DevWorkflow.Proofs.Completion.Quoting
import DevWorkflow.Proofs.Completion.Zsh.Specs

/-!
# Single quotes in the zsh script

A quote in a description, a value, the name of an argument or the label of a list cannot end what is quoted around it, and nothing
that is written between quotes goes on over a line break. So the quotes in every line of the script are balanced, but for two kinds
of lines, in which a text stands as it is: the specification of an option has the form of the option in it, and the label of a
subcommand is its name (`Zsh.isBalanced_of_mem_script`).
-/

namespace DevWorkflow

namespace Zsh

/-! ## Where the shell stands -/

/-- Where the shell stands in a line. -/
inductive QuoteState where
  | outside
  /-- Behind a backslash outside quotes. -/
  | escaped
  | inside
deriving DecidableEq, Repr

namespace QuoteState

/-- Reads a character: a quote begins or ends what is quoted, a backslash outside quotes keeps the next character, and every other
character stands for itself. -/
def step : QuoteState → Char → QuoteState
  | outside, c => if c = '\'' then inside else if c = '\\' then escaped else outside
  | escaped, _ => outside
  | inside, c => if c = '\'' then outside else inside

/-- Reads a text. -/
def after (s : QuoteState) (t : Text) : QuoteState := t.foldl step s

@[simp] theorem after_append (s : QuoteState) (t u : Text) : s.after (t ++ u) = (s.after t).after u := List.foldl_append

/-- Without a quote, what is quoted goes on. -/
theorem after_inside_of_not_mem {t : Text} (h : '\'' ∉ t) : inside.after t = inside := by
  induction t with
  | nil => rfl
  | cons c t ih =>
    obtain ⟨hc, ht⟩ := not_or.1 (mt List.mem_cons.2 h)
    rw [after, List.foldl_cons, step, if_neg (Ne.symm hc)]
    exact ih ht

/-- Without a quote, nothing begins to be quoted. -/
theorem after_ne_inside_of_not_mem {t : Text} (h : '\'' ∉ t) {s : QuoteState} (hs : s ≠ inside) : s.after t ≠ inside := by
  induction t generalizing s with
  | nil => exact hs
  | cons c t ih =>
    obtain ⟨hc, ht⟩ := not_or.1 (mt List.mem_cons.2 h)
    have hstep : s.step c ≠ inside := by
      cases s with
      | outside =>
        rw [step, if_neg (Ne.symm hc)]
        split <;> exact QuoteState.noConfusion
      | escaped => exact QuoteState.noConfusion
      | inside => exact absurd rfl hs
    exact ih ht hstep

/-- A text that is written for use inside quotes stays inside them. -/
theorem after_inside_escape (t : Text) : inside.after (escape t) = inside := by
  induction t with
  | nil => rfl
  | cons c t ih =>
    have hstep : inside.after (if c = '\'' then "'\\''".toList else [c]) = inside := by
      by_cases hc : c = '\''
      · rw [if_pos hc]
        rfl
      · rw [if_neg hc, after, List.foldl_cons, step, if_neg hc]
        rfl
    rw [escape_cons, after_append, hstep, ih]

/-- A backslash before a character that is neither a quote nor a backslash makes no difference. -/
theorem after_replace {a : Char} (hquote : a ≠ '\'') (hbackslash : a ≠ '\\') (s : QuoteState) (t : Text) :
    s.after (Text.replace a ['\\', a] t) = s.after t := by
  induction t generalizing s with
  | nil => rfl
  | cons c t ih =>
    have hcons : Text.replace a ['\\', a] (c :: t) = (if c = a then ['\\', a] else [c]) ++ Text.replace a ['\\', a] t := rfl
    have hstep : s.after (if c = a then ['\\', a] else [c]) = s.step c := by
      by_cases hc : c = a
      · rw [if_pos hc, hc]
        cases s <;> simp [after, step, hquote, hbackslash]
      · rw [if_neg hc]
        rfl
    rw [hcons, after_append, hstep, ih]
    rfl

/-- So does what is written for use inside brackets. -/
theorem after_escapeBrackets (s : QuoteState) (t : Text) : s.after (escapeBrackets t) = s.after t := by
  rw [escapeBrackets]
  exact (after_replace (by decide) (by decide) s _).trans (after_replace (by decide) (by decide) s t)

end QuoteState

/-! ## Balanced lines -/

/-- Whether everything that is quoted in a line ends in it. -/
def IsBalanced (line : Text) : Prop := QuoteState.outside.after line ≠ .inside

instance (line : Text) : Decidable (IsBalanced line) := inferInstanceAs (Decidable (_ ≠ _))

theorem isBalanced_of_not_mem {line : Text} (h : '\'' ∉ line) : IsBalanced line :=
  QuoteState.after_ne_inside_of_not_mem h QuoteState.noConfusion

/-- The lines of a text without quotes are balanced. -/
theorem hasLines_of_not_mem {t : Text} (h : '\'' ∉ t) : Text.HasLines IsBalanced (t ++ ['\n']) :=
  Text.HasLines.of_forall fun _ hline => isBalanced_of_not_mem fun hmem => h (Text.mem_of_mem_splitAt hline _ hmem)

/-- So are those of a text without quotes that ends with a line feed. -/
theorem hasLines_of_getLast? {t : Text} (h : t.getLast? = some '\n' ∧ '\'' ∉ t) : Text.HasLines IsBalanced t := by
  obtain ⟨t, rfl⟩ := List.getLast?_eq_some_iff.1 h.1
  exact hasLines_of_not_mem fun hmem => h.2 (List.mem_append_left _ hmem)

theorem quote_not_mem_functionName (path : List Text) : '\'' ∉ functionName path := fun h =>
  absurd (List.all_eq_true.1 (all_isNameCharacter_functionName path) _ h) (by decide)

/-! ## What stands between quotes -/

/-- Whether a text can stand between quotes on one line. -/
structure IsQuotable (t : Text) : Prop where
  stays : QuoteState.inside.after t = .inside
  oneLine : '\n' ∉ t

namespace IsQuotable

theorem of_not_mem {t : Text} (hquote : '\'' ∉ t) (hline : '\n' ∉ t) : IsQuotable t :=
  ⟨QuoteState.after_inside_of_not_mem hquote, hline⟩

theorem nil : IsQuotable [] := of_not_mem List.not_mem_nil List.not_mem_nil

theorem append {t u : Text} (ht : IsQuotable t) (hu : IsQuotable u) : IsQuotable (t ++ u) := by
  refine ⟨by rw [QuoteState.after_append, ht.stays, hu.stays], ?_⟩
  rw [List.mem_append, not_or]
  exact ⟨ht.oneLine, hu.oneLine⟩

theorem join {ts : List Text} (h : ∀ t ∈ ts, IsQuotable t) : IsQuotable (Text.join [' '] ts) := by
  induction ts with
  | nil => exact nil
  | cons t ts ih =>
    obtain ⟨ht, hts⟩ := List.forall_mem_cons.1 h
    cases ts with
    | nil => exact ht
    | cons u rest => exact (ht.append (of_not_mem (by decide) (by decide))).append (ih hts)

/-- A quoted text can, whatever it was. -/
theorem quote (t : Text) : IsQuotable (quote t) := by
  refine ⟨QuoteState.after_inside_escape _, ?_⟩
  intro h
  rcases Text.mem_of_mem_replace h with h | h
  · exact absurd h (by decide)
  · exact absurd (Text.eq_space_of_mem_singleLine h (by decide)) (by decide)

theorem bracketed (o : OptionEntry) : IsQuotable (bracketed o) := by
  have hescaped : IsQuotable (escapeBrackets (Zsh.quote o.description)) := by
    refine ⟨by rw [QuoteState.after_escapeBrackets]; exact (quote o.description).stays, ?_⟩
    intro h
    rcases Text.mem_of_mem_replace h with h | h
    · exact absurd h (by decide)
    · rcases Text.mem_of_mem_replace h with h | h
      · exact absurd h (by decide)
      · exact (quote o.description).oneLine h
  exact ((of_not_mem (by decide) (by decide)).append hescaped).append (of_not_mem (by decide) (by decide))

theorem listing (values : List Text) : IsQuotable (listing values) := by
  have hwords : IsQuotable (quotedWords values) := join (List.forall_mem_map.2 fun v _ => quote v)
  exact ((of_not_mem (by decide) (by decide)).append hwords).append (of_not_mem (by decide) (by decide))

theorem valuePart (o : OptionEntry) : IsQuotable (valuePart o) := by
  have hcolon : IsQuotable ":".toList := of_not_mem (by decide) (by decide)
  have hvalues : IsQuotable ((o.choiceList.map Zsh.listing).getD []) := by
    cases o.choiceList with
    | none => exact nil
    | some values => exact listing values
  unfold Zsh.valuePart
  split
  · exact nil
  · exact ((hcolon.append (quote _)).append hcolon).append hvalues

theorem place (a : ArgumentEntry) (position : Nat) : IsQuotable (place a position) := by
  have hdigits : IsQuotable (Nat.toDigits 10 position) := by
    have hnot : ∀ c : Char, c.isDigit = false → c ∉ Nat.toDigits 10 position := fun c hc h =>
      Bool.false_ne_true (hc.symm.trans (Nat.isDigit_of_mem_toDigits (by decide) (by decide) h))
    exact .of_not_mem (hnot _ (by decide)) (hnot _ (by decide))
  unfold Zsh.place
  split
  · exact .of_not_mem (by decide) (by decide)
  · split
    · exact hdigits.append (.of_not_mem (by decide) (by decide))
    · exact hdigits.append (.of_not_mem (by decide) (by decide))

/-- What completes an argument can stand between quotes, since no helper has a quote in its name. -/
theorem action (a : ArgumentEntry) (parent : Text) : IsQuotable (action (a.source parent)) := by
  have hdefault : IsQuotable "_default".toList := .of_not_mem (by decide) (by decide)
  unfold ArgumentEntry.source
  split
  · exact .of_not_mem (by decide) (by decide)
  · split
    · exact .of_not_mem (by decide) (by decide)
    · split
      · exact listing _
      · split
        · exact listing _
        · split <;> exact hdefault

end IsQuotable

/-- What stands in a specification between its quotes can stand there, if the form of the option does. -/
theorem isQuotable_of_form {form marker : Text} (o : OptionEntry) (hform : '\'' ∉ form ∧ '\n' ∉ form)
    (hmarker : marker = [] ∨ marker = "=".toList) : IsQuotable (form ++ marker ++ (bracketed o ++ valuePart o)) := by
  have hmarker' : IsQuotable marker := by
    rcases hmarker with rfl | rfl
    · exact .nil
    · exact .of_not_mem (by decide) (by decide)
  exact ((IsQuotable.of_not_mem hform.1 hform.2).append hmarker').append ((IsQuotable.bracketed o).append (IsQuotable.valuePart o))

/-! ## The lines of a block -/

/-- What may follow a specification on its line. -/
def specTails : List Text := [[], " \\".toList, " && ret=0".toList]

/-- A line with one quoted part is balanced, and it is one line. -/
theorem hasLines_inQuotes {before t after : Text} (hbefore : '\'' ∉ before ∧ '\n' ∉ before)
    (hstart : QuoteState.outside.after before = .outside) (ht : IsQuotable t) (hafter : '\'' ∉ after ∧ '\n' ∉ after) :
    Text.HasLines IsBalanced (before ++ inQuotes t ++ after ++ ['\n']) := by
  refine Text.HasLines.of_line ?_ ?_
  · simp [inQuotes, hbefore.2, ht.oneLine, hafter.2]
  · have hbegin : QuoteState.outside.after "'".toList = .inside := rfl
    have hend : QuoteState.inside.after "'".toList = .outside := rfl
    rw [IsBalanced, inQuotes]
    simp only [QuoteState.after_append, hstart, hbegin, ht.stays, hend]
    exact QuoteState.after_ne_inside_of_not_mem hafter.1 QuoteState.noConfusion

/-- Whether a line belongs to a specification whose form has a quote or a line feed in it, or to a label that has a quote in it. -/
def IsRawLine (x : Place) (line : Text) : Prop :=
  (∃ o ∈ x.tree.options, ∃ spec ∈ optionSpecs o,
    (∃ form ∈ o.flagWords, "'".toList ++ form <+: spec ∧ ('\'' ∈ form ∨ '\n' ∈ form)) ∧
    ∃ tail ∈ specTails, line ∈ Text.splitAt (· = '\n') ("    ".toList ++ spec ++ tail)) ∨
  ∃ c ∈ x.tree.subcommands, '\'' ∈ c.name ∧ line ∈ Text.splitAt (· = '\n') ("        ".toList ++ c.name ++ ")".toList)

/-- Whether a line of a block is balanced, unless it is such a line. -/
def IsBlockLine (x : Place) (line : Text) : Prop := IsBalanced line ∨ IsRawLine x line

theorem hasLines_of_isBalanced {x : Place} {t : Text} (h : Text.HasLines IsBalanced t) : Text.HasLines (IsBlockLine x) t :=
  h.imp fun _ => .inl

theorem hasLines_spec {x : Place} {spec : Text} (h : spec ∈ specs x.tree) {tail : Text} (htail : tail ∈ specTails) :
    Text.HasLines (IsBlockLine x) ("    ".toList ++ spec ++ tail ++ ['\n']) := by
  have htail' : '\'' ∉ tail ∧ '\n' ∉ tail := by
    have hall : ∀ tail ∈ specTails, '\'' ∉ tail ∧ '\n' ∉ tail := by decide
    exact hall tail htail
  have hquotable : ∀ t, IsQuotable t → Text.HasLines (IsBlockLine x) ("    ".toList ++ inQuotes t ++ tail ++ ['\n']) :=
    fun t ht => hasLines_of_isBalanced (hasLines_inQuotes (by decide) rfl ht htail')
  rcases cases_of_mem_specs h with ⟨o, ho, hspec⟩ | ⟨a, n, rfl⟩ | hfixed
  · obtain ⟨form, hform, marker, hmarker, rfl⟩ := exists_form_of_mem_optionSpecs hspec
    by_cases hraw : '\'' ∈ form ∨ '\n' ∈ form
    · have hprefix : "'".toList ++ form <+: inQuotes (form ++ marker ++ (bracketed o ++ valuePart o)) :=
        ⟨marker ++ (bracketed o ++ valuePart o) ++ "'".toList, by simp only [inQuotes, List.append_assoc]⟩
      exact Text.HasLines.of_forall fun line hline =>
        .inr (.inl ⟨o, ho, _, hspec, ⟨form, hform, hprefix, hraw⟩, tail, htail, hline⟩)
    · exact hquotable _ (isQuotable_of_form o (not_or.1 hraw) hmarker)
  · have hname : IsQuotable (place a n ++ quote a.name) := (IsQuotable.place a n).append (IsQuotable.quote a.name)
    exact hquotable _ ((hname.append (.of_not_mem (by decide) (by decide))).append (IsQuotable.action a x.tree.name))
  · have hfixed' : ∃ t, IsQuotable t ∧ spec = inQuotes t := by
      simp only [List.mem_cons, List.not_mem_nil, or_false] at hfixed
      rcases hfixed with rfl | rfl | rfl
      · exact ⟨"*:: :_default".toList, .of_not_mem (by decide) (by decide), rfl⟩
      · exact ⟨"1: :->cmds".toList, .of_not_mem (by decide) (by decide), rfl⟩
      · exact ⟨"*:: :->args".toList, .of_not_mem (by decide) (by decide), rfl⟩
    obtain ⟨t, ht, rfl⟩ := hfixed'
    exact hquotable t ht

theorem hasLines_specLines {P : Text → Prop} {tail : Text} {specs : List Text} (htail : tail ∈ specTails)
    (h : ∀ spec ∈ specs, ∀ tail ∈ specTails, Text.HasLines P ("    ".toList ++ spec ++ tail ++ ['\n'])) :
    Text.HasLines P (specLines tail specs) := by
  induction specs using specLines.induct with
  | case1 => exact .nil
  | case2 only =>
    rw [specLines_singleton]
    exact h only List.mem_cons_self tail htail
  | case3 first next rest ih =>
    have hfirst := h first List.mem_cons_self " \\".toList (by decide)
    rw [specLines_cons_cons, show " \\\n".toList = " \\".toList ++ ['\n'] from rfl, ← List.append_assoc ("    ".toList ++ first)]
    exact hfirst.append (ih fun spec hspec => h spec (List.mem_cons_of_mem _ hspec))

/-- The lines of a call are those of its specifications, after one that says what is called. -/
theorem hasLines_argumentsCall {x : Place} {call tail : Text} (hcall : '\'' ∉ call) (htail : tail ∈ specTails) {ts : List Text}
    (h : ∀ spec ∈ ts, spec ∈ specs x.tree) :
    Text.HasLines (IsBlockLine x) (argumentsCall call tail ts) := by
  have htail' : '\'' ∉ tail := by
    have hall : ∀ tail ∈ specTails, '\'' ∉ tail := by decide
    exact hall tail htail
  cases ts with
  | nil =>
    have hnot : '\'' ∉ "  ".toList ++ call ++ tail := by simp [hcall, htail']
    exact hasLines_of_isBalanced (hasLines_of_not_mem hnot)
  | cons first rest =>
    have hnot : '\'' ∉ "  ".toList ++ call ++ " \\".toList := by simp [hcall]
    have hstart : argumentsCall call tail (first :: rest) =
        "  ".toList ++ call ++ " \\".toList ++ ['\n'] ++ specLines tail (first :: rest) := by
      rw [argumentsCall, show " \\\n".toList = " \\".toList ++ ['\n'] from rfl, ← List.append_assoc ("  ".toList ++ call)]
    rw [hstart]
    refine (hasLines_of_isBalanced (hasLines_of_not_mem hnot)).append ?_
    exact hasLines_specLines htail fun spec hspec tail htail => hasLines_spec (h spec hspec) htail

theorem hasLines_functionStart (path : List Text) : Text.HasLines IsBalanced (functionName path ++ "() \x7b\n".toList) := by
  have hnot : '\'' ∉ functionName path ++ "() \x7b".toList := by
    rw [List.mem_append, not_or]
    exact ⟨quote_not_mem_functionName path, by decide⟩
  rw [show "() \x7b\n".toList = "() \x7b".toList ++ ['\n'] from rfl, ← List.append_assoc]
  exact hasLines_of_not_mem hnot

theorem hasLines_opening (x : Place) (h : x.tree.isLeaf = false) :
    Text.HasLines (IsBlockLine x) (opening x.path x.tree.options) := by
  have hspecs : ∀ spec ∈ branchSpecs x.tree, spec ∈ specs x.tree := by
    intro spec hspec
    rwa [specs, h]
  have hcall : Text.HasLines (IsBlockLine x)
      (argumentsCall "_arguments -C".toList " && ret=0".toList (branchSpecs x.tree)) :=
    hasLines_argumentsCall (by decide +kernel) (by decide +kernel) hspecs
  have hlocals : Text.HasLines IsBalanced
      "  local curcontext=\"$curcontext\" state line ret=1\n  typeset -A opt_args\n\n".toList :=
    hasLines_of_getLast? (by decide +kernel)
  have hcase : Text.HasLines IsBalanced
      "\n  case $state in\n    cmds)\n      local -a subcommands\n      subcommands=(\n".toList :=
    hasLines_of_getLast? (by decide +kernel)
  unfold opening
  refine (Text.HasLines.append ?_ hcall).append (hasLines_of_isBalanced hcase)
  exact hasLines_of_isBalanced ((hasLines_functionStart x.path).append hlocals)

theorem hasLines_describeLine (c : CommandTree) : Text.HasLines IsBalanced (describeLine c) := by
  have hentry : describeLine c =
      "        ".toList ++ inQuotes (quote c.name ++ ":".toList ++ quote c.description) ++ [] ++ ['\n'] := by
    have hstart : "        '".toList = "        ".toList ++ "'".toList := rfl
    have hend : "'\n".toList = "'".toList ++ ['\n'] := rfl
    unfold describeLine inQuotes
    rw [hstart, hend]
    simp only [List.append_assoc, List.nil_append]
  rw [hentry]
  refine hasLines_inQuotes (by decide +kernel) (by decide +kernel) ?_ (by decide +kernel)
  exact ((IsQuotable.quote c.name).append (.of_not_mem (by decide) (by decide))).append (IsQuotable.quote c.description)

theorem hasLines_middle (path : List Text) : Text.HasLines IsBalanced (middle path) := by
  have hlabel : middle path = "      )\n".toList
      ++ ("      _describe -t commands ".toList ++ inQuotes (quote (Text.join [' '] (programName :: path)) ++ " commands".toList)
        ++ " subcommands && ret=0".toList ++ ['\n'])
      ++ "      ;;\n    args)\n      case $line[1] in\n".toList := by
    have hstart : "      )\n      _describe -t commands '".toList =
        "      )\n".toList ++ "      _describe -t commands ".toList ++ "'".toList := by simp
    have hend : " commands' subcommands && ret=0\n      ;;\n    args)\n      case $line[1] in\n".toList =
        " commands".toList ++ "'".toList ++ " subcommands && ret=0".toList ++ ['\n']
          ++ "      ;;\n    args)\n      case $line[1] in\n".toList := by simp
    unfold middle inQuotes
    rw [hstart, hend]
    simp only [List.append_assoc]
  rw [hlabel]
  refine (Text.HasLines.append ?_ ?_).append ?_
  · exact hasLines_of_getLast? (by decide +kernel)
  · refine hasLines_inQuotes (by decide +kernel) (by decide +kernel) ?_ (by decide +kernel)
    exact (IsQuotable.quote _).append (.of_not_mem (by decide) (by decide))
  · exact hasLines_of_getLast? (by decide +kernel)

theorem hasLines_callLines {x : Place} {c : CommandTree} (hc : c ∈ x.tree.subcommands) :
    Text.HasLines (IsBlockLine x) (callLines x.path c) := by
  have hcall : callLines x.path c = "        ".toList ++ c.name ++ ")".toList ++ ['\n']
      ++ ("          ".toList ++ functionName (x.path ++ [c.name]) ++ " && ret=0".toList ++ ['\n'])
      ++ "          ;;\n".toList := by
    have hmiddle : ")\n          ".toList = ")".toList ++ ['\n'] ++ "          ".toList := by simp
    have hend : " && ret=0\n          ;;\n".toList = " && ret=0".toList ++ ['\n'] ++ "          ;;\n".toList := by simp
    unfold callLines
    rw [hmiddle, hend]
    simp only [List.append_assoc]
  have hlabel : Text.HasLines (IsBlockLine x) ("        ".toList ++ c.name ++ ")".toList ++ ['\n']) := by
    by_cases hraw : '\'' ∈ c.name
    · exact Text.HasLines.of_forall fun line hline => .inr (.inr ⟨c, hc, hraw, hline⟩)
    · exact hasLines_of_isBalanced (hasLines_of_not_mem (by simp [hraw]))
  have hfunction : '\'' ∉ "          ".toList ++ functionName (x.path ++ [c.name]) ++ " && ret=0".toList := by
    have hname := quote_not_mem_functionName (x.path ++ [c.name])
    simp [hname]
  rw [hcall]
  refine (hlabel.append (hasLines_of_isBalanced (hasLines_of_not_mem hfunction))).append ?_
  exact hasLines_of_isBalanced (hasLines_of_getLast? (by decide +kernel))

/-- The lines of a block are balanced, but for those that have a raw form or name in them. -/
theorem hasLines_block (x : Place) : Text.HasLines (IsBlockLine x) (block x) := by
  cases hleaf : x.tree.isLeaf with
  | true =>
    have hbody : Text.HasLines (IsBlockLine x) (functionOf x.path x.tree).body.render := by
      rw [render_body_of_isLeaf hleaf]
      split
      · refine hasLines_of_isBalanced ?_
        exact Text.HasLines.of_line (t := "  _message 'no more arguments'".toList) (by decide) (by decide)
      · refine hasLines_argumentsCall (by decide) (by decide) fun spec hspec => ?_
        rwa [specs, if_pos hleaf]
    rw [block_eq]
    refine (hasLines_of_isBalanced (hasLines_functionStart x.path)).append (hbody.append ?_)
    exact hasLines_of_isBalanced (hasLines_of_getLast? (by decide +kernel))
  | false =>
    rw [block_of_not_isLeaf hleaf]
    refine ((((hasLines_opening x hleaf).append ?_).append ?_).append ?_).append ?_
    · exact hasLines_of_isBalanced (Text.HasLines.flatMap fun c _ => hasLines_describeLine c)
    · exact hasLines_of_isBalanced (hasLines_middle x.path)
    · exact Text.HasLines.flatMap fun c hc => hasLines_callLines hc
    · exact hasLines_of_isBalanced (hasLines_of_getLast? (by decide +kernel))

/-! ## The lines of the script -/

/-- Whether no form of an option has a quote or a line feed in it, and no subcommand has a quote in its name. -/
def IsFreeOfQuotes (t : CommandTree) : Prop :=
  (∀ o ∈ t.options, ∀ form ∈ o.flagWords, '\'' ∉ form ∧ '\n' ∉ form) ∧ ∀ c ∈ t.subcommands, '\'' ∉ c.name

instance (t : CommandTree) : Decidable (IsFreeOfQuotes t) := inferInstanceAs (Decidable (_ ∧ _))

theorem not_isRawLine {x : Place} (h : IsFreeOfQuotes x.tree) (line : Text) : ¬IsRawLine x line := by
  rintro (⟨o, ho, spec, -, ⟨form, hform, -, hraw⟩, -⟩ | ⟨c, hc, hraw, -⟩)
  · obtain ⟨hquote, hline⟩ := h.1 o ho form hform
    exact hraw.elim hquote hline
  · exact h.2 c hc hraw

theorem hasLines_script (t : CommandTree) :
    Text.HasLines (fun line => IsBalanced line ∨ ∃ x ∈ t.topDown [], IsRawLine x line) (script t) := by
  have hheader : Text.HasLines IsBalanced header := by
    have hend : header = header.dropLast ++ ['\n'] := by decide +kernel
    have hlines : ∀ line ∈ Text.splitAt (· = '\n') header.dropLast, IsBalanced line := by decide +kernel
    rw [hend]
    exact Text.HasLines.of_forall hlines
  have hblocks : Text.HasLines (fun line => IsBalanced line ∨ ∃ x ∈ t.topDown [], IsRawLine x line)
      ((t.bottomUp []).flatMap block) := by
    refine Text.HasLines.flatMap fun x hx => (hasLines_block x).imp fun line hline => ?_
    exact hline.imp_right fun hraw => ⟨x, (CommandTree.bottomUp_perm_topDown [] t).mem_iff.1 hx, hraw⟩
  have htrailer : Text.HasLines IsBalanced trailer := hasLines_of_getLast? (by decide +kernel)
  rw [script_eq_flatMap]
  exact ((hheader.imp fun _ => .inl).append hblocks).append (htrailer.imp fun _ => .inl)

/-- Every line of the script is balanced, or it is a line of a specification whose form has a quote or a line feed in it, or of a
label that has a quote in it. So if no form and no name has these, all lines are balanced, whatever the descriptions, arguments and
values are. -/
theorem isBalanced_of_mem_script (t : CommandTree) :
    (∀ line ∈ Text.splitAt (· = '\n') (script t), IsBalanced line ∨ ∃ x ∈ t.topDown [], IsRawLine x line) ∧
    ((∀ x ∈ t.topDown [], IsFreeOfQuotes x.tree) → ∀ line ∈ Text.splitAt (· = '\n') (script t), IsBalanced line) := by
  have hall : ∀ line ∈ Text.splitAt (· = '\n') (script t), IsBalanced line ∨ ∃ x ∈ t.topDown [], IsRawLine x line := by
    intro line hline
    rcases (hasLines_script t).of_mem hline with h | rfl
    · exact h
    · exact .inl (isBalanced_of_not_mem List.not_mem_nil)
  refine ⟨hall, fun hfree line hline => ?_⟩
  rcases hall line hline with h | ⟨x, hx, hraw⟩
  · exact h
  · exact absurd hraw (not_isRawLine (hfree x hx) line)

/-- A command line with quotes in its descriptions, values and arguments. -/
def politeTree : CommandTree :=
  let say := (((CommandTree.ofName "say".toList "Say 'hello'".toList).addOption
    ((OptionEntry.value "tone".toList "Speaker's tone".toList).withChoices ["it's".toList, "plain".toList])).addArgument
    (ArgumentEntry.ofName "who's".toList "Who's listening".toList))
  ((CommandTree.ofName "devx".toList "It's a tool".toList).addOption
    (OptionEntry.flag "x".toList "Don't do it\nreally".toList)).addSubcommand say

/-- All its lines are balanced. -/
theorem isBalanced_of_mem_script_politeTree :
    (∀ x ∈ politeTree.topDown [], IsFreeOfQuotes x.tree) ∧
    ∀ line ∈ Text.splitAt (· = '\n') (script politeTree), IsBalanced line :=
  have hfree : ∀ x ∈ politeTree.topDown [], IsFreeOfQuotes x.tree := by decide
  ⟨hfree, (isBalanced_of_mem_script politeTree).2 hfree⟩

/-- A command line with a quote in the name of a command and one in the long form of an option. -/
def quotedNameTree : CommandTree :=
  ((CommandTree.ofName "devx".toList []).addOption (OptionEntry.flag "who's".toList [])).addSubcommand
    (CommandTree.ofName "it's".toList [])

/-- The tree is valid, but in the block of the root the line that describes the option and the label of the command are not
balanced. -/
theorem not_isBalanced_quotedNameTree :
    quotedNameTree.defect? = none ∧ ∃ x ∈ quotedNameTree.topDown [], block x <:+: script quotedNameTree ∧
      ∀ line ∈ ["    '--who's[]' \\".toList, "        it's)".toList],
        line ∈ Text.splitAt (· = '\n') (block x) ∧ ¬IsBalanced line := by
  have hroot : (⟨[], quotedNameTree⟩ : Place) ∈ quotedNameTree.topDown [] := List.mem_cons_self
  exact ⟨by decide, _, hroot, infix_block_script hroot, by decide +kernel⟩

end Zsh

end DevWorkflow
