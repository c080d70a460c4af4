import DevWorkflow.Completion.Install
import DevWorkflow.Proofs.Completion.Quoting
import DevWorkflow.Proofs.FileTree.Places
import Mathlib.Data.List.Chain

/-!
# The words of the hook

The hook for bash names the script between double quotes, but nothing in its path is escaped, as texts between double quotes are
in the script itself (`Bash.quote`). So the hook has the words that it should have just if every character of the directory stands
for itself between double quotes (`Install.hook_sources_script_iff`); a double quote in the directory ends the quoted text, and
the hook sources nothing (`Install.not_hook_sources_script_quote`).
-/

namespace DevWorkflow

namespace ShellWords

/-! ## Texts that stand for themselves -/

/-- Whether every character of a text stands for itself between double quotes: none is a double quote, and no backslash stands
right before a character that it keeps, or before the end of a line. -/
def IsLiteral (t : Text) : Prop := '"' ∉ t ∧ t.IsChain fun a b => a = '\\' → isDoubleQuoteEscape b = false ∧ b ≠ '\n'

instance (t : Text) : Decidable (IsLiteral t) := inferInstanceAs (Decidable (_ ∧ _))

theorem isLiteral_nil : IsLiteral [] := ⟨List.not_mem_nil, .nil⟩

theorem isLiteral_cons_iff {c : Char} (hc : c ≠ '"' ∧ c ≠ '\\') (t : Text) : IsLiteral (c :: t) ↔ IsLiteral t := by
  cases t <;> simp [IsLiteral, hc.2, Ne.symm hc.1]

theorem isLiteral_backslash_cons_iff (c : Char) (t : Text) :
    IsLiteral ('\\' :: c :: t) ↔ (isDoubleQuoteEscape c = false ∧ c ≠ '\n') ∧ IsLiteral t := by
  have hstep : IsLiteral ('\\' :: c :: t) ↔ (isDoubleQuoteEscape c = false ∧ c ≠ '\n') ∧ IsLiteral (c :: t) := by
    simp only [IsLiteral, List.mem_cons, List.isChain_cons_cons]
    have hbackslash : '"' ≠ '\\' := by decide
    tauto
  rw [hstep]
  refine and_congr_right fun hc => isLiteral_cons_iff ?_ t
  constructor <;> rintro rfl <;> nomatch hc.1

/-- What is read of a quoted text is no longer than the text. -/
theorem IsQuoted.length_le {t read : Text} (h : IsQuoted t read) : read.length ≤ t.length := by
  induction h with
  | nil => exact Nat.le_refl 0
  | plain _ _ ih | kept _ _ ih | joined _ ih | literal _ _ ih =>
    simp only [List.length_cons]
    omega

theorem IsQuoted.isLiteral {t read : Text} (h : IsQuoted t read) (hsame : read = t) : IsLiteral t := by
  induction h with
  | nil => exact isLiteral_nil
  | plain hc _ ih => exact (isLiteral_cons_iff hc _).2 (ih (List.cons.inj hsame).2)
  | kept _ h _ | joined h _ =>
    have hlength := h.length_le
    have hequal := congrArg List.length hsame
    simp only [List.length_cons] at hequal
    omega
  | literal hc _ ih => exact (isLiteral_backslash_cons_iff _ _).2 ⟨hc, ih (List.cons.inj (List.cons.inj hsame).2).2⟩

theorem IsLiteral.isQuoted {t : Text} (h : IsLiteral t) (hlast : t.getLast? ≠ some '\\') : IsQuoted t t := by
  match t with
  | [] => exact .nil
  | c :: t =>
    by_cases hbackslash : c = '\\'
    · subst hbackslash
      match t with
      | [] => exact absurd rfl hlast
      | d :: t =>
        obtain ⟨hd, ht⟩ := (isLiteral_backslash_cons_iff d t).1 h
        refine .literal hd (ht.isQuoted ?_)
        cases t <;> simp_all
    · have hc : c ≠ '"' ∧ c ≠ '\\' := ⟨fun hquote => h.1 (by simp [hquote]), hbackslash⟩
      refine .plain hc (((isLiteral_cons_iff hc t).1 h).isQuoted ?_)
      cases t <;> simp_all

/-- A text that ends in no backslash is read between double quotes as it is just if all its characters stand for themselves. -/
theorem isQuoted_self_iff {t : Text} (hlast : t.getLast? ≠ some '\\') : IsQuoted t t ↔ IsLiteral t :=
  ⟨fun h => h.isLiteral rfl, fun h => h.isQuoted hlast⟩

/-- A text without a double quote that ends in no backslash can be read between double quotes. -/
theorem exists_isQuoted {t : Text} (hquote : '"' ∉ t) (hlast : t.getLast? ≠ some '\\') : ∃ inside, IsQuoted t inside := by
  rcases endsQuoted t with ⟨quoted, inside, rest, -, rfl⟩ | hopen
  · exact absurd (by simp) hquote
  · cases hopen with
    | double h => exact ⟨_, h⟩
    | doubleBackslash _ => exact absurd (by simp) hlast

/-! ## What keeps a double quote -/

/-- The number of backslashes and single quotes in a text. A word keeps a double quote only behind a backslash or between single
quotes, which are lost then. -/
def keepers (t : Text) : Nat := t.countP fun c => c = '\\' || c = '\''

theorem keepers_append (t u : Text) : keepers (t ++ u) = keepers t + keepers u := List.countP_append

theorem keepers_cons (c : Char) (t : Text) : keepers (c :: t) = keepers t + if c = '\\' ∨ c = '\'' then 1 else 0 := by
  simp [keepers, List.countP_cons]

/-- Whether a text is read with as many backslashes and single quotes or fewer, and with fewer if a double quote is kept. -/
def LosesKeepers (t read : Text) : Prop := keepers read ≤ keepers t ∧ ('"' ∈ read → keepers read < keepers t)

theorem losesKeepers_of_lt {t read : Text} (h : keepers read < keepers t) : LosesKeepers t read := ⟨Nat.le_of_lt h, fun _ => h⟩

theorem losesKeepers_nil (t : Text) : LosesKeepers t [] := ⟨Nat.zero_le _, fun h => absurd h List.not_mem_nil⟩

theorem losesKeepers_self {t : Text} (h : '"' ∉ t) : LosesKeepers t t := ⟨Nat.le_refl _, fun hmem => absurd hmem h⟩

theorem LosesKeepers.append {t u read read' : Text} (h : LosesKeepers t read) (h' : LosesKeepers u read') :
    LosesKeepers (t ++ u) (read ++ read') := by
  obtain ⟨hle, hlt⟩ := h
  obtain ⟨hle', hlt'⟩ := h'
  simp only [LosesKeepers, keepers_append, List.mem_append]
  refine ⟨Nat.add_le_add hle hle', ?_⟩
  rintro (hmem | hmem)
  · exact Nat.add_lt_add_of_lt_of_le (hlt hmem) hle'
  · exact Nat.add_lt_add_of_le_of_lt hle (hlt' hmem)

theorem losesKeepers_backslash (c : Char) : LosesKeepers ['\\', c] [c] := by
  refine losesKeepers_of_lt ?_
  rw [keepers_cons '\\', if_pos (.inl rfl)]
  omega

theorem IsQuoted.losesKeepers {t read : Text} (h : IsQuoted t read) : LosesKeepers t read := by
  induction h with
  | nil => exact losesKeepers_nil []
  | @plain c _ _ hc _ ih => exact (losesKeepers_self (t := [c]) (by simpa using Ne.symm hc.1)).append ih
  | @kept c _ _ _ _ ih => exact (losesKeepers_backslash c).append ih
  | joined _ ih => exact (losesKeepers_nil ['\\', '\n']).append ih
  | @literal c _ _ hc _ ih =>
    have hquote : c ≠ '"' := by
      rintro rfl
      nomatch hc.1
    exact (losesKeepers_self (t := ['\\', c]) (by simpa using Ne.symm hquote)).append ih

theorem IsSpelling.losesKeepers {t read : Text} (h : IsSpelling t read) : LosesKeepers t read := by
  induction h with
  | nil => exact losesKeepers_nil []
  | @plain c _ _ hc _ ih => exact (losesKeepers_self (t := [c]) (by simpa using Ne.symm hc.2.1)).append ih
  | @kept c _ _ _ _ ih => exact (losesKeepers_backslash c).append ih
  | joined _ ih => exact (losesKeepers_nil ['\\', '\n']).append ih
  | @single quoted t _ _ _ ih =>
    have hquoted : LosesKeepers ('\'' :: (quoted ++ ['\''])) quoted := by
      refine losesKeepers_of_lt ?_
      rw [keepers_cons, keepers_append, if_pos (.inr rfl)]
      omega
    have happend := hquoted.append ih
    rwa [List.cons_append, List.append_assoc] at happend
  | @double quoted inside t _ hquoted _ ih =>
    have hopen := (losesKeepers_nil ['"']).append (hquoted.losesKeepers.append ((losesKeepers_nil ['"']).append ih))
    exact hopen

/-- The words of a line have no more backslashes and single quotes than the line, and fewer if they keep a double quote. -/
theorem Reads.losesKeepers {line : Text} {words : List Text} (h : Reads line (some words)) : LosesKeepers line words.flatten := by
  generalize hwords : some words = result at h
  induction h generalizing words with
  | nil =>
    obtain rfl := Option.some.inj hwords
    exact losesKeepers_nil []
  | @blank c _ _ _ _ ih => exact (losesKeepers_nil [c]).append (ih hwords)
  | @comment t rest _ _ _ ih =>
    have hrest := (losesKeepers_nil ('#' :: (t ++ ['\n']))).append (ih hwords)
    rwa [List.cons_append, List.append_assoc] at hrest
  | @lastComment t _ =>
    obtain rfl := Option.some.inj hwords
    exact losesKeepers_nil _
  | @word t read rest c _ _ ht _ _ ih =>
    obtain ⟨later, hlater, rfl⟩ := Option.map_eq_some_iff.1 hwords.symm
    exact ht.losesKeepers.append ((losesKeepers_nil [c]).append (ih hlater.symm))
  | @lastWord t read _ ht =>
    obtain rfl := Option.some.inj hwords
    rw [List.flatten_singleton]
    exact ht.losesKeepers
  | leftOpen _ _ _ => nomatch hwords

end ShellWords

namespace Install

open ShellWords

/-- The script for bash that the hook for a directory names. -/
def hookedScript (directory : Text) : Text := directory ++ "/".toList ++ Shell.bash.scriptFile

/-- The words of a hook for a script: a test whether the file is there, and the command that sources it. -/
def hookWords (script : Text) : List Text :=
  ["[".toList, "-f".toList, script, "]".toList, "&&".toList, "source".toList, script]

/-- The hook has the path of the script twice, between quotes. -/
theorem hookBody_bash (directory : Text) :
    hookBody directory .bash =
      "[ -f \"".toList ++ (hookedScript directory ++
        ("\" ] && source \"".toList ++ (hookedScript directory ++ "\"\n".toList))) := by
  have hbody : hookBody directory .bash =
      "[ -f \"".toList ++ hookedScript directory ++ "\" ] && source \"".toList ++ hookedScript directory ++ "\"\n".toList := rfl
  rw [hbody, List.append_assoc, List.append_assoc, List.append_assoc]

/-- A hook for a path that can stand between double quotes has the words for what is read there. -/
theorem split_hookBody {directory inside : Text} (h : IsQuoted (hookedScript directory) inside) :
    split (hookBody directory .bash) = some (hookWords inside) := by
  have htest : ∀ rest, split ("[ -f \"".toList ++ rest) =
      ((splitFrom (.double []) rest).map ("-f".toList :: ·)).map ("[".toList :: ·) := fun _ => rfl
  have hsource : ∀ word rest, splitFrom (.double word) ("\" ] && source \"".toList ++ rest) =
      ((((splitFrom (.double []) rest).map ("source".toList :: ·)).map ("&&".toList :: ·)).map ("]".toList :: ·)).map
        (word.reverse :: ·) := fun _ _ => rfl
  have hend : ∀ word, splitFrom (.double word) "\"\n".toList = some [word.reverse] := fun _ => rfl
  rw [hookBody_bash, htest, h.splitFrom_double, hsource, h.splitFrom_double, hend]
  simp [hookWords]

theorem getLast?_hookedScript (directory : Text) : (hookedScript directory).getLast? = some 'h' := by
  rw [hookedScript, List.getLast?_append_of_ne_nil _ (by decide)]
  rfl

/-- The name of the script stands for itself behind every directory that does. -/
theorem isLiteral_hookedScript_iff (directory : Text) : IsLiteral (hookedScript directory) ↔ IsLiteral directory := by
  have hname : IsLiteral ("/".toList ++ Shell.bash.scriptFile) := by decide
  rw [hookedScript, List.append_assoc]
  constructor
  · rintro ⟨hquote, hchain⟩
    exact ⟨fun hmem => hquote (List.mem_append_left _ hmem), hchain.left_of_append⟩
  · rintro ⟨hquote, hchain⟩
    refine ⟨?_, hchain.append hname.2 ?_⟩
    · exact fun hmem => (List.mem_append.1 hmem).elim hquote hname.1
    · rintro a - b hb -
      obtain rfl : '/' = b := Option.some.inj hb
      decide

/-- A hook with the words for its script names no double quote. -/
theorem quote_not_mem_of_split {directory : Text}
    (h : split (hookBody directory .bash) = some (hookWords (hookedScript directory))) : '"' ∉ hookedScript directory := by
  intro hmem
  obtain ⟨-, hlost⟩ := (split_eq_iff_reads.1 h).losesKeepers
  -- The line has the path twice and neither a backslash nor a single quote besides, just as the words have.
  have hline : keepers (hookBody directory .bash) = keepers (hookedScript directory) + keepers (hookedScript directory) := by
    rw [hookBody_bash]
    simp only [keepers_append]
    rw [show keepers "[ -f \"".toList = 0 from rfl, show keepers "\" ] && source \"".toList = 0 from rfl,
      show keepers "\"\n".toList = 0 from rfl]
    omega
  have hwords : keepers (hookWords (hookedScript directory)).flatten =
      keepers (hookedScript directory) + keepers (hookedScript directory) := by
    simp only [hookWords, List.flatten_cons, List.flatten_nil, keepers_append]
    rw [show keepers "[".toList = 0 from rfl, show keepers "-f".toList = 0 from rfl, show keepers "]".toList = 0 from rfl,
      show keepers "&&".toList = 0 from rfl, show keepers "source".toList = 0 from rfl, show keepers [] = 0 from rfl]
    omega
  have hkept : '"' ∈ (hookWords (hookedScript directory)).flatten :=
    List.mem_flatten.2 ⟨_, by simp [hookWords], hmem⟩
  exact absurd (hlost hkept) (by omega)

theorem split_hookBody_eq_iff (directory : Text) :
    split (hookBody directory .bash) = some (hookWords (hookedScript directory)) ↔ IsLiteral directory := by
  have hlast : (hookedScript directory).getLast? ≠ some '\\' := by
    rw [getLast?_hookedScript]
    decide
  rw [← isLiteral_hookedScript_iff, ← isQuoted_self_iff hlast]
  constructor
  · intro h
    obtain ⟨inside, hinside⟩ := exists_isQuoted (quote_not_mem_of_split h) hlast
    rw [split_hookBody hinside] at h
    obtain rfl : inside = hookedScript directory := by simpa [hookWords] using h
    exact hinside
  · exact split_hookBody

/-- The script that the hook names stands where the script is written. -/
theorem placeOf_hookedScript {directory : Text} (h : directory ≠ []) (t : FileTree) :
    t.placeOf (hookedScript directory) = t.placeOf (FilePath.join directory Shell.bash.scriptFile) := by
  have hname : FilePath.IsName Shell.bash.scriptFile := by decide
  have hpath : hookedScript directory = directory ++ '/' :: Shell.bash.scriptFile := by
    rw [hookedScript, List.append_assoc]
    rfl
  have horigin : t.origin (hookedScript directory) = t.origin directory := by
    rw [hpath, FileTree.origin, FileTree.origin, FilePath.isAbsolute, FilePath.isAbsolute, List.head?_append_of_ne_nil _ h]
  rw [FileTree.placeOf_join hname, FileTree.placeOf, horigin, hpath, FilePath.steps_append_cons, hname.steps,
    FilePath.follow_append, ← FileTree.placeOf]
  exact FilePath.follow_of_not_mem (by simpa using Ne.symm hname.2.2.2) _

/-- The hook for bash is the test whether a script is there and the command that sources it, and nothing else, just if every
character of the directory stands for itself between double quotes; this script is the one that is written into the directory. -/
theorem hook_sources_script_iff (directory : Text) :
    (split (hookBody directory .bash) = some (hookWords (hookedScript directory)) ↔ IsLiteral directory) ∧
      (directory ≠ [] → ∀ t : FileTree,
        t.placeOf (hookedScript directory) = t.placeOf (FilePath.join directory Shell.bash.scriptFile)) :=
  ⟨split_hookBody_eq_iff directory, placeOf_hookedScript⟩

/-- A single quote, a blank and a backslash that keeps nothing stand for themselves. -/
theorem hook_sources_script_apostrophe :
    split (hookBody "it's \\here/".toList .bash) = some (hookWords "it's \\here//devx.bash".toList) :=
  (hook_sources_script_iff "it's \\here/".toList).1.2 (by decide)

/-- A double quote in the directory ends the quoted text, and all the rest of the line is the operand of the test. -/
theorem not_hook_sources_script_quote :
    split (hookBody "a\"b".toList .bash) ≠ some (hookWords (hookedScript "a\"b".toList)) ∧
      split (hookBody "a\"b".toList .bash) =
        some ["[".toList, "-f".toList, "ab/devx.bash ] && source ab/devx.bash".toList] := by
  decide

end Install

end DevWorkflow
