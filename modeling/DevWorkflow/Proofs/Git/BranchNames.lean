import DevWorkflow.Branch
import DevWorkflow.Proofs.Text.Splitting
import DevWorkflow.Settings.Basic

/-!
# Names of branches with a prefix

Which names a branch can have and which prefixes are accepted is decided apart, and less is asked of a prefix. So a name that a
branch can have may be one that it cannot have once the prefix stands before it: just if the prefix has a blank or two slashes in a
row, or the name begins with a slash (`Settings.branchDefect?_prefixedBranch`).
-/

namespace DevWorkflow

/-! ## Names that a branch can have -/

/-- Whether a branch can have a name. -/
structure IsBranchName (name : Text) : Prop where
  ne_nil : name ≠ []
  noDashFirst : name.head? ≠ some '-'
  noSlashLast : name.getLast? ≠ some '/'
  noDots : ¬"..".toList <:+: name
  noSlashes : ¬"//".toList <:+: name
  noBlanks : ∀ c ∈ name, Text.isBlank c = false

/-- Whether a text has two dots or two slashes in a row, or a blank. -/
def HasBadSequence (t : Text) : Prop := "..".toList <:+: t ∨ "//".toList <:+: t ∨ ∃ c ∈ t, Text.isBlank c = true

theorem not_hasBadSequence_iff {t : Text} :
    ¬HasBadSequence t ↔ ¬"..".toList <:+: t ∧ ¬"//".toList <:+: t ∧ ∀ c ∈ t, Text.isBlank c = false := by
  simp [HasBadSequence]

/-- What is still asked of a name once its first and last characters are known to be fine. -/
theorem branchDefect?_of_edges {name : Text} (hne : name ≠ []) (hfirst : name.head? ≠ some '-') (hlast : name.getLast? ≠ some '/') :
    branchDefect? name = none ∧ ¬HasBadSequence name ∨ branchDefect? name = some .sequence ∧ HasBadSequence name := by
  have hempty : name.isEmpty = false := List.isEmpty_eq_false_iff.2 hne
  have hbad : (Text.contains "..".toList name || Text.contains "//".toList name || name.any Text.isBlank) = true ↔
      HasBadSequence name := by
    simp only [HasBadSequence, Bool.or_eq_true, Text.contains_eq_true_iff, List.any_eq_true, or_assoc]
  unfold branchDefect?
  simp only [hempty, hfirst, hlast, Bool.false_eq_true, if_false, decide_false, Bool.or_false]
  split
  · next h => exact .inr ⟨rfl, hbad.1 h⟩
  · next h => exact .inl ⟨rfl, hbad.not.1 h⟩

theorem branchDefect?_eq_none_iff {name : Text} : branchDefect? name = none ↔ IsBranchName name := by
  constructor
  · intro h
    have hedges : name ≠ [] ∧ name.head? ≠ some '-' ∧ name.getLast? ≠ some '/' := by
      unfold branchDefect? at h
      split at h
      · nomatch h
      · split at h
        · nomatch h
        · simp_all
    obtain ⟨hne, hfirst, hlast⟩ := hedges
    rcases branchDefect?_of_edges hne hfirst hlast with ⟨-, hgood⟩ | ⟨hsome, -⟩
    · obtain ⟨hdots, hslashes, hblanks⟩ := not_hasBadSequence_iff.1 hgood
      exact ⟨hne, hfirst, hlast, hdots, hslashes, hblanks⟩
    · nomatch h.symm.trans hsome
  · intro h
    rcases branchDefect?_of_edges h.ne_nil h.noDashFirst h.noSlashLast with ⟨hnone, -⟩ | ⟨-, hbad⟩
    · exact hnone
    · exact absurd hbad (not_hasBadSequence_iff.2 ⟨h.noDots, h.noSlashes, h.noBlanks⟩)

/-! ## What stands before a name -/

namespace Settings

variable {s : Settings}

/-- An accepted prefix has no two dots in a row and does not begin with a dash. -/
theorem branchPrefix_of_accepted (hs : s.defect? = none) :
    ¬"..".toList <:+: s.git.branchPrefix ∧ s.git.branchPrefix.head? ≠ some '-' := by
  have hgit : gitDefect? s.git = none := (Option.or_eq_none_iff.1 hs).1
  unfold gitDefect? at hgit
  split at hgit
  · nomatch hgit
  · split at hgit
    · nomatch hgit
    · split at hgit
      · nomatch hgit
      · next hfine =>
        rw [Bool.or_eq_true, not_or, Text.contains_eq_true_iff, decide_eq_true_eq] at hfine
        exact hfine

/-- What is left of an accepted prefix without the slashes at its end, if anything is. -/
theorem of_branchPrefix? (hs : s.defect? = none) {start : Text} (h : s.branchPrefix? = some start) :
    start ≠ [] ∧ start.head? ≠ some '-' ∧ start.getLast? ≠ some '/' ∧ ¬"..".toList <:+: start := by
  obtain ⟨hdots, hdash⟩ := branchPrefix_of_accepted hs
  unfold branchPrefix? at h
  dsimp only at h
  split at h
  · nomatch h
  · next hne =>
    obtain rfl := Option.some.inj h
    have hstart : Text.dropEndWhile (· = '/') s.git.branchPrefix <+: s.git.branchPrefix := Text.dropEndWhile_prefix _ _
    have hne' : Text.dropEndWhile (· = '/') s.git.branchPrefix ≠ [] := fun hnil => hne (List.isEmpty_iff.2 hnil)
    refine ⟨hne', ?_, ?_, fun hstands => hdots (hstands.trans hstart.isInfix)⟩
    · obtain ⟨rest, hrest⟩ := hstart
      rwa [← hrest, List.head?_append_of_ne_nil _ hne'] at hdash
    · intro hlast
      simpa using Text.eq_false_of_getLast?_dropEndWhile hlast

end Settings

/-- Whether a name is still one that a branch can have when a prefix and a slash stand before it. -/
structure FitsBefore (start name : Text) : Prop where
  noBlanks : ∀ c ∈ start, Text.isBlank c = false
  noSlashes : ¬"//".toList <:+: start
  apart : name.head? ≠ some '/'

namespace IsBranchName

variable {start name : Text}

/-- Two dots in a row would stand in the prefix or in the name. -/
theorem noDots_prefixed (h : IsBranchName name) (hstart : ¬"..".toList <:+: start) : ¬"..".toList <:+: start ++ '/' :: name := by
  intro hdots
  rcases (Text.pair_infix_append_iff (a := '.')).1 hdots with hdots | hdots | ⟨-, hslash⟩
  · exact hstart hdots
  · rcases (Text.pair_infix_append_iff (t := ['/'])).1 hdots with hdots | hdots | ⟨hslash, -⟩
    · exact absurd hdots (by decide)
    · exact h.noDots hdots
    · nomatch hslash
  · nomatch hslash

/-- Two slashes in a row stand in the prefix, or the second of them begins the name. -/
theorem slashes_prefixed_iff (h : IsBranchName name) (hstart : start.getLast? ≠ some '/') :
    "//".toList <:+: start ++ '/' :: name ↔ "//".toList <:+: start ∨ name.head? = some '/' := by
  have hbehind : "//".toList <:+: '/' :: name ↔ name.head? = some '/' := by
    refine (Text.pair_infix_append_iff (t := ['/']) (u := name)).trans ⟨?_, fun hfirst => .inr (.inr ⟨rfl, hfirst⟩)⟩
    rintro (hslashes | hslashes | ⟨-, hfirst⟩)
    · exact absurd hslashes (by decide)
    · exact absurd hslashes h.noSlashes
    · exact hfirst
  refine Text.pair_infix_append_iff.trans (or_congr_right ?_)
  rw [← hbehind]
  exact or_iff_left fun hmeet => hstart hmeet.1

/-- The name with the prefix has nothing bad in it just if the prefix fits before the name. -/
theorem not_hasBadSequence_prefixed_iff (h : IsBranchName name) (hslash : start.getLast? ≠ some '/')
    (hdots : ¬"..".toList <:+: start) : ¬HasBadSequence (start ++ '/' :: name) ↔ FitsBefore start name := by
  rw [not_hasBadSequence_iff, h.slashes_prefixed_iff hslash, not_or]
  constructor
  · rintro ⟨-, ⟨hslashes, hapart⟩, hblanks⟩
    exact ⟨fun c hc => hblanks c (List.mem_append_left _ hc), hslashes, hapart⟩
  · intro hfits
    refine ⟨h.noDots_prefixed hdots, ⟨hfits.noSlashes, hfits.apart⟩, fun c hc => ?_⟩
    rcases List.mem_append.1 hc with hc | hc
    · exact hfits.noBlanks c hc
    · rcases List.mem_cons.1 hc with rfl | hc
      · decide
      · exact h.noBlanks c hc

/-- A prefix leaves a name one that a branch can have just if it fits before the name; if it does not, there is a blank or there are
two slashes in a row. -/
theorem branchDefect?_prefixed (h : IsBranchName name) (hne : start ≠ []) (hdash : start.head? ≠ some '-')
    (hslash : start.getLast? ≠ some '/') (hdots : ¬"..".toList <:+: start) :
    (branchDefect? (start ++ '/' :: name) = none ↔ FitsBefore start name) ∧
      (¬FitsBefore start name → branchDefect? (start ++ '/' :: name) = some .sequence) := by
  have hmore : start ++ '/' :: name ≠ [] := List.append_ne_nil_of_right_ne_nil start (List.cons_ne_nil _ _)
  have hfirst : (start ++ '/' :: name).head? ≠ some '-' := by rwa [List.head?_append_of_ne_nil _ hne]
  have hlast : (start ++ '/' :: name).getLast? ≠ some '/' := by
    rw [List.getLast?_append_cons, List.getLast?_cons_of_ne_nil h.ne_nil]
    exact h.noSlashLast
  rw [← h.not_hasBadSequence_prefixed_iff hslash hdots]
  rcases branchDefect?_of_edges hmore hfirst hlast with ⟨hnone, hgood⟩ | ⟨hsome, hbad⟩
  · exact ⟨iff_of_true hnone hgood, fun hnot => absurd hgood hnot⟩
  · exact ⟨iff_of_false (by simp [hsome]) (not_not_intro hbad), fun _ => hsome⟩

end IsBranchName

/-- With accepted settings, a name that a branch can have is still one with the configured prefix, unless the prefix has a blank or
two slashes in a row (but for the slashes at its end, which are left out), or there is a prefix and the name begins with a slash.
Then the name that git is given has a blank or two slashes in a row. -/
theorem Settings.branchDefect?_prefixedBranch {s : Settings} (hs : s.defect? = none) {name : Text}
    (hname : branchDefect? name = none) :
    (branchDefect? (s.prefixedBranch name) = none ↔ ∀ start ∈ s.branchPrefix?, FitsBefore start name) ∧
      ((∃ start ∈ s.branchPrefix?, ¬FitsBefore start name) → branchDefect? (s.prefixedBranch name) = some .sequence) := by
  unfold prefixedBranch
  cases hstart : s.branchPrefix? with
  | none => exact ⟨iff_of_true hname nofun, nofun⟩
  | some start =>
    obtain ⟨hne, hdash, hslash, hdots⟩ := of_branchPrefix? hs hstart
    obtain ⟨hiff, hnot⟩ := (branchDefect?_eq_none_iff.1 hname).branchDefect?_prefixed hne hdash hslash hdots
    simpa using ⟨hiff, hnot⟩

/-- Settings of a team whose prefix ends with slashes. -/
def teamSettings : Settings := { Settings.default with git.branchPrefix := "team/web//".toList }

/-- The slashes at the end of the prefix do no harm. -/
theorem Settings.branchDefect?_prefixedBranch_team :
    teamSettings.defect? = none ∧ branchDefect? "fix/login".toList = none ∧
      branchDefect? (teamSettings.prefixedBranch "fix/login".toList) = none := by
  have hs : teamSettings.defect? = none := by decide
  have hname : branchDefect? "fix/login".toList = none := by decide
  have hstart : teamSettings.branchPrefix? = some "team/web".toList := by decide
  refine ⟨hs, hname, (branchDefect?_prefixedBranch hs hname).1.2 ?_⟩
  intro start hmem
  obtain rfl := Option.some.inj (hstart.symm.trans hmem)
  have hblanks : "team/web".toList.all (fun c => Text.isBlank c = false) = true := by decide
  exact ⟨fun c hc => of_decide_eq_true (List.all_eq_true.1 hblanks c hc), Text.contains_eq_true_iff.not.1 (by decide), by decide⟩

/-- A prefix with a space is accepted, but makes of a good name one that no branch can have. -/
theorem Settings.branchDefect?_prefixedBranch_space :
    let s : Settings := { Settings.default with git.branchPrefix := "my team".toList }
    s.defect? = none ∧ branchDefect? "login".toList = none ∧ branchDefect? (s.prefixedBranch "login".toList) = some .sequence := by
  decide

end DevWorkflow
