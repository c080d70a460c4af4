import DevWorkflow.Proofs.FileTree.Places
import DevWorkflow.Proofs.Git.BranchNames
import DevWorkflow.Worktree

/-!
# Places of worktrees

Where the worktree of a branch is put if nothing is said: below the repository's root and the directory for worktrees, at the parts
of the branch's name, none of which goes up (`Worktree.defaultPath_spec`). But a branch can have a name that begins with a slash, and
then its worktree is put there, wherever the root is; and a name of single dots leads to the directory for worktrees itself.
-/

namespace DevWorkflow

namespace FilePath

/-- Whether a path is another one with more parts behind it, none of which goes up. -/
structure IsStrictlyBelow (path above : Text) : Prop where
  anchor : anchor path = anchor above
  parts : ∃ more, more ≠ [] ∧ "..".toList ∉ more ∧ parts path = parts above ++ more

/-- A slash and what follows it leave the anchor of a path as it is. -/
theorem anchor_append_slash {path : Text} (h : path ≠ []) (rest : Text) :
    FilePath.anchor (path ++ '/' :: rest) = FilePath.anchor path := by
  obtain ⟨c, path, rfl⟩ := List.exists_cons_of_ne_nil h
  unfold FilePath.anchor
  cases path with
  | nil => split <;> simp_all
  | cons d path => split <;> simp_all

/-- A path below another one has its anchor, unless the other one is empty. -/
theorem anchor_join {path name : Text} (hname : isAbsolute name = false) (hpath : path ≠ []) :
    FilePath.anchor (join path name) = FilePath.anchor path := by
  rw [join, if_neg (by simp [hname]), List.isEmpty_eq_false_iff.2 hpath, Bool.false_or]
  split
  · next hslash =>
    obtain ⟨above, rfl⟩ := List.getLast?_eq_some_iff.1 (of_decide_eq_true hslash)
    rw [List.append_assoc, List.singleton_append]
    cases above with
    | nil => rfl  -- the path is the root, whose slash is the anchor
    | cons c above =>
      have hne : c :: above ≠ [] := List.cons_ne_nil c above
      rw [anchor_append_slash hne, anchor_append_slash hne]
  · exact anchor_append_slash hpath name

/-- The steps of a text without two dots in a row do not go up. -/
theorem dots_not_mem_steps {path : Text} (h : ¬"..".toList <:+: path) : "..".toList ∉ steps path := by
  intro hup
  exact h (Text.infix_of_mem_splitAt (List.mem_filter.1 hup).1)

/-- A path is below another one if it does not go up from there and leads anywhere. -/
theorem isStrictlyBelow_join_iff {path name : Text} (hname : isAbsolute name = false) (hpath : path ≠ [])
    (hup : "..".toList ∉ parts name) : IsStrictlyBelow (join path name) path ↔ parts name ≠ [] := by
  constructor
  · rintro ⟨-, more, hmore, -, hparts⟩ hnone
    rw [parts_join hname, hnone] at hparts
    exact hmore (List.append_cancel_left hparts).symm
  · intro hne
    exact ⟨anchor_join hname hpath, parts name, hne, hup, parts_join hname path⟩

end FilePath

namespace Worktree

open FilePath

/-- The directory for worktrees is one step below the root. -/
theorem isName_directory : IsName directory := by decide

theorem join_directory_ne_nil (root : Text) : join root directory ≠ [] := by
  have hdirectory : directory ≠ [] := isName_directory.1
  rw [join, if_neg (by decide)]
  split <;> simp [hdirectory]

/-- The anchor of a path is kept below the directory for worktrees, also if the path is empty. -/
theorem anchor_join_directory (root : Text) : anchor (join root directory) = anchor root := by
  by_cases hroot : root = []
  · subst hroot
    decide
  · exact anchor_join isName_directory.isAbsolute hroot

/-- The worktree of a branch whose name does not begin with a slash is put below the repository's root and the directory for
worktrees, at the parts of the name, and strictly below that directory just if the name has parts. If the name begins with a slash,
it says by itself where the worktree is put. -/
theorem defaultPath_spec {branch : Text} (h : branchDefect? branch = none) (root : Text) :
    (isAbsolute branch = false →
      anchor (defaultPath root branch) = anchor root ∧
        parts (defaultPath root branch) = parts root ++ directory :: parts branch ∧
        "..".toList ∉ parts branch ∧
        (∀ t : FileTree, t.placeOf (defaultPath root branch) = t.placeOf root ++ directory :: parts branch) ∧
        (IsStrictlyBelow (defaultPath root branch) (join root directory) ↔ parts branch ≠ [])) ∧
      (isAbsolute branch = true → defaultPath root branch = branch) := by
  have hsteps : "..".toList ∉ steps branch := dots_not_mem_steps (branchDefect?_eq_none_iff.1 h).noDots
  have hup : "..".toList ∉ parts branch := by
    rw [parts_eq]
    exact fun hmem => hsteps (List.mem_of_mem_filter hmem)
  constructor
  · intro hrelative
    refine ⟨?_, ?_, hup, fun t => ?_, isStrictlyBelow_join_iff hrelative (join_directory_ne_nil root) hup⟩
    · rw [defaultPath, anchor_join hrelative (join_directory_ne_nil root), anchor_join_directory]
    · rw [defaultPath, parts_join hrelative, parts_join isName_directory.isAbsolute, isName_directory.parts, List.append_assoc,
        List.singleton_append]
    · rw [defaultPath, FileTree.placeOf_join_of_relative hrelative hsteps, FileTree.placeOf_join isName_directory,
        List.append_assoc, List.singleton_append]
  · intro habsolute
    rw [defaultPath, join, if_pos habsolute]

/-- Single dots in a name are passed over. -/
theorem defaultPath_spec_dot :
    branchDefect? "web/./login".toList = none ∧ isAbsolute "web/./login".toList = false ∧
      parts (defaultPath "/srv/repo/".toList "web/./login".toList) =
        ["srv".toList, "repo".toList, directory, "web".toList, "login".toList] ∧
      IsStrictlyBelow (defaultPath "/srv/repo/".toList "web/./login".toList) (join "/srv/repo/".toList directory) := by
  have h : branchDefect? "web/./login".toList = none := by decide
  obtain ⟨-, hparts, -, -, hbelow⟩ := (defaultPath_spec h "/srv/repo/".toList).1 (by decide)
  exact ⟨h, by decide, hparts.trans (by decide), hbelow.2 (by decide)⟩

/-- A branch can have a name that leads away from the root of the repository, and one that leads to the directory for worktrees
itself. -/
theorem not_isStrictlyBelow_defaultPath_slash_dot :
    (branchDefect? "/etc".toList = none ∧ defaultPath "/repo".toList "/etc".toList = "/etc".toList ∧
      ¬IsStrictlyBelow (defaultPath "/repo".toList "/etc".toList) (join "/repo".toList directory)) ∧
    (branchDefect? ".".toList = none ∧
      parts (defaultPath "/repo".toList ".".toList) = parts (join "/repo".toList directory) ∧
      ¬IsStrictlyBelow (defaultPath "/repo".toList ".".toList) (join "/repo".toList directory)) := by
  refine ⟨⟨by decide, by decide, ?_⟩, by decide, by decide, ?_⟩
  · rintro ⟨-, more, -, -, hparts⟩
    have hetc : parts (defaultPath "/repo".toList "/etc".toList) = ["etc".toList] := by decide
    have hrepo : parts (join "/repo".toList directory) = ["repo".toList, directory] := by decide
    rw [hetc, hrepo] at hparts
    exact absurd (List.cons.inj hparts).1 (by decide)
  · rintro ⟨-, more, hmore, -, hparts⟩
    have hdot : parts (defaultPath "/repo".toList ".".toList) = parts (join "/repo".toList directory) ++ [] := by decide
    exact hmore (List.append_cancel_left (hdot.symm.trans hparts)).symm

end Worktree

end DevWorkflow
