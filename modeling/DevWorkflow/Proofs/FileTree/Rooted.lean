import DevWorkflow.Proofs.FileTree.Places

/-!
# Rooted trees

In a rooted tree whatever stands anywhere stands in a directory, and so on up to the root. A path without steps up then leads to
what stands at its place, unless the system does not take it: if it leads to a file later, and nothing is found at it now, then
there is nothing at its place now (`FileTree.IsRooted.lookup_of_not_pathExists`). A step up out of a directory that is not there
leads nowhere, though, until the directory is made.
-/

namespace DevWorkflow

namespace FileTree

/-- Whether everything in a tree stands in a directory. -/
def IsRooted (t : FileTree) : Prop := ∀ e ∈ t.entries, t.lookup e.1.dropLast = some .directory

instance (t : FileTree) : Decidable t.IsRooted := inferInstanceAs (Decidable (∀ e ∈ t.entries, _ = _))

namespace IsRooted

variable {t t' : FileTree}

/-- What stands in a directory is listed under its place. -/
theorem lookup_of_concat (h : t.IsRooted) {folder : List Text} {name : Text} (hthere : t.lookup (folder ++ [name]) ≠ none) :
    t.lookup folder = some .directory := by
  rw [lookup, if_neg (by simp)] at hthere
  cases hfind : t.entries.find? fun e => e.1 = folder ++ [name] with
  | none => simp [hfind] at hthere
  | some e =>
    have hplace : e.1 = folder ++ [name] := by simpa using List.find?_some hfind
    have hdirectory := h e (List.mem_of_find?_eq_some hfind)
    rwa [hplace, List.dropLast_concat] at hdirectory

/-- On the way down to what is there, there are directories. -/
theorem lookup_of_append (h : t.IsRooted) {place more : List Text} (hne : more ≠ []) (hthere : t.lookup (place ++ more) ≠ none) :
    t.lookup place = some .directory := by
  induction more generalizing place with
  | nil => exact absurd rfl hne
  | cons part rest ih =>
    rw [← List.singleton_append, ← List.append_assoc] at hthere
    by_cases hrest : rest = []
    · rw [hrest, List.append_nil] at hthere
      exact h.lookup_of_concat hthere
    · have hnext : t.lookup (place ++ [part]) ≠ none := by simp [ih hrest hthere]
      exact h.lookup_of_concat hnext

/-- Steps that do not go up lead to what is there, if they lead later to a file at this place. -/
theorem walk_of_later (h : t.IsRooted) {parts start stop : List Text} (hup : "..".toList ∉ parts)
    (hthere : t.lookup stop ≠ none) (hfile : t'.lookup stop ≠ some .directory) (hw : t'.walk start parts = .ok stop) :
    t.walk start parts = .ok stop := by
  induction parts generalizing start with
  | nil => exact hw
  | cons part rest ih =>
    have hstop : stop = start ++ (part :: rest).filter (· ≠ ['.']) := by
      rw [← FilePath.follow_of_not_mem hup, follow_of_walk hw]
    obtain ⟨hpart, hrest⟩ := not_or.1 (mt List.mem_cons.2 hup)
    rw [walk] at hw ⊢
    cases hl : t'.lookup start with
    | none => simp [hl] at hw
    | some entry =>
      cases entry with
      | file content => simp [hl] at hw
      | directory =>
        -- The steps go on down, since they end at what is no directory later.
        have hmore : (part :: rest).filter (· ≠ ['.']) ≠ [] := by
          intro hnone
          rw [hnone, List.append_nil] at hstop
          subst hstop
          exact hfile hl
        have hstart : t.lookup start = some .directory := h.lookup_of_append hmore (hstop ▸ hthere)
        simp only [hl] at hw
        simp only [hstart]
        split at hw
        · cases hw
        · next hlong =>
          rw [if_neg hlong]
          split at hw
          · next hdot =>
            rw [if_pos hdot]
            exact ih hrest hw
          · next hdot =>
            rw [if_neg (Ne.symm hpart)] at hw
            rw [if_neg hdot, if_neg (Ne.symm hpart)]
            exact ih hrest hw

/-- If nothing is found at a path without steps up, and the path leads later to a place without a directory, then there is nothing
at this place. -/
theorem lookup_of_not_pathExists (h : t.IsRooted) (hkeeps : KeepsDirectories t t') {path : Text} {place : List Text}
    (hnot : t.pathExists path = false) (hup : "..".toList ∉ FilePath.steps path) (hl : t'.locateFile path = .ok place)
    (hfile : t'.lookup place ≠ some .directory) : t.lookup place = none := by
  by_contra hthere
  obtain ⟨hslash, hlocate⟩ := locateFile_eq_ok_iff.1 hl
  obtain ⟨htaken, hwalk⟩ := locate_eq_ok_iff.1 hlocate
  rw [hkeeps.origin] at hwalk
  have hlocate' : t.locate path = .ok place := locate_eq_ok_iff.2 ⟨htaken, h.walk_of_later hup hthere hfile hwalk⟩
  obtain ⟨entry, hentry⟩ := Option.ne_none_iff_exists'.1 hthere
  cases entry <;> simp [pathExists, entryAt?, hlocate', hentry, hslash] at hnot

end IsRooted

end FileTree

end DevWorkflow
