import DevWorkflow.Proofs.FileTree.Parents

/-!
# Files beside each other

The place of a path is that of its parent with the path's last part behind it, so that a path with another name stands in the same
directory (`FileTree.exists_placeOf_withFileName`). A name below a path is the path's last part (`FilePath.fileName?_join`).
-/

namespace DevWorkflow

namespace FilePath

/-! ## The last part -/

theorem IsName.isVoid {name : Text} (h : IsName name) : FilePath.isVoid name = false := by
  unfold FilePath.isVoid
  simp [h.1, h.2.2.1]

/-- What leads somewhere at the end is kept. -/
theorem dropVoidEnd_concat {last : Text} (h : isVoid last = false) (front : List Text) :
    dropVoidEnd (front ++ [last]) = front ++ [last] := by
  unfold dropVoidEnd
  simp [h]

theorem length_anchor_le (path : Text) : (anchor path).length ≤ 1 := by
  unfold anchor
  split <;> simp

/-- A name has no anchor. -/
theorem IsName.anchor {name : Text} (h : IsName name) : FilePath.anchor name = [] := by
  obtain ⟨-, hslash, hdot, -⟩ := h
  unfold FilePath.anchor
  split
  · simp at hslash
  · exact absurd rfl hdot
  · simp at hslash
  · rfl

/-- The last of the pieces of a name below a path is the name. -/
theorem exists_body_join {name : Text} (h : IsName name) (path : Text) : ∃ front, body (join path name) = front ++ [name] := by
  have hname : Text.splitAt (· = '/') name = [name] := by
    refine Text.splitAt_of_forall fun c hc => decide_eq_false ?_
    rintro rfl
    exact h.2.1 hc
  have hlast : ∀ rest : Text, (∃ front, Text.splitAt (· = '/') rest = front ++ [name]) →
      ∃ front, dropVoidEnd (Text.splitAt (· = '/') rest) = front ++ [name] := by
    rintro rest ⟨front, hfront⟩
    exact ⟨front, by rw [hfront, dropVoidEnd_concat h.isVoid]⟩
  -- The name stands alone or behind a slash, and the anchor is at most one character before it.
  have hjoin : join path name = name ∨ ∃ above, join path name = above ++ '/' :: name := by
    rw [join, if_neg (by simp [h.isAbsolute])]
    split
    · next hend =>
      rcases Bool.or_eq_true_iff.1 hend with hempty | hslash
      · left
        simp [List.isEmpty_iff.1 hempty]
      · right
        obtain ⟨above, rfl⟩ := List.getLast?_eq_some_iff.1 (of_decide_eq_true hslash)
        exact ⟨above, by simp⟩
    · exact .inr ⟨path, rfl⟩
  unfold body
  apply hlast
  rcases hjoin with hjoin | ⟨above, hjoin⟩
  · rw [hjoin, h.anchor]
    exact ⟨[], hname⟩
  · rw [hjoin]
    have hlength := length_anchor_le (above ++ '/' :: name)
    rcases Nat.le_one_iff_eq_zero_or_eq_one.1 hlength with hzero | hone
    · rw [hzero, List.drop_zero, Text.splitAt_append_cons above (by decide), hname]
      exact ⟨_, rfl⟩
    · rw [hone]
      cases above with
      | nil => exact ⟨[], hname⟩
      | cons c above =>
        rw [List.cons_append, List.drop_one, List.tail_cons, Text.splitAt_append_cons above (by decide), hname]
        exact ⟨_, rfl⟩

/-- A name below a path is the last part. -/
theorem fileName?_join {name : Text} (h : IsName name) (path : Text) : fileName? (join path name) = some name := by
  obtain ⟨front, hbody⟩ := exists_body_join h path
  unfold fileName?
  rw [hbody, List.getLast?_concat, Option.filter_some, if_pos (decide_eq_true h.2.2.2)]

/-- The last part of a path ends its body and does not go up. -/
theorem exists_body_of_fileName? {path name : Text} (h : fileName? path = some name) :
    (∃ front, body path = front ++ [name]) ∧ name ≠ "..".toList := by
  unfold fileName? at h
  obtain ⟨hlast, hup⟩ := Option.filter_eq_some_iff.1 h
  exact ⟨List.getLast?_eq_some_iff.1 hlast, of_decide_eq_true hup⟩

/-- The parent of a path starts at the root just if the path does. -/
theorem isAbsolute_anchor_append (path : Text) {rest tail : Text} (h : path = anchor path ++ rest ++ tail) :
    isAbsolute path = isAbsolute (anchor path ++ rest) := by
  by_cases hempty : anchor path ++ rest = []
  · have hanchor : anchor path = [] := (List.append_eq_nil_iff.1 hempty).1
    rw [hempty]
    cases path with
    | nil => rfl
    | cons c path =>
      have hc : c ≠ '/' := by
        rintro rfl
        nomatch hanchor
      simp [isAbsolute, hc]
  · obtain ⟨c, more, hmore⟩ := List.exists_cons_of_ne_nil hempty
    rw [hmore] at h ⊢
    rw [h]
    rfl

/-- Pieces that lead nowhere lead back to where they start. -/
theorem follow_steps_of_isVoid {pieces : List Text} (h : ∀ v ∈ pieces, isVoid v = true) (place : List Text) :
    follow place (pieces.flatMap steps) = place := by
  have hsteps : ∀ v ∈ pieces, ∀ step ∈ steps v, step = ['.'] := by
    intro v hv step hstep
    rcases Bool.or_eq_true_iff.1 (h v hv) with hempty | hdot
    · obtain rfl := List.isEmpty_iff.1 hempty
      nomatch hstep
    · obtain rfl := of_decide_eq_true hdot
      exact List.mem_singleton.1 hstep
  have hup : "..".toList ∉ pieces.flatMap steps := by
    intro hmem
    obtain ⟨v, hv, hstep⟩ := List.mem_flatMap.1 hmem
    exact absurd (hsteps v hv _ hstep) (by decide)
  have hnone : (pieces.flatMap steps).filter (· ≠ ['.']) = [] := by
    rw [List.filter_eq_nil_iff]
    intro step hmem
    obtain ⟨v, hv, hstep⟩ := List.mem_flatMap.1 hmem
    simp [hsteps v hv step hstep]
  rw [follow_of_not_mem hup, hnone, List.append_nil]

end FilePath

namespace FileTree

open FilePath

/-! ## Places -/

/-- The place of a path is that of its parent with the last part behind it. -/
theorem placeOf_of_fileName? {path name : Text} (h : fileName? path = some name) (t : FileTree) :
    ∃ above, parent? path = some above ∧ t.placeOf path = t.placeOf above ++ [name] := by
  obtain ⟨⟨front, hbody⟩, hup⟩ := exists_body_of_fileName? h
  obtain ⟨tail, between, voids, hvoid, hpath, hsteps⟩ := exists_tail_of_body hbody
  refine ⟨_, parent?_of_body hbody, ?_⟩
  have hname : ∀ place, follow place (FilePath.steps name) = place ++ [name] := by
    intro place
    have hdot : name ≠ ['.'] := by
      rintro rfl
      nomatch isVoid_of_dropVoidEnd hbody
    rw [steps_of_body hbody, follow, if_neg hdot, if_neg hup, follow]
  have hmore : ∀ place, follow place ((between ++ name :: voids).flatMap FilePath.steps) = place ++ [name] := by
    intro place
    rw [List.flatMap_append, List.flatMap_cons, follow_append, follow_append,
      follow_steps_of_isVoid fun v hv => hvoid v (List.mem_append_left _ hv), hname,
      follow_steps_of_isVoid fun v hv => hvoid v (List.mem_append_right _ hv)]
  unfold placeOf origin
  rw [hsteps, follow_append, hmore, isAbsolute_anchor_append path hpath]

/-- A path with another name leads beside the path. -/
theorem exists_placeOf_withFileName {path name other : Text} (h : fileName? path = some name) (hother : IsName other)
    (t : FileTree) :
    ∃ folder, t.placeOf path = folder ++ [name] ∧ t.placeOf (withFileName path other) = folder ++ [other] := by
  obtain ⟨above, hparent, hplace⟩ := placeOf_of_fileName? h t
  refine ⟨t.placeOf above, hplace, ?_⟩
  unfold withFileName
  rw [h, hparent]
  exact placeOf_join hother t above

end FileTree

end DevWorkflow
