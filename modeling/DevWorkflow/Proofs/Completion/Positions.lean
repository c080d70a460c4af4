import DevWorkflow.Proofs.Completion.Validity
import Mathlib.Data.Set.Function

/-!
# Positions in a tree

A command stands in a tree at a position, the numbers of the subcommands through which it is reached from the root. The commands of a
tree are those at its positions (`CommandTree.mem_commands_iff_at?`); equal ones may stand at different positions, so a position is
what tells them apart. A path of names leads to a position as the look-up of names does, at each name by the first subcommand that
has it. In a valid tree the names on the way to a command are the one path that leads to its position
(`CommandTree.position?_eq_some_iff`), so that no command is hidden by a sibling.
-/

namespace DevWorkflow

/-- Where names are different, a name is found at the place of the only element that has it. -/
theorem findIdx?_eq_some_iff_of_nodup {α : Type} {name : α → Text} {as : List α} (h : (as.map name).Nodup) {n : Text} {k : Nat} :
    (as.findIdx? fun a => name a = n) = some k ↔ ∃ a, as[k]? = some a ∧ name a = n := by
  rw [List.findIdx?_eq_some_iff_getElem]
  constructor
  · rintro ⟨hk, hname, -⟩
    exact ⟨as[k], List.getElem?_eq_getElem hk, by simpa using hname⟩
  · rintro ⟨a, ha, hname⟩
    obtain ⟨hk, rfl⟩ := List.getElem?_eq_some_iff.1 ha
    refine ⟨hk, by simpa using hname, fun j hj hother => ?_⟩
    have hapart := List.nodup_iff_getElem?_ne_getElem?.1 h j k hj (by simpa using hk)
    have hj' : j < as.length := hj.trans hk
    have hsame : name as[j] = name as[k] := (by simpa using hother : name as[j] = n).trans hname.symm
    exact hapart (by simp [hj', hk, hsame])

namespace CommandTree

/-- The command at a position. -/
def at? (t : CommandTree) : List Nat → Option CommandTree
  | [] => some t
  | k :: rest => t.subcommands[k]?.bind fun c => c.at? rest

/-- The names of the commands on the way from the root to a position, the root's left out. -/
def namesTo (t : CommandTree) : List Nat → List Text
  | [] => []
  | k :: rest => (t.subcommands[k]?.map fun c => c.name :: c.namesTo rest).getD []

/-- The position to which a path of names leads. -/
def position? (t : CommandTree) : List Text → Option (List Nat)
  | [] => some []
  | name :: path =>
    (t.subcommands.findIdx? fun c => c.name = name).bind fun k =>
      t.subcommands[k]?.bind fun c => (c.position? path).map (k :: ·)

/-- The commands of a tree are those at its positions. -/
theorem mem_commands_iff_at? {t c : CommandTree} : c ∈ t.commands ↔ ∃ i, t.at? i = some c := by
  induction t using induction_below with
  | step t ih =>
    rw [commands_eq, List.mem_cons, List.mem_flatMap]
    constructor
    · rintro (rfl | ⟨s, hs, hc⟩)
      · exact ⟨[], rfl⟩
      · obtain ⟨k, hk⟩ := List.mem_iff_getElem?.1 hs
        obtain ⟨i, hi⟩ := (ih s hs).1 hc
        exact ⟨k :: i, by rw [at?, hk, Option.bind_some, hi]⟩
    · rintro ⟨_ | ⟨k, rest⟩, hi⟩
      · exact .inl (Option.some.inj hi).symm
      · obtain ⟨s, hk, hc⟩ := Option.bind_eq_some_iff.1 hi
        have hs := List.mem_of_getElem? hk
        exact .inr ⟨s, hs, (ih s hs).2 ⟨rest, hc⟩⟩

/-- A path of names leads to the command at the position to which it leads. -/
theorem find?_eq_at?_position? (t : CommandTree) (p : List Text) : t.find? p = (t.position? p).bind t.at? := by
  induction p generalizing t with
  | nil => rfl
  | cons name path ih =>
    rw [find?, position?, child?, List.find?_eq_bind_findIdx?_getElem?]
    cases t.subcommands.findIdx? fun c => c.name = name with
    | none => rfl
    | some k =>
      cases hc : t.subcommands[k]? with
      | none => simp [hc]
      | some c =>
        simp only [Option.bind_some, hc, ih c, Option.bind_map]
        refine Option.bind_congr fun i _ => ?_
        simp [at?, hc]

/-- Where siblings have different names, a path leads through the only one that has its first name. -/
theorem position?_cons_eq_some_iff {t : CommandTree} (h : (t.subcommands.map (·.name)).Nodup) {name : Text} {path : List Text}
    {i : List Nat} : t.position? (name :: path) = some i ↔
      ∃ k c rest, i = k :: rest ∧ t.subcommands[k]? = some c ∧ c.name = name ∧ c.position? path = some rest := by
  simp only [position?, Option.bind_eq_some_iff, Option.map_eq_some_iff, findIdx?_eq_some_iff_of_nodup h]
  constructor
  · rintro ⟨k, ⟨c, hc, hname⟩, d, hd, rest, hrest, rfl⟩
    obtain rfl : c = d := Option.some.inj (hc.symm.trans hd)
    exact ⟨k, c, rest, rfl, hc, hname, hrest⟩
  · rintro ⟨k, c, rest, rfl, hc, hname, hrest⟩
    exact ⟨k, ⟨c, hc, hname⟩, c, hc, rest, hrest, rfl⟩

/-- The names on the way to a position below the root begin with that of a subcommand. -/
theorem namesTo_eq_cons_iff {t : CommandTree} {name : Text} {path : List Text} {i : List Nat} :
    (t.at? i).isSome ∧ t.namesTo i = name :: path ↔
      ∃ k c rest, i = k :: rest ∧ t.subcommands[k]? = some c ∧ c.name = name ∧ (c.at? rest).isSome ∧ c.namesTo rest = path := by
  cases i with
  | nil => simp [namesTo]
  | cons k rest => cases hc : t.subcommands[k]? <;> simp [at?, namesTo, hc, and_left_comm]

/-- In a tree of well-formed commands a path leads to a position exactly if a command stands there and the path is made of the names
on the way to it. -/
theorem position?_eq_some_iff {t : CommandTree} (h : ∀ c ∈ t.commands, c.IsWellFormed) (p : List Text) (i : List Nat) :
    t.position? p = some i ↔ (t.at? i).isSome ∧ t.namesTo i = p := by
  induction p generalizing t i with
  | nil =>
    cases i with
    | nil => simp [position?, at?, namesTo]
    | cons k rest => cases hc : t.subcommands[k]? <;> simp [position?, at?, namesTo, hc]
  | cons name path ih =>
    have hsiblings := (h t t.mem_commands_self).siblings
    rw [position?_cons_eq_some_iff hsiblings, namesTo_eq_cons_iff]
    refine exists_congr fun k => exists_congr fun c => exists_congr fun rest => and_congr_right fun _ => ?_
    refine and_congr_right fun hc => and_congr_right fun _ => ih ?_ rest
    exact fun d hd => h d (mem_commands_of_subcommand (List.mem_of_getElem? hc) hd)

/-- The names on the way to a command lead to it, and so every path that leads anywhere is made of the names on the way to one
command. -/
theorem bijOn_namesTo {t : CommandTree} (h : ∀ c ∈ t.commands, c.IsWellFormed) :
    Set.BijOn t.namesTo {i | (t.at? i).isSome} {p | (t.find? p).isSome} := by
  have hfind : ∀ i, (t.at? i).isSome → t.find? (t.namesTo i) = t.at? i := by
    intro i hi
    rw [find?_eq_at?_position?, (position?_eq_some_iff h _ i).2 ⟨hi, rfl⟩, Option.bind_some]
  refine ⟨?_, ?_, ?_⟩
  · intro i hi
    simpa [hfind i hi] using hi
  · intro i hi j hj hsame
    have hi' := (position?_eq_some_iff h _ i).2 ⟨hi, rfl⟩
    have hj' := (position?_eq_some_iff h _ j).2 ⟨hj, rfl⟩
    rw [hsame, hj'] at hi'
    exact (Option.some.inj hi').symm
  · intro p hp
    obtain ⟨c, hc⟩ := Option.isSome_iff_exists.1 hp
    rw [find?_eq_at?_position?] at hc
    obtain ⟨i, hi, -⟩ := Option.bind_eq_some_iff.1 hc
    exact ⟨i, (position?_eq_some_iff h p i).1 hi⟩

/-- A path of two parts leads where its second part leads from where its first part leads, and a path leads to the command at the
position to which it leads; the commands of the tree are those at its positions. In a valid tree the names on the way to a command are
a one-to-one correspondence of the positions with commands and the paths that lead somewhere, and the names on the way to a command are
the one path that leads to its position. -/
theorem find?_bijective (t : CommandTree) :
    (∀ p q, t.find? (p ++ q) = (t.find? p).bind fun c => c.find? q) ∧
    (∀ p, t.find? p = (t.position? p).bind t.at?) ∧
    (∀ c, c ∈ t.commands ↔ ∃ i, t.at? i = some c) ∧
    (t.defect? = none →
      Set.BijOn t.namesTo {i | (t.at? i).isSome} {p | (t.find? p).isSome} ∧
      ∀ i, (t.at? i).isSome → ∀ p, t.position? p = some i ↔ p = t.namesTo i) := by
  refine ⟨t.find?_append, t.find?_eq_at?_position?, fun c => mem_commands_iff_at?, fun hvalid => ?_⟩
  have h := (defect?_eq_none_iff t).1 hvalid
  refine ⟨bijOn_namesTo h, fun i hi p => ?_⟩
  rw [position?_eq_some_iff h]
  exact ⟨fun hp => hp.2.symm, fun hp => ⟨hi, hp.symm⟩⟩

/-- A tree with equal commands in two places. -/
def twinTree : CommandTree :=
  { name := "devx".toList
    subcommands :=
      [{ name := "config".toList, subcommands := [{ name := "list".toList }, { name := "reset".toList }] },
        { name := "worktree".toList, subcommands := [{ name := "add".toList }, { name := "list".toList }] }] }

/-- Equal commands in two places are told apart by their positions, and each has a path of its own. -/
theorem find?_bijective_twinTree :
    twinTree.defect? = none ∧ twinTree.at? [0, 0] = twinTree.at? [1, 1] ∧
      Set.BijOn twinTree.namesTo {i | (twinTree.at? i).isSome} {p | (twinTree.find? p).isSome} ∧
      (∀ p, twinTree.position? p = some [0, 0] ↔ p = ["config".toList, "list".toList]) ∧
      ∀ p, twinTree.position? p = some [1, 1] ↔ p = ["worktree".toList, "list".toList] := by
  have hvalid : twinTree.defect? = none := by decide
  obtain ⟨hbij, hpath⟩ := (find?_bijective twinTree).2.2.2 hvalid
  exact ⟨hvalid, rfl, hbij, hpath [0, 0] rfl, hpath [1, 1] rfl⟩

end CommandTree

end DevWorkflow
