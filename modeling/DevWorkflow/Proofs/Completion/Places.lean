import DevWorkflow.Proofs.Completion.Validity
import Mathlib.Data.List.Perm.Basic

/-!
# The commands of a tree with their places

Every command of a tree stands at a place, the names of the commands that lead to it from the root. `CommandTree.topDown` lists the
commands before those below them, `CommandTree.bottomUp` after them. Both list the same places
(`CommandTree.bottomUp_perm_topDown`), and from the bottom up every command comes after its own subcommands
(`CommandTree.childrenFirst_bottomUp`).
-/

namespace DevWorkflow

/-- A command of a tree with the names that lead to it from the root. -/
structure Place where
  path : List Text
  tree : CommandTree

namespace Place

/-- The place of a subcommand. -/
def child (x : Place) (c : CommandTree) : Place := ⟨x.path ++ [c.name], c⟩

end Place

namespace CommandTree

mutual

/-- The command at a path and all commands below it, each before those below it. -/
def topDown (path : List Text) : CommandTree → List Place
  | t@{ subcommands, .. } => ⟨path, t⟩ :: topDownAll path subcommands

/-- Some subcommands of the command at a path and all commands below them, each before those below it. -/
def topDownAll (path : List Text) : List CommandTree → List Place
  | [] => []
  | c :: rest => topDown (path ++ [c.name]) c ++ topDownAll path rest

end

mutual

/-- The command at a path and all commands below it, each after those below it. -/
def bottomUp (path : List Text) : CommandTree → List Place
  | t@{ subcommands, .. } => bottomUpAll path subcommands ++ [⟨path, t⟩]

/-- Some subcommands of the command at a path and all commands below them, each after those below it. -/
def bottomUpAll (path : List Text) : List CommandTree → List Place
  | [] => []
  | c :: rest => bottomUp (path ++ [c.name]) c ++ bottomUpAll path rest

end

theorem topDownAll_eq (path : List Text) (cs : List CommandTree) :
    topDownAll path cs = cs.flatMap fun c => topDown (path ++ [c.name]) c := by
  induction cs with
  | nil => rfl
  | cons c rest ih => rw [topDownAll, ih, List.flatMap_cons]

/-- The places below a command come after it, one subcommand after another. -/
theorem topDown_eq (path : List Text) (t : CommandTree) :
    topDown path t = ⟨path, t⟩ :: t.subcommands.flatMap fun c => topDown (path ++ [c.name]) c := by
  cases t
  rw [topDown, topDownAll_eq]

theorem bottomUpAll_eq (path : List Text) (cs : List CommandTree) :
    bottomUpAll path cs = cs.flatMap fun c => bottomUp (path ++ [c.name]) c := by
  induction cs with
  | nil => rfl
  | cons c rest ih => rw [bottomUpAll, ih, List.flatMap_cons]

/-- The places below a command come before it, one subcommand after another. -/
theorem bottomUp_eq (path : List Text) (t : CommandTree) :
    bottomUp path t = (t.subcommands.flatMap fun c => bottomUp (path ++ [c.name]) c) ++ [⟨path, t⟩] := by
  cases t
  rw [bottomUp, bottomUpAll_eq]

/-! ## The same places in either order -/

/-- Both orders list the same places. -/
theorem bottomUp_perm_topDown (path : List Text) (t : CommandTree) : (bottomUp path t).Perm (topDown path t) := by
  induction t using induction_below generalizing path with
  | step t ih =>
    have hbelow : (t.subcommands.flatMap fun c => bottomUp (path ++ [c.name]) c).Perm
        (t.subcommands.flatMap fun c => topDown (path ++ [c.name]) c) :=
      List.Perm.flatMap_left t.subcommands fun c hc => ih c hc (path ++ [c.name])
    rw [bottomUp_eq, topDown_eq]
    exact (List.perm_append_singleton _ _).trans (hbelow.cons _)

/-- The commands that have a place are the commands of the tree. -/
theorem map_tree_topDown (path : List Text) (t : CommandTree) : (topDown path t).map (·.tree) = t.commands := by
  induction t using induction_below generalizing path with
  | step t ih =>
    rw [topDown_eq, commands_eq, List.map_cons, List.map_flatMap]
    exact congrArg _ (List.flatMap_congr fun c hc => ih c hc (path ++ [c.name]))

/-- A command that has a place is a command of the tree. -/
theorem mem_commands_of_mem_topDown {path : List Text} {t : CommandTree} {x : Place} (hx : x ∈ topDown path t) :
    x.tree ∈ t.commands := by
  rw [← map_tree_topDown path]
  exact List.mem_map_of_mem hx

/-- A command that a path leads to has the path for its place. -/
theorem mem_topDown_of_find? {t c : CommandTree} {path : List Text} (h : t.find? path = some c) (above : List Text) :
    ⟨above ++ path, c⟩ ∈ topDown above t := by
  induction path generalizing t above with
  | nil =>
    obtain rfl : t = c := Option.some.inj h
    rw [topDown_eq, List.append_nil]
    exact List.mem_cons_self
  | cons name rest ih =>
    obtain ⟨s, hchild, hrest⟩ := Option.bind_eq_some_iff.1 h
    have hname : s.name = name := by simpa using List.find?_some hchild
    have hplace := ih hrest (above ++ [name])
    rw [List.append_assoc, List.singleton_append, ← hname] at hplace
    rw [topDown_eq, ← hname]
    exact List.mem_cons_of_mem _ (List.mem_flatMap.2 ⟨s, List.mem_of_find?_eq_some hchild, hplace⟩)

/-- Whether every place of a list comes after those of its subcommands. -/
def ChildrenFirst (l : List Place) : Prop :=
  ∀ before x after, l = before ++ x :: after → ∀ c ∈ x.tree.subcommands, x.child c ∈ before

namespace ChildrenFirst

theorem nil : ChildrenFirst [] := by
  intro before x after h
  exact absurd h.symm (by simp)

/-- One list may follow another one. -/
theorem append {l m : List Place} (hl : ChildrenFirst l) (hm : ChildrenFirst m) : ChildrenFirst (l ++ m) := by
  intro before x after h c hc
  rcases List.append_eq_append_iff.1 h with ⟨as, rfl, hrest⟩ | ⟨bs, hsplit, hrest⟩
  · exact List.mem_append_right _ (hm as x after hrest c hc)
  · rcases List.cons_eq_append_iff.1 hrest with ⟨rfl, hm'⟩ | ⟨bs', rfl, -⟩
    · exact absurd (hm [] x after hm' c hc) List.not_mem_nil
    · exact hl before x bs' hsplit c hc

/-- Lists may follow each other. -/
theorem flatMap {α : Type} {f : α → List Place} {as : List α} (h : ∀ a ∈ as, ChildrenFirst (f a)) :
    ChildrenFirst (as.flatMap f) := by
  induction as with
  | nil => exact nil
  | cons a rest ih =>
    obtain ⟨ha, hrest⟩ := List.forall_mem_cons.1 h
    rw [List.flatMap_cons]
    exact ha.append (ih hrest)

/-- A command may follow a list with its subcommands. -/
theorem concat {l : List Place} {x : Place} (hl : ChildrenFirst l) (hx : ∀ c ∈ x.tree.subcommands, x.child c ∈ l) :
    ChildrenFirst (l ++ [x]) := by
  intro before y after h c hc
  rcases List.append_eq_append_iff.1 h with ⟨as, rfl, hrest⟩ | ⟨bs, hsplit, hrest⟩
  · obtain ⟨rfl, rfl, -⟩ : as = [] ∧ x = y ∧ after = [] := by
      cases as with
      | nil => simpa using hrest
      | cons a as => simp at hrest
    simpa using hx c hc
  · rcases List.cons_eq_append_iff.1 hrest with ⟨rfl, hy⟩ | ⟨bs', rfl, -⟩
    · obtain ⟨rfl, -⟩ : x = y ∧ after = [] := by simpa using hy
      simp only [List.append_nil] at hsplit
      exact hsplit ▸ hx c hc
    · exact hl before y bs' hsplit c hc

end ChildrenFirst

/-- The last place from the bottom up is the command's own. -/
theorem mem_bottomUp_self (path : List Text) (t : CommandTree) : ⟨path, t⟩ ∈ bottomUp path t := by
  rw [bottomUp_eq]
  exact List.mem_append_right _ (List.mem_singleton_self _)

/-- From the bottom up every command comes after its subcommands. -/
theorem childrenFirst_bottomUp (path : List Text) (t : CommandTree) : ChildrenFirst (bottomUp path t) := by
  induction t using induction_below generalizing path with
  | step t ih =>
    rw [bottomUp_eq]
    refine ChildrenFirst.concat (ChildrenFirst.flatMap fun c hc => ih c hc (path ++ [c.name])) ?_
    intro c hc
    exact List.mem_flatMap.2 ⟨c, hc, mem_bottomUp_self (path ++ [c.name]) c⟩

end CommandTree

end DevWorkflow
