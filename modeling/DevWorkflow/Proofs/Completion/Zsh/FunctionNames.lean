import DevWorkflow.Proofs.Completion.Zsh.Blocks
import DevWorkflow.Proofs.Text.Splitting
import Mathlib.Data.List.Nodup

/-!
# Which functions of the zsh script have one name

The name of a function is a path with underscores between the names and for every character that is no ASCII letter or digit, so
different paths may read alike. The functions of a valid tree have different names exactly if no two paths in it read alike, and
then every call reaches the function of the subcommand it is made for (`Zsh.functionsAt_apart`). It is enough that, of two
siblings, neither reads like the other or like the beginning of the other before an underscore (`Zsh.nodup_functionName`).
-/

namespace DevWorkflow

namespace Zsh

/-! ## How a path reads -/

/-- How a path reads in the name of a function. -/
def reading (path : List Text) : Text := Text.identifier (Text.join ['_'] path)

/-- A longer path goes on with an underscore. -/
theorem reading_cons_cons (name next : Text) (path : List Text) :
    reading (name :: next :: path) = Text.identifier name ++ '_' :: reading (next :: path) := by
  rw [reading, Text.join_cons_cons, Text.identifier_append, Text.identifier_append, List.append_assoc]
  rfl

/-- The names of a path, each after an underscore, are the reading of the path after an underscore. -/
theorem flatMap_identifier_cons (name : Text) (path : List Text) :
    ((name :: path).flatMap fun n => '_' :: Text.identifier n) = '_' :: reading (name :: path) := by
  induction path generalizing name with
  | nil => rw [List.flatMap_singleton, reading, Text.join_singleton]
  | cons next rest ih => rw [List.flatMap_cons, ih next, reading_cons_cons, List.cons_append]

/-- A path that begins with a name does not read as nothing. -/
theorem reading_cons_ne_nil {name : Text} (h : name ≠ []) (path : List Text) : reading (name :: path) ≠ [] := by
  obtain ⟨c, rest, rfl⟩ := List.exists_cons_of_ne_nil h
  cases path with
  | nil => simp [reading, Text.identifier]
  | cons next path => simp [reading_cons_cons]

/-- The name of a function goes on with what is below the command. -/
theorem functionName_append (path below : List Text) :
    functionName (path ++ below) = functionName path ++ below.flatMap fun name => '_' :: Text.identifier name := by
  simp only [functionName, List.flatMap_append, List.append_assoc]

/-- Paths of names have functions of one name exactly if they read alike. -/
theorem functionName_eq_iff {p q : List Text} (hp : ∀ n ∈ p, n ≠ []) (hq : ∀ n ∈ q, n ≠ []) :
    functionName p = functionName q ↔ reading p = reading q := by
  rw [functionName, functionName, List.append_cancel_left_eq]
  cases p with
  | nil =>
    cases q with
    | nil => exact iff_of_true rfl rfl
    | cons n q => exact iff_of_false (by simp) (reading_cons_ne_nil (hq n List.mem_cons_self) q).symm
  | cons m p =>
    cases q with
    | nil => exact iff_of_false (by simp) (reading_cons_ne_nil (hp m List.mem_cons_self) p)
    | cons n q => rw [flatMap_identifier_cons, flatMap_identifier_cons, List.cons_inj_right]

/-- No function of a command has the name of a helper: helpers have two underscores in front. -/
theorem functionName_ne_helper (path : List Text) {s : DynamicSource} (hs : s ∈ DynamicSource.all) :
    functionName path ≠ s.function := by
  have hname : (functionName path).take 2 = ['_', 'd'] := rfl
  have hhelper : s.function.take 2 = ['_', '_'] := by
    have hall : ∀ s ∈ DynamicSource.all, s.function.take 2 = ['_', '_'] := by decide
    exact hall s hs
  intro h
  rw [h, hhelper] at hname
  exact absurd hname (by decide)

/-! ## Which functions are reached -/

/-- The function that a name calls when the whole script has been read: the last one defined by it. -/
def definition? (t : CommandTree) (name : Text) : Option Function := (functionsAt [] t).reverse.find? fun f => f.name = name

/-- If the functions have different names, every call reaches the function of its own subcommand. -/
theorem definition?_of_nodup_name {t : CommandTree} (h : ((functionsAt [] t).map (·.name)).Nodup) {x : Place}
    (hx : x ∈ t.topDown []) {c : CommandTree} (hc : c ∈ x.tree.subcommands) :
    definition? t (functionName (x.path ++ [c.name])) = some (functionOf (x.path ++ [c.name]) c) := by
  have hchild : x.child c ∈ t.bottomUp [] := by
    obtain ⟨before, after, hsplit⟩ := List.append_of_mem ((CommandTree.bottomUp_perm_topDown [] t).mem_iff.2 hx)
    rw [hsplit]
    exact List.mem_append_left _ (CommandTree.childrenFirst_bottomUp [] t before x after hsplit c hc)
  have hmem : functionOf (x.path ++ [c.name]) c ∈ (functionsAt [] t).reverse := by
    rw [List.mem_reverse, functionsAt_eq]
    exact List.mem_map_of_mem hchild
  have hreverse : ((functionsAt [] t).reverse.map (·.name)).Nodup := by
    rw [List.map_reverse]
    exact List.nodup_reverse.2 h
  exact find?_eq_of_nodup hreverse hmem

/-- The functions of a tree have the names of its paths. -/
theorem map_name_functionsAt (path : List Text) (t : CommandTree) :
    ((functionsAt path t).map (·.name)).Perm ((t.topDown path).map fun x => functionName x.path) := by
  rw [functionsAt_eq, List.map_map]
  exact (CommandTree.bottomUp_perm_topDown path t).map _

/-! ## Siblings that read differently -/

/-- Whether a name reads like another one, or like what stands before an underscore in it. -/
def ReadsInto (a b : Text) : Prop := Text.identifier a ++ ['_'] <+: Text.identifier b ++ ['_']

instance (a b : Text) : Decidable (ReadsInto a b) :=
  inferInstanceAs (Decidable (Text.identifier a ++ ['_'] <+: Text.identifier b ++ ['_']))

/-- Whether, of two subcommands of one command, neither reads into the other. -/
def SiblingsApart (t : CommandTree) : Prop :=
  ∀ d ∈ t.commands, d.subcommands.Pairwise fun a b => ¬ReadsInto a.name b.name ∧ ¬ReadsInto b.name a.name

instance (t : CommandTree) : Decidable (SiblingsApart t) :=
  inferInstanceAs (Decidable (∀ d ∈ t.commands,
    d.subcommands.Pairwise fun a b => ¬ReadsInto a.name b.name ∧ ¬ReadsInto b.name a.name))

/-- Names that are followed by underscores and read alike with what follows them read into one another. -/
theorem readsInto_of_eq {a b : Text} {p q : List Text}
    (h : Text.identifier a ++ (p.flatMap fun n => '_' :: Text.identifier n) =
      Text.identifier b ++ (q.flatMap fun n => '_' :: Text.identifier n)) : ReadsInto a b ∨ ReadsInto b a := by
  have hinto : ∀ {a b : Text} {p : List Text} {as v : Text}, Text.identifier b = Text.identifier a ++ as →
      (p.flatMap fun n => '_' :: Text.identifier n) = as ++ v → ReadsInto a b := by
    intro a b p as v hb hp
    rw [ReadsInto, hb]
    cases as with
    | nil => exact (List.append_nil _).symm ▸ List.prefix_rfl
    | cons c as =>
      -- what goes on after the first name begins with an underscore
      obtain rfl : c = '_' := by
        cases p with
        | nil => simp at hp
        | cons n p => simpa using congrArg List.head? hp.symm
      simp
  rcases List.append_eq_append_iff.1 h with ⟨as, hb, hp⟩ | ⟨bs, ha, hq⟩
  · exact .inl (hinto hb hp)
  · exact .inr (hinto ha hq)

/-- Every path below a command goes on from the command's own. -/
theorem exists_path_eq {path : List Text} {t : CommandTree} {x : Place} (hx : x ∈ t.topDown path) :
    ∃ below, x.path = path ++ below := by
  induction t using CommandTree.induction_below generalizing path with
  | step t ih =>
    rw [CommandTree.topDown_eq] at hx
    rcases List.mem_cons.1 hx with rfl | hx
    · exact ⟨[], (List.append_nil path).symm⟩
    · obtain ⟨c, hc, hx⟩ := List.mem_flatMap.1 hx
      obtain ⟨below, hbelow⟩ := ih c hc hx
      exact ⟨c.name :: below, by rw [hbelow, List.append_assoc, List.singleton_append]⟩

/-- If no sibling reads into another one, all functions have different names. -/
theorem nodup_functionName {t : CommandTree} (h : SiblingsApart t) (path : List Text) :
    ((t.topDown path).map fun x => functionName x.path).Nodup := by
  induction t using CommandTree.induction_below generalizing path with
  | step t ih =>
    rw [SiblingsApart, CommandTree.commands_eq, List.forall_mem_cons, List.forall_mem_flatMap] at h
    obtain ⟨hsiblings, hbelow⟩ := h
    rw [CommandTree.topDown_eq, List.map_cons, List.map_flatMap, List.nodup_cons]
    refine ⟨?_, List.nodup_flatMap.2 ⟨fun c hc => ih c hc (hbelow c hc) _, ?_⟩⟩
    · intro hmem
      obtain ⟨c, -, hname⟩ := List.mem_flatMap.1 hmem
      obtain ⟨x, hx, hname⟩ := List.mem_map.1 hname
      obtain ⟨below, hpath⟩ := exists_path_eq hx
      rw [hpath, List.append_assoc, functionName_append] at hname
      simpa using congrArg List.length hname
    · refine hsiblings.imp fun {a b} hab => ?_
      refine List.disjoint_left.2 fun name ha hb => ?_
      obtain ⟨x, hx, rfl⟩ := List.mem_map.1 ha
      obtain ⟨y, hy, hname⟩ := List.mem_map.1 hb
      obtain ⟨p, hp⟩ := exists_path_eq hx
      obtain ⟨q, hq⟩ := exists_path_eq hy
      rw [hp, hq, List.append_assoc, List.append_assoc, functionName_append, functionName_append,
        List.append_cancel_left_eq, List.singleton_append, List.singleton_append, List.flatMap_cons, List.flatMap_cons,
        List.cons_append, List.cons_append, List.cons_inj_right] at hname
      rcases readsInto_of_eq hname with hba | hab'
      · exact hab.2 hba
      · exact hab.1 hab'

/-! ## When the names are different -/

/-- In a tree of commands with names every path is made of names. -/
theorem path_ne_nil {t : CommandTree} (hnamed : ∀ d ∈ t.commands, d.name ≠ []) {path : List Text} (hpath : ∀ n ∈ path, n ≠ [])
    {x : Place} (hx : x ∈ t.topDown path) : ∀ n ∈ x.path, n ≠ [] := by
  induction t using CommandTree.induction_below generalizing path with
  | step t ih =>
    rw [CommandTree.commands_eq, List.forall_mem_cons, List.forall_mem_flatMap] at hnamed
    rw [CommandTree.topDown_eq] at hx
    rcases List.mem_cons.1 hx with rfl | hx
    · exact hpath
    · obtain ⟨c, hc, hx⟩ := List.mem_flatMap.1 hx
      have hcname : c.name ≠ [] := hnamed.2 c hc c c.mem_commands_self
      refine ih c hc (hnamed.2 c hc) ?_ hx
      exact List.forall_mem_append.2 ⟨hpath, List.forall_mem_singleton.2 hcname⟩

/-- In a valid tree no function of a command has the name of a helper. The functions have different names exactly if no two paths
read alike, as it is if no sibling reads into another one, and then every call reaches the function of the subcommand it is made
for. -/
theorem functionsAt_apart (t : CommandTree) (hvalid : t.defect? = none) :
    (∀ f ∈ functionsAt [] t, ∀ s ∈ DynamicSource.all, f.name ≠ s.function) ∧
    (((functionsAt [] t).map (·.name)).Nodup ↔ ((t.topDown []).map fun x => reading x.path).Nodup) ∧
    (SiblingsApart t → ((functionsAt [] t).map (·.name)).Nodup) ∧
    (((functionsAt [] t).map (·.name)).Nodup → ∀ x ∈ t.topDown [], ∀ c ∈ x.tree.subcommands,
      definition? t (functionName (x.path ++ [c.name])) = some (functionOf (x.path ++ [c.name]) c)) := by
  refine ⟨?_, ?_, ?_, fun h x hx c hc => definition?_of_nodup_name h hx hc⟩
  · intro f hf s hs
    rw [functionsAt_eq] at hf
    obtain ⟨x, -, rfl⟩ := List.mem_map.1 hf
    exact functionName_ne_helper x.path hs
  · have hnamed : ∀ d ∈ t.commands, d.name ≠ [] := fun d hd => ((CommandTree.defect?_eq_none_iff t).1 hvalid d hd).named
    have hpaths : ∀ x ∈ t.topDown [], ∀ n ∈ x.path, n ≠ [] := fun x hx => path_ne_nil hnamed (List.forall_mem_nil _) hx
    rw [(map_name_functionsAt [] t).nodup_iff]
    simp only [List.Nodup, List.pairwise_map]
    refine List.Pairwise.iff_of_mem fun {x y} hx hy => ?_
    exact not_congr (functionName_eq_iff (hpaths x hx) (hpaths y hy))
  · exact fun happart => (map_name_functionsAt [] t).nodup_iff.2 (nodup_functionName happart [])

/-- A tree of commands whose names have hyphens in them. -/
def hyphenTree : CommandTree :=
  { name := programName
    subcommands :=
      [{ name := "dry-run".toList, options := [.flag "all".toList []] },
        { name := "work-tree".toList, subcommands := [{ name := "add".toList }, { name := "re-add".toList }] }] }

/-- Where no sibling reads into another one, the hyphens do no harm. -/
theorem functionsAt_apart_hyphenTree :
    hyphenTree.defect? = none ∧ SiblingsApart hyphenTree ∧ ((functionsAt [] hyphenTree).map (·.name)).Nodup :=
  have hapart : SiblingsApart hyphenTree := by decide
  ⟨by decide, hapart, (functionsAt_apart hyphenTree (by decide)).2.2.1 hapart⟩

/-- A tree in which siblings read alike, and also a command and one at another depth. -/
def lookalikeTree : CommandTree :=
  { name := programName
    subcommands :=
      [{ name := "dry-run".toList, options := [.flag "all".toList []] },
        { name := "dry_run".toList },
        { name := "work".toList, subcommands := [{ name := "tree".toList }] },
        { name := "work-tree".toList, options := [.flag "all".toList []] }] }

/-- A valid tree may have functions of one name, and then a call reaches the function of another command. -/
theorem functionsAt_lookalikeTree :
    lookalikeTree.defect? = none ∧ ¬((functionsAt [] lookalikeTree).map (·.name)).Nodup ∧
      definition? lookalikeTree (functionName ["dry-run".toList]) =
        some (functionOf ["dry_run".toList] { name := "dry_run".toList }) ∧
      definition? lookalikeTree (functionName ["work".toList, "tree".toList]) =
        some (functionOf ["work-tree".toList] { name := "work-tree".toList, options := [.flag "all".toList []] }) := by
  decide

end Zsh

end DevWorkflow
