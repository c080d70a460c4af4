import DevWorkflow.Proofs.Completion.Zsh.Blocks

/-!
# Specifications in the zsh script

The block of a command has a line for each specification of its options and arguments. A specification of an option is a form of
the option with what is the same for all its forms, between single quotes (`Zsh.exists_form_of_mem_optionSpecs`). Each of them
stands in the script (`Zsh.infix_script`).
-/

namespace DevWorkflow

namespace Zsh

/-! ## The specifications of a command -/

/-- The specifications of a command. -/
def specs (t : CommandTree) : List Text := if t.isLeaf then leafSpecs t else branchSpecs t

theorem optionSpecs_subset_specs {t : CommandTree} {o : OptionEntry} (ho : o ∈ t.options) :
    ∀ spec ∈ optionSpecs o, spec ∈ specs t := by
  intro spec hspec
  have hmem : spec ∈ t.options.flatMap optionSpecs := List.mem_flatMap.2 ⟨o, ho, hspec⟩
  rw [specs]
  split
  · exact List.mem_append_left _ (List.mem_append_left _ hmem)
  · exact List.mem_append_left _ hmem

theorem argumentSpecs_subset_specs {t : CommandTree} (hleaf : t.isLeaf = true) :
    ∀ spec ∈ argumentSpecsFrom t.name 1 t.arguments, spec ∈ specs t := by
  intro spec hspec
  rw [specs, if_pos hleaf]
  exact List.mem_append_left _ (List.mem_append_right _ hspec)

theorem exists_mem_argumentSpecsFrom (parent : Text) {arguments : List ArgumentEntry} {a : ArgumentEntry} (h : a ∈ arguments)
    (position : Nat) : ∃ n, argumentSpec parent a n ∈ argumentSpecsFrom parent position arguments := by
  induction arguments generalizing position with
  | nil => exact absurd h List.not_mem_nil
  | cons b rest ih =>
    rcases List.mem_cons.1 h with rfl | h
    · exact ⟨position, List.mem_cons_self⟩
    · obtain ⟨n, hn⟩ := ih h (position + 1)
      exact ⟨n, List.mem_cons_of_mem _ hn⟩

/-- A specification of an option begins with a form of the option, and the long form of an option with a value ends with an equals
sign. What follows is the same for all forms. -/
theorem exists_form_of_mem_optionSpecs {o : OptionEntry} {spec : Text} (h : spec ∈ optionSpecs o) :
    ∃ form ∈ o.flagWords, ∃ marker, (marker = [] ∨ marker = "=".toList) ∧
      spec = inQuotes (form ++ marker ++ (bracketed o ++ valuePart o)) := by
  rcases List.mem_append.1 h with h | h
  · obtain ⟨c, hc, rfl⟩ := Option.map_eq_some_iff.1 (Option.mem_toList.1 h)
    refine ⟨['-', c], ?_, [], .inl rfl, rfl⟩
    exact List.mem_append_right _ (Option.mem_toList.2 (Option.map_eq_some_iff.2 ⟨c, hc, rfl⟩))
  · split at h
    · exact absurd h List.not_mem_nil
    · rename_i hlong
      obtain rfl := List.mem_singleton.1 h
      refine ⟨"--".toList ++ o.long, ?_, if o.isBoolean then [] else "=".toList, ?_, rfl⟩
      · exact List.mem_append_left _ (by rw [if_neg hlong]; exact List.mem_singleton_self _)
      · split
        · exact .inl rfl
        · exact .inr rfl

/-- The specifications for arguments are those of the arguments at some positions. -/
theorem exists_argument_of_mem_argumentSpecsFrom {parent : Text} {arguments : List ArgumentEntry} {position : Nat} {spec : Text}
    (h : spec ∈ argumentSpecsFrom parent position arguments) : ∃ a n, spec = argumentSpec parent a n := by
  induction arguments generalizing position with
  | nil => exact absurd h List.not_mem_nil
  | cons b rest ih =>
    rcases List.mem_cons.1 h with rfl | h
    · exact ⟨b, position, rfl⟩
    · exact ih h

/-- The specifications of a command are those of its options, those of its arguments, and some fixed ones. -/
theorem cases_of_mem_specs {t : CommandTree} {spec : Text} (h : spec ∈ specs t) :
    (∃ o ∈ t.options, spec ∈ optionSpecs o) ∨ (∃ a n, spec = argumentSpec t.name a n) ∨
      spec ∈ [restSpec, "'1: :->cmds'".toList, "'*:: :->args'".toList] := by
  rw [specs] at h
  split at h
  · rcases List.mem_append.1 h with h | h
    · rcases List.mem_append.1 h with h | h
      · exact .inl (List.mem_flatMap.1 h)
      · exact .inr (.inl (exists_argument_of_mem_argumentSpecsFrom h))
    · split at h
      · exact .inr (.inr (List.mem_cons.2 (.inl (List.mem_singleton.1 h))))
      · exact absurd h List.not_mem_nil
  · rcases List.mem_append.1 h with h | h
    · exact .inl (List.mem_flatMap.1 h)
    · exact .inr (.inr (List.mem_cons_of_mem _ h))

/-! ## Where they stand -/

theorem specLines_singleton (tail spec : Text) : specLines tail [spec] = "    ".toList ++ spec ++ tail ++ "\n".toList := rfl

theorem specLines_cons_cons (tail spec next : Text) (rest : List Text) :
    specLines tail (spec :: next :: rest) = "    ".toList ++ spec ++ " \\\n".toList ++ specLines tail (next :: rest) := rfl

theorem infix_specLines {spec : Text} {specs : List Text} (h : spec ∈ specs) (tail : Text) : spec <:+: specLines tail specs := by
  induction specs using specLines.induct with
  | case1 => exact absurd h List.not_mem_nil
  | case2 only =>
    obtain rfl := List.mem_singleton.1 h
    rw [specLines_singleton]
    exact List.infix_append_of_infix_left (List.infix_append _ _ _)
  | case3 first next rest ih =>
    rw [specLines_cons_cons]
    rcases List.mem_cons.1 h with rfl | h
    · exact List.infix_append_of_infix_left (List.infix_append _ _ _)
    · exact List.infix_append_of_infix_right (ih h)

theorem infix_argumentsCall {spec : Text} {specs : List Text} (h : spec ∈ specs) (call tail : Text) :
    spec <:+: argumentsCall call tail specs := by
  cases specs with
  | nil => exact absurd h List.not_mem_nil
  | cons first rest => exact List.infix_append_of_infix_right (infix_specLines h tail)

/-- The function of a command without subcommands gives its specifications, if it has any. -/
theorem render_body_of_isLeaf {x : Place} (h : x.tree.isLeaf = true) :
    (functionOf x.path x.tree).body.render =
      if leafSpecs x.tree = [] then "  _message 'no more arguments'\n".toList
      else argumentsCall "_arguments".toList [] (leafSpecs x.tree) := by
  simp only [functionOf, h, if_true]
  cases leafSpecs x.tree <;> rfl

/-- Every specification of a command stands in its block. -/
theorem infix_block {x : Place} {spec : Text} (h : spec ∈ specs x.tree) : spec <:+: block x := by
  rw [specs] at h
  cases hleaf : x.tree.isLeaf with
  | true =>
    rw [hleaf, if_pos rfl] at h
    rw [block_eq, render_body_of_isLeaf hleaf, if_neg (List.ne_nil_of_mem h)]
    exact List.infix_append_of_infix_right (List.infix_append_of_infix_left (infix_argumentsCall h _ _))
  | false =>
    rw [hleaf, if_neg Bool.false_ne_true, branchSpecs] at h
    have hopening : spec <:+: opening x.path x.tree.options :=
      List.infix_append_of_infix_left (List.infix_append_of_infix_right (infix_argumentsCall h _ _))
    rw [block_of_not_isLeaf hleaf]
    simp only [List.append_assoc]
    exact List.infix_append_of_infix_left hopening

theorem script_eq_flatMap (t : CommandTree) : script t = header ++ (t.bottomUp []).flatMap block ++ trailer := by
  rw [script, functionsAt_eq, List.flatMap_map]
  rfl

theorem infix_block_script {t : CommandTree} {x : Place} (hx : x ∈ t.topDown []) : block x <:+: script t := by
  have hblock : block x <:+: (t.bottomUp []).flatMap block :=
    List.infix_of_mem_flatten (List.mem_map_of_mem ((CommandTree.bottomUp_perm_topDown [] t).mem_iff.2 hx))
  rw [script_eq_flatMap]
  exact List.infix_append_of_infix_left (List.infix_append_of_infix_right hblock)

/-- Every specification of a command stands in the script. -/
theorem infix_script {t : CommandTree} {x : Place} (hx : x ∈ t.topDown []) {spec : Text} (h : spec ∈ specs x.tree) :
    spec <:+: script t :=
  (infix_block h).trans (infix_block_script hx)

end Zsh

end DevWorkflow
