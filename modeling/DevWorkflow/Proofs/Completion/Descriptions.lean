import DevWorkflow.Completion.Script
import DevWorkflow.Proofs.Completion.Bash.Scope
import DevWorkflow.Proofs.Completion.Essence
import DevWorkflow.Proofs.Completion.Zsh.Quotes

/-!
# Descriptions and the lines of the scripts

A description is written on the line of what it describes, whatever line breaks it has of its own, and taking it away takes no line
away. So trees that differ only in their descriptions have scripts with the same number of line feeds
(`CommandTree.count_lineFeed_script`).
-/

namespace DevWorkflow

/-! ## A tree without its descriptions -/

/-- An option that says nothing about itself. -/
def OptionEntry.undescribed (o : OptionEntry) : OptionEntry := { o with description := [] }

/-- An argument that says nothing about itself. -/
def ArgumentEntry.undescribed (a : ArgumentEntry) : ArgumentEntry := { a with description := [] }

/-- The change that takes every description away. -/
def Retouch.undescribed : Retouch where
  description _ := []
  option := OptionEntry.undescribed
  arguments _ := List.map ArgumentEntry.undescribed

namespace CommandTree

/-- What a tree is apart from the descriptions of its commands, options and arguments. -/
def undescribed (t : CommandTree) : CommandTree := t.retouch .undescribed

variable (t : CommandTree)

theorem name_undescribed : t.undescribed.name = t.name := name_retouch _ t

theorem options_undescribed : t.undescribed.options = t.options.map OptionEntry.undescribed := options_retouch _ t

theorem arguments_undescribed : t.undescribed.arguments = t.arguments.map ArgumentEntry.undescribed := arguments_retouch _ t

theorem subcommands_undescribed : t.undescribed.subcommands = t.subcommands.map undescribed := subcommands_retouch _ t

theorem allowUnknownOption_undescribed : t.undescribed.allowUnknownOption = t.allowUnknownOption := allowUnknownOption_retouch _ t

theorem isLeaf_undescribed : t.undescribed.isLeaf = t.isLeaf := isLeaf_retouch _ t

end CommandTree

/-! ## Texts with the same number of line feeds -/

namespace Text

/-- Whether two texts have the same number of line feeds. -/
structure SameLineFeeds (t u : Text) : Prop where
  count_eq : t.count '\n' = u.count '\n'

namespace SameLineFeeds

theorem refl (t : Text) : SameLineFeeds t t := ⟨rfl⟩

/-- Texts that are one line each may stand for one another. -/
theorem of_not_mem {t u : Text} (ht : '\n' ∉ t) (hu : '\n' ∉ u) : SameLineFeeds t u :=
  ⟨by rw [List.count_eq_zero.2 ht, List.count_eq_zero.2 hu]⟩

theorem append {t t' u u' : Text} (ht : SameLineFeeds t t') (hu : SameLineFeeds u u') : SameLineFeeds (t ++ u) (t' ++ u') :=
  ⟨by rw [List.count_append, List.count_append, ht.count_eq, hu.count_eq]⟩

theorem flatMap {α : Type} {f g : α → Text} {as : List α} (h : ∀ a ∈ as, SameLineFeeds (f a) (g a)) :
    SameLineFeeds (as.flatMap f) (as.flatMap g) := by
  induction as with
  | nil => exact refl []
  | cons a rest ih =>
    obtain ⟨ha, hrest⟩ := List.forall_mem_cons.1 h
    exact ha.append (ih hrest)

end SameLineFeeds

/-- Whether texts have one by one the same number of line feeds. -/
abbrev SameLineFeedsEach : List Text → List Text → Prop := List.Forall₂ SameLineFeeds

theorem sameLineFeedsEach_refl (ts : List Text) : SameLineFeedsEach ts ts := List.forall₂_same.2 fun t _ => .refl t

theorem SameLineFeedsEach.flatMap_lines {ts us : List Text} (h : SameLineFeedsEach ts us) :
    SameLineFeeds (ts.flatMap fun line => line ++ ['\n']) (us.flatMap fun line => line ++ ['\n']) := by
  induction h with
  | nil => exact .refl []
  | cons hline _ ih => exact (hline.append (.refl _)).append ih

end Text

open Text (SameLineFeeds SameLineFeedsEach sameLineFeedsEach_refl)

/-! ## The zsh script -/

namespace Zsh

theorem sameLineFeeds_specLines (tail : Text) {specs specs' : List Text} (h : SameLineFeedsEach specs specs') :
    SameLineFeeds (specLines tail specs) (specLines tail specs') := by
  induction h with
  | nil => exact .refl _
  | @cons spec spec' rest rest' hspec hrest ih =>
    have hstart := (SameLineFeeds.refl "    ".toList).append hspec
    cases hrest with
    | nil => exact (hstart.append (.refl tail)).append (.refl _)
    | cons hnext hrest => exact (hstart.append (.refl _)).append ih

theorem sameLineFeeds_argumentsCall (call tail : Text) {specs specs' : List Text} (h : SameLineFeedsEach specs specs') :
    SameLineFeeds (argumentsCall call tail specs) (argumentsCall call tail specs') := by
  cases h with
  | nil => exact .refl _
  | cons hspec hrest => exact (SameLineFeeds.refl _).append (sameLineFeeds_specLines tail (.cons hspec hrest))

theorem sameLineFeedsEach_optionSpecs (o : OptionEntry) : SameLineFeedsEach (optionSpecs o.undescribed) (optionSpecs o) := by
  have hrest : SameLineFeeds (bracketed o.undescribed ++ valuePart o.undescribed) (bracketed o ++ valuePart o) :=
    .append (.of_not_mem (IsQuotable.bracketed _).oneLine (IsQuotable.bracketed o).oneLine) (.refl (valuePart o))
  have hspec : ∀ form : Text, SameLineFeeds (inQuotes (form ++ (bracketed o.undescribed ++ valuePart o.undescribed)))
      (inQuotes (form ++ (bracketed o ++ valuePart o))) := fun form =>
    ((SameLineFeeds.refl _).append ((SameLineFeeds.refl form).append hrest)).append (.refl _)
  refine List.rel_append ?_ ?_
  · show SameLineFeedsEach (o.short.map _).toList _
    cases o.short with
    | none => exact .nil
    | some c => exact .cons (hspec ['-', c]) .nil
  · show SameLineFeedsEach (if o.shortOnly = true then _ else _) _
    cases o.shortOnly with
    | true => exact .nil
    | false => exact .cons (hspec ("--".toList ++ o.long ++ if o.isBoolean then [] else "=".toList)) .nil

theorem sameLineFeedsEach_flatMap_optionSpecs (t : CommandTree) :
    SameLineFeedsEach (t.undescribed.options.flatMap optionSpecs) (t.options.flatMap optionSpecs) := by
  rw [CommandTree.options_undescribed]
  induction t.options with
  | nil => exact .nil
  | cons o rest ih => exact List.rel_append (sameLineFeedsEach_optionSpecs o) ih

/-- Specifications of arguments have no descriptions in them. -/
theorem argumentSpecsFrom_undescribed (parent : Text) (position : Nat) (as : List ArgumentEntry) :
    argumentSpecsFrom parent position (as.map ArgumentEntry.undescribed) = argumentSpecsFrom parent position as := by
  induction as generalizing position with
  | nil => rfl
  | cons a rest ih =>
    rw [List.map_cons, argumentSpecsFrom, argumentSpecsFrom, ih]
    rfl

theorem sameLineFeedsEach_leafSpecs (t : CommandTree) : SameLineFeedsEach (leafSpecs t.undescribed) (leafSpecs t) := by
  have hvariadic : (t.arguments.map ArgumentEntry.undescribed).any (·.variadic) = t.arguments.any (·.variadic) := List.any_map
  rw [leafSpecs, leafSpecs, CommandTree.arguments_undescribed, CommandTree.name_undescribed, argumentSpecsFrom_undescribed,
    hvariadic, CommandTree.allowUnknownOption_undescribed]
  exact List.rel_append (List.rel_append (sameLineFeedsEach_flatMap_optionSpecs t) (sameLineFeedsEach_refl _)) (sameLineFeedsEach_refl _)

theorem sameLineFeeds_describeLine (c : CommandTree) : SameLineFeeds (describeLine c.undescribed) (describeLine c) := by
  unfold describeLine
  rw [c.name_undescribed]
  refine SameLineFeeds.append (.append (.refl _) ?_) (.refl _)
  exact .of_not_mem (IsQuotable.quote _).oneLine (IsQuotable.quote _).oneLine

/-- The block of a command has as many lines without the descriptions. -/
theorem sameLineFeeds_block (path : List Text) (t : CommandTree) : SameLineFeeds (block ⟨path, t.undescribed⟩) (block ⟨path, t⟩) := by
  cases hleaf : t.isLeaf with
  | true =>
    have hleaf' : t.undescribed.isLeaf = true := t.isLeaf_undescribed.trans hleaf
    rw [block_eq, block_eq, render_body_of_isLeaf hleaf', render_body_of_isLeaf hleaf]
    refine (SameLineFeeds.refl _).append (.append ?_ (.refl _))
    have hspecs := sameLineFeedsEach_leafSpecs t
    generalize leafSpecs t.undescribed = specs', leafSpecs t = specs at hspecs ⊢
    cases hspecs with
    | nil => exact .refl _
    | cons hspec hrest => exact sameLineFeeds_argumentsCall _ _ (.cons hspec hrest)
  | false =>
    have hleaf' : t.undescribed.isLeaf = false := t.isLeaf_undescribed.trans hleaf
    have hopening : SameLineFeeds (opening path t.undescribed.options) (opening path t.options) := by
      unfold opening
      refine SameLineFeeds.append (.append (.refl _) ?_) (.refl _)
      exact sameLineFeeds_argumentsCall _ _ (List.rel_append (sameLineFeedsEach_flatMap_optionSpecs t)
        (sameLineFeedsEach_refl _))
    rw [block_of_not_isLeaf hleaf', block_of_not_isLeaf hleaf]
    dsimp only
    rw [t.subcommands_undescribed, List.flatMap_map, List.flatMap_map]
    refine SameLineFeeds.append (.append (.append (.append hopening (.flatMap fun c _ => ?_)) (.refl _)) (.flatMap fun c _ => ?_))
      (.refl _)
    · exact sameLineFeeds_describeLine c
    · unfold callLines
      rw [c.name_undescribed]
      exact .refl _

theorem sameLineFeeds_script (t : CommandTree) : SameLineFeeds (script t.undescribed) (script t) := by
  rw [script_eq_flatMap, script_eq_flatMap, CommandTree.undescribed, CommandTree.bottomUp_retouch, List.flatMap_map]
  exact ((SameLineFeeds.refl _).append (.flatMap fun x _ => sameLineFeeds_block x.path x.tree)).append (.refl _)

end Zsh

/-! ## The fish script -/

namespace Fish

/-- Rules for the same forms of an option are on as many lines, whatever else they say. -/
theorem sameLineFeeds_render {r r' : Rule} (hshort : r.short = r'.short) (hlong : r.long = r'.long) :
    SameLineFeeds r.render r'.render := by
  have hquoted : ∀ {flag t u : Text}, '\n' ∉ flag → SameLineFeeds (quotedPart flag t) (quotedPart flag u) := fun hflag =>
    .of_not_mem (lineFeed_not_mem_quotedPart hflag _) (lineFeed_not_mem_quotedPart hflag _)
  have hfiles : ∀ b : Bool, '\n' ∉ if b then [] else " -f".toList := by decide
  have hcandidates : ∀ candidates : Option Text, '\n' ∉ (candidates.map (quotedPart " -a".toList)).getD [] := by
    intro candidates
    cases candidates with
    | none => exact List.not_mem_nil
    | some t => exact lineFeed_not_mem_quotedPart (by decide) t
  have hdescription : ∀ t : Text, '\n' ∉ if t.isEmpty then [] else quotedPart " -d".toList t := by
    intro t
    split
    · exact List.not_mem_nil
    · exact lineFeed_not_mem_quotedPart (by decide) t
  unfold Rule.render
  rw [hshort, hlong]
  refine .append (.append (.append (.append (.append (.append (.append (.refl _) ?_) (hquoted (by decide))) (.refl _)) (.refl _))
    ?_) ?_) ?_
  · exact .of_not_mem (hfiles _) (hfiles _)
  · exact .of_not_mem (lineFeed_not_mem_render_value _) (lineFeed_not_mem_render_value _)
  · exact .of_not_mem (hcandidates _) (hcandidates _)
  · exact .of_not_mem (hdescription _) (hdescription _)

/-- The same arguments have rules without the descriptions, on as many lines. -/
theorem sameLineFeedsEach_argumentRules (path : List Text) (t : CommandTree) (as : List ArgumentEntry) :
    SameLineFeedsEach (((as.map ArgumentEntry.undescribed).filterMap (argumentRule? path t.undescribed)).map Rule.render)
      ((as.filterMap (argumentRule? path t)).map Rule.render) := by
  induction as with
  | nil => exact .nil
  | cons a rest ih =>
    have hsource : candidates? (a.undescribed.source t.undescribed.name) = candidates? (a.source t.name) := by
      rw [t.name_undescribed]
      rfl
    rw [List.map_cons, List.filterMap_cons, List.filterMap_cons, argumentRule?, argumentRule?, hsource]
    cases candidates? (a.source t.name) with
    | none => exact ih
    | some found => exact .cons (sameLineFeeds_render rfl rfl) ih

/-- The rules of a command have one by one as many lines without the descriptions. -/
theorem sameLineFeedsEach_rulesOf (path : List Text) (t : CommandTree) :
    SameLineFeedsEach ((rulesOf ⟨path, t.undescribed⟩).map Rule.render) ((rulesOf ⟨path, t⟩).map Rule.render) := by
  rw [rulesOf, rulesOf]
  dsimp only
  rw [t.options_undescribed, t.arguments_undescribed, t.subcommands_undescribed, t.isLeaf_undescribed]
  simp only [List.map_append, List.map_map]
  refine List.rel_append (List.rel_append ?_ ?_) ?_
  · exact List.forall₂_map_left_iff.2 (List.forall₂_map_right_iff.2 (List.forall₂_same.2 fun o _ => sameLineFeeds_render rfl rfl))
  · cases t.isLeaf with
    | false => exact .nil
    | true => exact sameLineFeedsEach_argumentRules path t t.arguments
  · exact List.forall₂_map_left_iff.2 (List.forall₂_map_right_iff.2 (List.forall₂_same.2 fun c _ => sameLineFeeds_render rfl rfl))

theorem sameLineFeeds_script (t : CommandTree) : SameLineFeeds (script t.undescribed) (script t) := by
  rw [script_eq_lines, script_eq_lines, CommandTree.undescribed, CommandTree.topDown_retouch, List.flatMap_map, List.flatMap_assoc,
    List.flatMap_assoc]
  refine ((SameLineFeeds.refl _).append (.flatMap fun x _ => SameLineFeedsEach.flatMap_lines ?_)).append (.refl _)
  exact .cons (.refl _) (List.rel_append (sameLineFeedsEach_rulesOf x.path x.tree) (sameLineFeedsEach_refl _))

end Fish

/-! ## The bash script -/

namespace Bash

/-- Without the descriptions, commands are alike for any number of levels. -/
theorem alikeFor_undescribed (levels : Nat) (t : CommandTree) : AlikeFor levels t.undescribed t := by
  induction levels generalizing t with
  | zero => exact t.name_undescribed
  | succ levels ih =>
    have hvalues : List.Forall₂ OptionEntry.SameValues t.undescribed.options t.options := by
      rw [t.options_undescribed]
      exact List.forall₂_map_left_iff.2 (List.forall₂_same.2 fun o _ => ⟨⟨rfl, rfl, rfl⟩, rfl⟩)
    have hsubcommands : List.Forall₂ (AlikeFor levels) t.undescribed.subcommands t.subcommands := by
      rw [t.subcommands_undescribed]
      exact List.forall₂_map_left_iff.2 (List.forall₂_same.2 fun c _ => ih c)
    exact ⟨⟨t.name_undescribed, hvalues.imp fun _ _ => OptionEntry.SameValues.toSameForms, hsubcommands⟩,
      fun _ => ⟨hvalues, t.allowUnknownOption_undescribed⟩⟩

/-- The script has no descriptions in it. -/
theorem script_undescribed (t : CommandTree) : script t.undescribed = script t := by
  rw [script, script, scriptLines, scriptLines, functionLines_eq (alikeFor_undescribed 3 t).1]

end Bash

/-! ## All scripts -/

theorem Shell.sameLineFeeds_script (shell : Shell) (t : CommandTree) : SameLineFeeds (shell.script t.undescribed) (shell.script t) := by
  cases shell with
  | zsh => exact Zsh.sameLineFeeds_script t
  | bash => exact ⟨congrArg _ (Bash.script_undescribed t)⟩
  | fish => exact Fish.sameLineFeeds_script t

/-- Trees that are the same apart from the descriptions of their commands, options and arguments have scripts with the same number
of line feeds for every shell, so that no description adds a line to a script or takes one from it. -/
theorem CommandTree.count_lineFeed_script {t t' : CommandTree} (h : t.undescribed = t'.undescribed) (shell : Shell) :
    (shell.script t).count '\n' = (shell.script t').count '\n' := by
  calc
    (shell.script t).count '\n' = (shell.script t.undescribed).count '\n' := (shell.sameLineFeeds_script t).count_eq.symm
    _ = (shell.script t').count '\n' := by rw [h, (shell.sameLineFeeds_script t').count_eq]

/-- A tree whose descriptions have line breaks, quotes and tabs in them, or are missing. -/
def unrulyTree : CommandTree :=
  { name := programName
    description := "Does\neverything\n".toList
    options := [{ OptionEntry.flag "verbose".toList "More\r\nlines,\n\nit's said".toList with short := some 'v' }]
    subcommands :=
      [{ name := "run".toList
         description := "\n".toList
         options := [OptionEntry.value "mode".toList "How\tto\nrun".toList]
         arguments := [{ name := "branch".toList }, { name := "files".toList, description := "Which\nones".toList }] }] }

/-- The same tree with plain descriptions and one where there was none. -/
def ruledTree : CommandTree :=
  { name := programName
    options := [{ OptionEntry.flag "verbose".toList "Verbose".toList with short := some 'v' }]
    subcommands :=
      [{ name := "run".toList
         description := "Runs".toList
         options := [OptionEntry.value "mode".toList [] ]
         arguments := [{ name := "branch".toList, description := "Where".toList }, { name := "files".toList }] }] }

/-- Both trees have scripts with the same number of line feeds. -/
theorem count_lineFeed_script_ruled :
    unrulyTree.description ≠ ruledTree.description ∧ unrulyTree.undescribed = ruledTree.undescribed ∧
      ∀ shell : Shell, (shell.script unrulyTree).count '\n' = (shell.script ruledTree).count '\n' := by
  have hsame : unrulyTree.undescribed = ruledTree.undescribed := rfl
  exact ⟨by decide, hsame, CommandTree.count_lineFeed_script hsame⟩

end DevWorkflow
