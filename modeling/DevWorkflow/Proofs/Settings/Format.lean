import DevWorkflow.Proofs.Json.Records
import DevWorkflow.Settings.Format

/-!
# Settings come back from their text

A record is read field by field: the value of a field is that of the only member with its name. What is written for accepted
settings is read as these settings (`read_write`), and nothing else but accepted settings is ever read (`accepted_of_read`).
-/

namespace DevWorkflow

namespace Json

theorem rereadMembers_eq_map (members : List (List StringUnit × Value)) :
    rereadMembers members = members.map fun m => (m.1.map StringUnit.reread, m.2.reread) := by
  induction members with
  | nil => rfl
  | cons m rest ih =>
    obtain ⟨key, v⟩ := m
    rw [rereadMembers, ih, List.map_cons]

/-- A record that was written is read as the values of its fields. -/
theorem Value.fields?_reread_ofFields {names : List Text} {fields : List (Text × Value)} (hn : fields.map (·.1) = names)
    (h : names.Nodup) : (ofFields fields).reread.fields? names = some (fields.map fun f => f.2.reread) := by
  subst hn
  let reread := fields.map fun f => (f.1, f.2.reread)
  have hread : readNames? (fields.map fun f => ((unitsOfText f.1).map StringUnit.reread, f.2.reread)) = some reread := by
    rw [readNames?, List.mapM_map]
    exact mapM_eq_some_of_forall fun f _ => by simp [textOfUnits?_reread]
  have hperm : reread.Perm (reread ++ []) := by simp
  have hobject := fields?_object hread hperm (List.forall_mem_nil _) (by simpa [reread, Function.comp_def] using h)
  rw [ofFields, Value.reread, rereadMembers_eq_map, List.map_map]
  simpa [reread, Function.comp_def] using hobject

/-- A text that was written as a string is read as the text. -/
@[simp] theorem Value.text?_reread_ofText (t : Text) : (ofText t).reread.text? = some t := by
  rw [ofText, Value.reread, text?, textOfUnits?_reread]

/-- A truth value that was written is read as it is. -/
@[simp] theorem Value.bool?_reread_bool (b : Bool) : (Value.bool b).reread.bool? = some b := by
  rw [Value.reread, bool?]

/-- A record holds no numbers if none of its fields does. -/
theorem Value.hasLiterals_ofFields {fields : List (Text × Value)} (h : ∀ f ∈ fields, f.2.HasLiterals) :
    (ofFields fields).HasLiterals := by
  rw [ofFields, HasLiterals]
  induction fields with
  | nil => trivial
  | cons f rest ih => exact ⟨h f (by simp), ih fun g hg => h g (by simp [hg])⟩

end Json

namespace Settings

open Json

/-- Settings hold no numbers. -/
theorem hasLiterals_toJson (s : Settings) : s.toJson.HasLiterals := by
  have htext : ∀ t, (Value.ofText t).HasLiterals := fun t => by simp [Value.ofText, Value.HasLiterals]
  have hbool : ∀ b, (Value.bool b).HasLiterals := fun b => by simp [Value.HasLiterals]
  refine Value.hasLiterals_ofFields ?_
  simp only [List.forall_mem_cons, List.not_mem_nil, false_imp_iff, implies_true, and_true]
  refine ⟨?_, ?_, ?_, ?_⟩
  all_goals
    refine Value.hasLiterals_ofFields ?_
    simp [htext, hbool]

/-- What is written for a section with settings for git is read as these settings. -/
theorem gitOfJson?_reread (g : GitSettings) :
    gitOfJson? (Value.ofFields
      [("branch_prefix".toList, .ofText g.branchPrefix), ("default_remote".toList, .ofText g.defaultRemote),
        ("sign_commits".toList, .bool g.signCommits)]).reread = some g := by
  rw [gitOfJson?, Value.fields?_reread_ofFields]
  · simp
  · rfl
  · decide

/-- What is written for a section with settings for commits is read as these settings. -/
theorem commitOfJson?_reread (c : CommitSettings) :
    commitOfJson? (Value.ofFields
      [("default_type".toList, .ofText c.defaultType), ("require_scope".toList, .bool c.requireScope)]).reread = some c := by
  rw [commitOfJson?, Value.fields?_reread_ofFields]
  · simp
  · rfl
  · decide

/-- What is written for a section with a command line is read as this command line. -/
theorem commandOfJson?_reread (t : Text) :
    commandOfJson? (Value.ofFields [("command".toList, .ofText t)]).reread = some t := by
  rw [commandOfJson?, Value.fields?_reread_ofFields]
  · simp
  · rfl
  · decide

/-- What is written for settings is read as these settings. -/
theorem ofJson?_reread_toJson (s : Settings) : ofJson? s.toJson.reread = some s := by
  rw [ofJson?, toJson, Value.fields?_reread_ofFields]
  · simp [gitOfJson?_reread, commitOfJson?_reread, commandOfJson?_reread, -String.reduceToList]
  · rfl
  · decide

/-- Settings are accepted if they have no defect. -/
theorem accept_eq_ok_iff {s s' : Settings} : s.accept = .ok s' ↔ s.defect? = none ∧ s = s' := by
  unfold accept
  cases s.defect? <;> simp

/-- Accepted settings come back from their text. -/
theorem read_write {s : Settings} (h : s.defect? = none) : read s.write = .ok s := by
  rw [read, write, parse_render _ s.hasLiterals_toJson, Option.bind_some, ofJson?_reread_toJson]
  exact accept_eq_ok_iff.2 ⟨h, rfl⟩

/-- Only accepted settings are read. -/
theorem accepted_of_read {t : Text} {s : Settings} (h : read t = .ok s) : s.defect? = none := by
  unfold read at h
  split at h
  · obtain ⟨hs, rfl⟩ := accept_eq_ok_iff.1 h
    exact hs
  · simp at h

end Settings

end DevWorkflow
