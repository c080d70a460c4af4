import DevWorkflow.Proofs.Settings.Handwritten
import DevWorkflow.Proofs.Text.Splitting

/-!
# Changing single values

Settings are known by the values of their keys, and what is accepted for a key does not depend on the other values
(`Settings.defect?_eq_none_iff_allows`). So changes of different keys do not get in each other's way, in whatever order they are made,
and of several changes of one key only the last one counts (`Settings.setValue_laws`).

A value may as well be changed in the JSON document that stands for the settings, where the name of its key is a path of names. What
comes of this is the same (`Settings.setValue_eq_changeInDocument`): the document always has the path, the value there tells what the
key takes, and the changed document always holds settings.
-/

namespace DevWorkflow

namespace SettingKey

/-- The value of a key for which a text stands. -/
def valueOf? : SettingKey → Text → Option SettingValue
  | commitRequireScope, raw | gitSignCommits, raw => (SettingValue.flagOf? raw).map .flag
  | agentCommand, raw | commitDefaultType, raw | gitBranchPrefix, raw | gitDefaultRemote, raw | updateCommand, raw => some (.text raw)

/-- Whether a value is accepted for a key. -/
def Allows : SettingKey → SettingValue → Prop
  | agentCommand, .text t | updateCommand, .text t => Text.trim t ≠ []
  | commitDefaultType, .text t => t ∈ commitTypes
  | gitBranchPrefix, .text t => ¬"..".toList <:+: t ∧ t.head? ≠ some '-'
  | gitDefaultRemote, .text t => Text.trim t ≠ [] ∧ ∀ c ∈ t, Text.isBlank c = false
  | commitRequireScope, .flag _ | gitSignCommits, .flag _ => True
  | _, _ => False

theorem ofName?_eq_some_iff {name : Text} {key : SettingKey} : ofName? name = some key ↔ key.name = name := by
  constructor
  · intro h
    simpa using List.find?_some h
  · rintro rfl
    exact ofName?_name key

/-- The text of a value of a key stands for the value. -/
theorem valueOf?_render (s : Settings) (key : SettingKey) : key.valueOf? (s.get key).render = some (s.get key) := by
  have hflag : ∀ b, (SettingValue.flagOf? (SettingValue.flag b).render).map SettingValue.flag = some (.flag b) := by decide
  cases key
  case commitRequireScope | gitSignCommits => exact hflag _
  all_goals rfl

end SettingKey

/-! ## Documents -/

namespace Json

/-- Whether a member of an object has a name. -/
def hasName (name : Text) (m : List StringUnit × Value) : Bool := textOfUnits? m.1 = some name

/-- The value at a path of names. -/
def Value.at? : Value → List Text → Option Value
  | v, [] => some v
  | .object members, name :: path => (members.find? (hasName name)).bind fun m => m.2.at? path
  | _, _ :: _ => none

/-- A document with another value at a path of names. -/
def Value.put? : Value → List Text → Value → Option Value
  | _, [], new => some new
  | .object members, name :: path, new =>
    (members.findIdx? (hasName name)).bind fun k =>
      members[k]?.bind fun m => (m.2.put? path new).map fun v => .object (members.set k (m.1, v))
  | _, _ :: _, _ => none

end Json

/-- The path of names that the name of a key stands for. -/
def SettingKey.path (key : SettingKey) : List Text := Text.splitAt (· = '.') key.name

/-- A value as it stands in a document. -/
def SettingValue.toJson : SettingValue → Json.Value
  | .text t => .ofText t
  | .flag b => .bool b

/-- The value for which a text stands in the place of another value: a truth value in the place of one, and else the text. -/
def coerce? (current : Json.Value) (raw : Text) : Option Json.Value :=
  match current with
  | .bool _ => (SettingValue.flagOf? raw).map .bool
  | _ => some (.ofText raw)

namespace Settings

open Json

variable {s s₁ s' : Settings} {key : SettingKey} {value value' : SettingValue}

/-! ## What is accepted -/

theorem gitDefect?_eq_none_iff (g : GitSettings) : gitDefect? g = none ↔
    SettingKey.gitDefaultRemote.Allows (.text g.defaultRemote) ∧ SettingKey.gitBranchPrefix.Allows (.text g.branchPrefix) := by
  simp only [gitDefect?, SettingKey.Allows, ← Text.contains_eq_true_iff]
  split
  · next hempty => exact iff_of_false nofun fun h => h.1.1 (List.isEmpty_iff.1 hempty)
  split
  · next hblank =>
    obtain ⟨c, hc, hblank⟩ := List.any_eq_true.1 hblank
    exact iff_of_false nofun fun h => absurd hblank (by simp [h.1.2 c hc])
  split
  · next hbad =>
    rw [Bool.or_eq_true, decide_eq_true_eq] at hbad
    exact iff_of_false nofun fun h => hbad.elim h.2.1 h.2.2
  · next hempty hblank hbad =>
    rw [Bool.or_eq_true, decide_eq_true_eq, not_or] at hbad
    exact iff_of_true rfl ⟨⟨by simpa using hempty, by simpa using hblank⟩, hbad⟩

theorem commandDefect?_eq_none_iff (key : SettingKey) (line : Text) : commandDefect? key line = none ↔ Text.trim line ≠ [] := by
  rw [commandDefect?]
  split <;> simp_all

theorem commitDefect?_eq_none_iff (c : CommitSettings) : commitDefect? c = none ↔ c.defaultType ∈ commitTypes := by
  rw [commitDefect?]
  split <;> simp_all

/-- Settings are accepted if the value of every key is. -/
theorem defect?_eq_none_iff_allows (s : Settings) : s.defect? = none ↔ ∀ key : SettingKey, key.Allows (s.get key) := by
  simp only [defect?, Option.or_eq_none_iff, gitDefect?_eq_none_iff, commitDefect?_eq_none_iff, commandDefect?_eq_none_iff]
  constructor
  · rintro ⟨⟨hremote, hprefix⟩, htype, hagent, hupdate⟩ key
    cases key <;> first | assumption | trivial
  · intro h
    exact ⟨⟨h .gitDefaultRemote, h .gitBranchPrefix⟩, h .commitDefaultType, h .agentCommand, h .updateCommand⟩

/-! ## Settings with another value -/

/-- Whether settings are other settings with the value of one key changed. -/
structure IsWith (s : Settings) (key : SettingKey) (value : SettingValue) (s' : Settings) : Prop where
  changed : s'.get key = value
  kept : ∀ other, other ≠ key → s'.get other = s.get other

/-- Settings with the same values are the same. -/
theorem eq_of_get (h : ∀ key, s.get key = s'.get key) : s = s' := by
  obtain ⟨⟨branchPrefix, defaultRemote, signCommits⟩, ⟨defaultType, requireScope⟩, agent, update⟩ := s
  obtain ⟨⟨branchPrefix', defaultRemote', signCommits'⟩, ⟨defaultType', requireScope'⟩, agent', update'⟩ := s'
  obtain rfl := SettingValue.text.inj (h .gitBranchPrefix)
  obtain rfl := SettingValue.text.inj (h .gitDefaultRemote)
  obtain rfl := SettingValue.flag.inj (h .gitSignCommits)
  obtain rfl := SettingValue.text.inj (h .commitDefaultType)
  obtain rfl := SettingValue.flag.inj (h .commitRequireScope)
  obtain rfl := SettingValue.text.inj (h .agentCommand)
  obtain rfl := SettingValue.text.inj (h .updateCommand)
  rfl

namespace IsWith

theorem unique (h : s.IsWith key value s₁) (h' : s.IsWith key value s') : s₁ = s' := by
  refine eq_of_get fun other => ?_
  by_cases hother : other = key
  · subst hother
    exact h.changed.trans h'.changed.symm
  · exact (h.kept other hother).trans (h'.kept other hother).symm

/-- Of two changes of one key the second one counts. -/
theorem again_iff (h : s.IsWith key value s₁) : s₁.IsWith key value' s' ↔ s.IsWith key value' s' := by
  constructor
  · exact fun h' => ⟨h'.changed, fun other hother => (h'.kept other hother).trans (h.kept other hother)⟩
  · exact fun h' => ⟨h'.changed, fun other hother => (h'.kept other hother).trans (h.kept other hother).symm⟩

/-- Changes of two keys may be made in either order. -/
theorem comm {other : SettingKey} {w : SettingValue} {s₂ : Settings} (hne : key ≠ other) (h : s.IsWith key value s₁)
    (h₂ : s₁.IsWith other w s₂) (h' : s.IsWith other w s') : s'.IsWith key value s₂ := by
  refine ⟨(h₂.kept key hne).trans h.changed, fun k hk => ?_⟩
  by_cases hother : k = other
  · subst hother
    exact h₂.changed.trans h'.changed.symm
  · exact ((h₂.kept k hother).trans (h.kept k hk)).trans (h'.kept k hother).symm

/-- Changed settings are accepted if the others are and the new value is. -/
theorem defect?_eq_none_iff (h : s.IsWith key value s') (hs : s.defect? = none) : s'.defect? = none ↔ key.Allows value := by
  rw [defect?_eq_none_iff_allows] at hs ⊢
  constructor
  · intro h'
    exact h.changed ▸ h' key
  · intro hvalue other
    by_cases hother : other = key
    · subst hother
      exact h.changed ▸ hvalue
    · exact h.kept other hother ▸ hs other

end IsWith

/-- If a text stands for a value of a key, then replacing the key's value by the text gives the settings with this value, and
otherwise it fails. -/
theorem replace_cases (s : Settings) (key : SettingKey) (raw : Text) :
    (∃ value s', key.valueOf? raw = some value ∧ s.replace key raw = .ok s' ∧ s.IsWith key value s') ∨
      key.valueOf? raw = none ∧ s.replace key raw = .error (.notAFlag key raw) := by
  cases key
  case commitRequireScope | gitSignCommits =>
    simp only [SettingKey.valueOf?, replace]
    cases SettingValue.flagOf? raw with
    | none => exact .inr ⟨rfl, rfl⟩
    | some b =>
      refine .inl ⟨.flag b, _, rfl, rfl, rfl, fun other hother => ?_⟩
      cases other <;> first | rfl | exact absurd rfl hother
  all_goals
    refine .inl ⟨.text raw, _, rfl, rfl, rfl, fun other hother => ?_⟩
    cases other <;> first | rfl | exact absurd rfl hother

/-- The value of a key is replaced in the same way whatever it was. -/
theorem IsWith.replace_eq (h : s.IsWith key value s₁) (raw : Text) : s₁.replace key raw = s.replace key raw := by
  rcases s.replace_cases key raw with ⟨w, s', hw, hs', hwith⟩ | ⟨hnone, herror⟩
  · rcases s₁.replace_cases key raw with ⟨w', s'', hw', hs'', hwith'⟩ | ⟨hnone, -⟩
    · obtain rfl : w = w' := Option.some.inj (hw.symm.trans hw')
      rw [hs', hs'', (h.again_iff.1 hwith').unique hwith]
    · nomatch hw.symm.trans hnone
  · rcases s₁.replace_cases key raw with ⟨w', s'', hw', -, -⟩ | ⟨-, herror'⟩
    · nomatch hw'.symm.trans hnone
    · rw [herror, herror']

/-- Setting a value succeeds if the key is known, the text stands for a value of it, and the settings with this value are accepted;
and it gives these settings. -/
theorem setValue_eq_ok_iff {k raw : Text} : s.setValue k raw = .ok s' ↔
    ∃ key value, SettingKey.name key = k ∧ key.valueOf? raw = some value ∧ s.IsWith key value s' ∧ s'.defect? = none := by
  rw [setValue]
  cases hk : SettingKey.ofName? k with
  | none =>
    refine iff_of_false nofun ?_
    rintro ⟨key, value, hname, -⟩
    nomatch hk.symm.trans (SettingKey.ofName?_eq_some_iff.2 hname)
  | some key =>
    have hname : ∀ other, SettingKey.name other = k ↔ key = other := by
      intro other
      rw [← SettingKey.ofName?_eq_some_iff, hk, Option.some.injEq]
    simp only [hname, exists_and_left, exists_eq_left']
    rcases s.replace_cases key raw with ⟨value, s₁, hvalue, hreplace, hwith⟩ | ⟨hnone, herror⟩
    · simp only [hreplace, hvalue, accept_eq_ok_iff, Option.some.injEq, exists_eq_left']
      constructor
      · rintro ⟨hdefect, rfl⟩
        exact ⟨hwith, hdefect⟩
      · rintro ⟨hwith', hdefect⟩
        obtain rfl := hwith.unique hwith'
        exact ⟨hdefect, rfl⟩
    · simp [herror, hnone]

/-! ## The settings as a document -/

/-- The settings with the value of a key changed in their document, if they are accepted. -/
def changeInDocument (s : Settings) (key : SettingKey) (raw : Text) : Except SettingsError Settings :=
  match s.toJson.at? key.path with
  | none => .error (.unknownKey key.name)
  | some current =>
    match coerce? current raw with
    | none => .error (.ofDefect (.notAFlag key raw))
    | some new =>
      match (s.toJson.put? key.path new).bind ofJson? with
      | none => .error .json
      | some s' => s'.accept

/-- The document has the value of a key at the key's path. -/
theorem at?_path (s : Settings) (key : SettingKey) : s.toJson.at? key.path = some (s.get key).toJson := by
  cases key <;> rfl

/-- What stands at the path of a key tells what the key takes. -/
theorem coerce?_get (s : Settings) (key : SettingKey) (raw : Text) :
    coerce? (s.get key).toJson raw = (key.valueOf? raw).map SettingValue.toJson := by
  cases key
  case commitRequireScope | gitSignCommits =>
    rw [SettingKey.valueOf?, Option.map_map]
    rfl
  all_goals rfl

/-- Settings with another value have the document with this value. -/
theorem put?_path {s s' : Settings} {key : SettingKey} {value : SettingValue} {raw : Text} (hvalue : key.valueOf? raw = some value)
    (h : s.replace key raw = .ok s') : s.toJson.put? key.path value.toJson = some s'.toJson := by
  cases key
  case commitRequireScope | gitSignCommits =>
    obtain ⟨b, hb, rfl⟩ := Option.map_eq_some_iff.1 hvalue
    simp only [replace, hb] at h
    obtain rfl := Except.ok.inj h
    rfl
  all_goals
    obtain rfl := Option.some.inj hvalue
    obtain rfl := Except.ok.inj h
    rfl

/-- A value is set as it is changed in the document. -/
theorem setValue_eq_changeInDocument (s : Settings) (key : SettingKey) (raw : Text) :
    s.setValue key.name raw = s.changeInDocument key raw := by
  rw [setValue, SettingKey.ofName?_name, changeInDocument, at?_path]
  simp only [coerce?_get]
  rcases s.replace_cases key raw with ⟨value, s', hvalue, hreplace, -⟩ | ⟨hnone, herror⟩
  · have hread : ofJson? s'.toJson = some s' := ofJson?_of_isIn s'.isIn_toJson
    simp only [hvalue, hreplace, Option.map_some, put?_path hvalue hreplace, Option.bind_some, hread]
  · simp only [hnone, herror, Option.map_none]

/-! ## Several changes -/

/-- Whether a text can be set as the value of the key with a name. -/
def CanSet (k raw : Text) : Prop :=
  ∃ key value, SettingKey.name key = k ∧ key.valueOf? raw = some value ∧ key.Allows value

/-- Whether a value can be set does not depend on the other values. -/
theorem exists_setValue_iff (hs : s.defect? = none) (k raw : Text) : (∃ s', s.setValue k raw = .ok s') ↔ CanSet k raw := by
  constructor
  · rintro ⟨s', h⟩
    obtain ⟨key, value, hname, hvalue, hwith, hdefect⟩ := setValue_eq_ok_iff.1 h
    exact ⟨key, value, hname, hvalue, (hwith.defect?_eq_none_iff hs).1 hdefect⟩
  · rintro ⟨key, value, hname, hvalue, hallows⟩
    rcases s.replace_cases key raw with ⟨w, s', hw, -, hwith⟩ | ⟨hnone, -⟩
    · obtain rfl : value = w := Option.some.inj (hvalue.symm.trans hw)
      exact ⟨s', setValue_eq_ok_iff.2 ⟨key, value, hname, hvalue, hwith, (hwith.defect?_eq_none_iff hs).2 hallows⟩⟩
    · nomatch hvalue.symm.trans hnone

/-- Changed settings are accepted. -/
theorem accepted_of_setValue {k raw : Text} (h : s.setValue k raw = .ok s') : s'.defect? = none := by
  obtain ⟨-, -, -, -, -, hdefect⟩ := setValue_eq_ok_iff.1 h
  exact hdefect

/-- Setting the value of a key that was set before is setting it in the first place. -/
theorem setValue_again {k raw : Text} (h : s.setValue k raw = .ok s₁) (raw' : Text) : s₁.setValue k raw' = s.setValue k raw' := by
  obtain ⟨key, value, rfl, -, hwith, -⟩ := setValue_eq_ok_iff.1 h
  simp only [setValue, SettingKey.ofName?_name, hwith.replace_eq raw']

/-- The settings after two changes of different keys, one after the other. -/
def setBoth (s : Settings) (k raw k' raw' : Text) : Except SettingsError Settings :=
  (s.setValue k raw).bind fun s₁ => s₁.setValue k' raw'

theorem setBoth_eq_ok_iff {k raw k' raw' : Text} :
    s.setBoth k raw k' raw' = .ok s' ↔ ∃ s₁, s.setValue k raw = .ok s₁ ∧ s₁.setValue k' raw' = .ok s' := by
  rw [setBoth]
  cases s.setValue k raw with
  | error e => exact iff_of_false nofun nofun
  | ok s₁ => simp [Except.bind]

/-- Two changes of different keys that can be made in one order can be made in the other one, and give the same settings. -/
theorem setBoth_comm {k raw k' raw' : Text} (hs : s.defect? = none) (hne : k ≠ k') (h : s.setBoth k raw k' raw' = .ok s') :
    s.setBoth k' raw' k raw = .ok s' := by
  obtain ⟨s₁, hfirst, hsecond⟩ := setBoth_eq_ok_iff.1 h
  obtain ⟨s₂, hother⟩ := (exists_setValue_iff hs k' raw').2
    ((exists_setValue_iff (accepted_of_setValue hfirst) k' raw').1 ⟨s', hsecond⟩)
  refine setBoth_eq_ok_iff.2 ⟨s₂, hother, ?_⟩
  obtain ⟨key, value, rfl, hvalue, hwith, -⟩ := setValue_eq_ok_iff.1 hfirst
  obtain ⟨key', value', rfl, hvalue', hwith', hdefect⟩ := setValue_eq_ok_iff.1 hsecond
  obtain ⟨key'', value'', hname, hvalue'', hwith'', -⟩ := setValue_eq_ok_iff.1 hother
  obtain rfl : key'' = key' := Option.some.inj (by rw [← SettingKey.ofName?_name, ← SettingKey.ofName?_name, hname])
  obtain rfl : value'' = value' := Option.some.inj (hvalue''.symm.trans hvalue')
  refine setValue_eq_ok_iff.2 ⟨key, value, rfl, hvalue, hwith.comm ?_ hwith' hwith'', hdefect⟩
  rintro rfl
  exact hne rfl

/-- Two changes of different keys can both be made exactly if each of them can. -/
theorem exists_setBoth_iff {k raw k' raw' : Text} (hs : s.defect? = none) :
    (∃ s', s.setBoth k raw k' raw' = .ok s') ↔ (∃ s', s.setValue k raw = .ok s') ∧ ∃ s', s.setValue k' raw' = .ok s' := by
  constructor
  · rintro ⟨s', h⟩
    obtain ⟨s₁, hfirst, hsecond⟩ := setBoth_eq_ok_iff.1 h
    exact ⟨⟨s₁, hfirst⟩, (exists_setValue_iff hs k' raw').2
      ((exists_setValue_iff (accepted_of_setValue hfirst) k' raw').1 ⟨s', hsecond⟩)⟩
  · rintro ⟨⟨s₁, hfirst⟩, hother⟩
    obtain ⟨s', hsecond⟩ := (exists_setValue_iff (accepted_of_setValue hfirst) k' raw').2 ((exists_setValue_iff hs k' raw').1 hother)
    exact ⟨s', setBoth_eq_ok_iff.2 ⟨s₁, hfirst, hsecond⟩⟩

/-- In accepted settings, setting a key to the text of its value changes nothing; setting a key again is setting it in the first
place; two different keys can be set in either order, just if each of them can be set alone, and both orders give the same settings;
and a key can be set just if it is known, the text stands for a value of it, and the settings with no other value changed are
accepted. The settings that come of it are those that are read from their document with the value changed in it. -/
theorem setValue_laws (s : Settings) (hs : s.defect? = none) (k k' v w : Text) :
    (k ∈ settingKeys → ∃ value, s.getValue k = .ok value ∧ s.setValue k value.render = .ok s) ∧
    (∀ s₁, s.setValue k v = .ok s₁ → s₁.setValue k w = s.setValue k w) ∧
    (k ≠ k' →
      ((∃ s', s.setBoth k v k' w = .ok s') ↔ ∃ s', s.setBoth k' w k v = .ok s') ∧
      ((∃ s', s.setBoth k v k' w = .ok s') ↔ (∃ s', s.setValue k v = .ok s') ∧ ∃ s', s.setValue k' w = .ok s') ∧
      ∀ s', s.setBoth k v k' w = .ok s' ↔ s.setBoth k' w k v = .ok s') ∧
    (∀ s', s.setValue k v = .ok s' ↔
      ∃ key value, SettingKey.name key = k ∧ key.valueOf? v = some value ∧ s.IsWith key value s' ∧ s'.defect? = none) ∧
    ∀ key : SettingKey, s.setValue key.name v = s.changeInDocument key v := by
  have hcomm : k ≠ k' → ∀ s', s.setBoth k v k' w = .ok s' ↔ s.setBoth k' w k v = .ok s' := fun hne s' =>
    ⟨setBoth_comm hs hne, setBoth_comm hs hne.symm⟩
  refine ⟨?_, fun s₁ h => setValue_again h w, ?_, fun s' => setValue_eq_ok_iff, fun key => s.setValue_eq_changeInDocument key v⟩
  · intro hk
    obtain ⟨key, -, rfl⟩ := List.mem_map.1 hk
    refine ⟨s.get key, by rw [getValue, SettingKey.ofName?_name], setValue_eq_ok_iff.2 ?_⟩
    exact ⟨key, s.get key, rfl, SettingKey.valueOf?_render s key, ⟨rfl, fun _ _ => rfl⟩, hs⟩
  · intro hne
    exact ⟨exists_congr (hcomm hne), exists_setBoth_iff hs, hcomm hne⟩

/-- The default settings with commits signed and another type of commit. -/
def signedFixes : Settings :=
  { default with git.signCommits := true, commit.defaultType := "fix".toList }

/-- Signing is turned on and the type of a commit is changed, in either order; a text that is no truth value is refused as before. -/
theorem setValue_laws_signedFixes :
    default.defect? = none ∧
    (∃ value, default.getValue "update.command".toList = .ok value ∧
      default.setValue "update.command".toList value.render = .ok default) ∧
    (∃ s₁, default.setValue "git.sign_commits".toList "yes".toList = .ok s₁ ∧
      s₁.setValue "git.sign_commits".toList "maybe".toList = default.setValue "git.sign_commits".toList "maybe".toList) ∧
    default.setBoth "git.sign_commits".toList "yes".toList "commit.default_type".toList "fix".toList = .ok signedFixes ∧
    default.setBoth "commit.default_type".toList "fix".toList "git.sign_commits".toList "yes".toList = .ok signedFixes := by
  have hsigned : default.setValue "git.sign_commits".toList "yes".toList = .ok { default with git.signCommits := true } := by rfl
  have hboth : default.setBoth "git.sign_commits".toList "yes".toList "commit.default_type".toList "fix".toList =
      .ok signedFixes := by rfl
  have hsame := (setValue_laws default defect?_default "update.command".toList [] [] []).1 (by decide)
  obtain ⟨-, hagain, -⟩ := setValue_laws default defect?_default "git.sign_commits".toList "commit.default_type".toList
    "yes".toList "maybe".toList
  have horder := (setValue_laws default defect?_default "git.sign_commits".toList "commit.default_type".toList
    "yes".toList "fix".toList).2.2.1 (by decide)
  exact ⟨defect?_default, hsame, ⟨_, hsigned, hagain _ hsigned⟩, hboth, (horder.2.2 _).1 hboth⟩

end Settings

end DevWorkflow
