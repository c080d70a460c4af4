import DevWorkflow.Proofs.Json.Exactness
import DevWorkflow.Proofs.Json.Records
import DevWorkflow.Proofs.Settings.Store

/-!
# Settings written by hand

A settings file need not be as the program writes it. It may have any white space, the fields in any order, other members besides, and
its texts escaped in any way: the settings that it holds are loaded, and nothing else is (`Settings.read_eq_ok_iff`). An object that
lacks a field or has one twice, at its top or in a section, holds none, and loading it fails (`Settings.load_handwritten`).
-/

namespace DevWorkflow

open Json

/-- Whether a value holds settings for git. -/
def GitSettings.IsIn (g : GitSettings) (v : Value) : Prop :=
  ∃ branchPrefix defaultRemote : Value, branchPrefix.IsText g.branchPrefix ∧ defaultRemote.IsText g.defaultRemote ∧
    v.HasFields
      [("branch_prefix".toList, branchPrefix), ("default_remote".toList, defaultRemote), ("sign_commits".toList, .bool g.signCommits)]

/-- Whether a value holds settings for commits. -/
def CommitSettings.IsIn (c : CommitSettings) (v : Value) : Prop :=
  ∃ defaultType : Value, defaultType.IsText c.defaultType ∧
    v.HasFields [("default_type".toList, defaultType), ("require_scope".toList, .bool c.requireScope)]

/-- Whether a value holds a command line. -/
def IsCommandIn (line : Text) (v : Value) : Prop :=
  ∃ command : Value, command.IsText line ∧ v.HasFields [("command".toList, command)]

namespace Settings

/-- Whether a value holds settings. -/
def IsIn (s : Settings) (v : Value) : Prop :=
  ∃ git commit agent update : Value, s.git.IsIn git ∧ s.commit.IsIn commit ∧ IsCommandIn s.agentCommand agent ∧
    IsCommandIn s.updateCommand update ∧
    v.HasFields [("git".toList, git), ("commit".toList, commit), ("agent".toList, agent), ("update".toList, update)]

/-- The sections with the names of their fields. -/
def sections : List (Text × List Text) :=
  [("git".toList, gitFields), ("commit".toList, commitFields), ("agent".toList, commandFields), ("update".toList, commandFields)]

/-- Whether an object lacks a section or a field of a section, or has one twice. -/
def IsFaulty (members : List (List StringUnit × Value)) : Prop :=
  IsIncomplete sectionNames members ∨
    ∃ part ∈ sections, ∃ m ∈ members, Denotes m.1 part.1 ∧ ∃ inner, m.2 = .object inner ∧ IsIncomplete part.2 inner

/-- What is written for settings holds them. -/
theorem isIn_toJson (s : Settings) : s.IsIn s.toJson := by
  have htext : ∀ t, (Value.ofText t).IsText t := fun t => ⟨unitsOfText t, rfl, denotes_unitsOfText t⟩
  exact ⟨_, _, _, _, ⟨_, _, htext _, htext _, Value.hasFields_ofFields _⟩, ⟨_, htext _, Value.hasFields_ofFields _⟩,
    ⟨_, htext _, Value.hasFields_ofFields _⟩, ⟨_, htext _, Value.hasFields_ofFields _⟩, Value.hasFields_ofFields _⟩

/-! ## What is held is read -/

theorem text?_of_isText {v : Value} {t : Text} (h : v.IsText t) : v.text? = some t := by
  obtain ⟨us, rfl, hus⟩ := h
  rw [Value.text?, textOfUnits?_of_denotes hus]

theorem gitOfJson?_of_isIn {g : GitSettings} {v : Value} (h : g.IsIn v) : gitOfJson? v = some g := by
  obtain ⟨branchPrefix, defaultRemote, hprefix, hremote, hfields⟩ := h
  have hread : v.fields? gitFields = some [branchPrefix, defaultRemote, .bool g.signCommits] :=
    Value.fields?_of_hasFields gitFields rfl (by decide) hfields
  simp [gitOfJson?, hread, text?_of_isText hprefix, text?_of_isText hremote, Value.bool?]

theorem commitOfJson?_of_isIn {c : CommitSettings} {v : Value} (h : c.IsIn v) : commitOfJson? v = some c := by
  obtain ⟨defaultType, htype, hfields⟩ := h
  have hread : v.fields? commitFields = some [defaultType, .bool c.requireScope] :=
    Value.fields?_of_hasFields commitFields rfl (by decide) hfields
  simp [commitOfJson?, hread, text?_of_isText htype, Value.bool?]

theorem commandOfJson?_of_isIn {line : Text} {v : Value} (h : IsCommandIn line v) : commandOfJson? v = some line := by
  obtain ⟨command, hcommand, hfields⟩ := h
  have hread : v.fields? commandFields = some [command] := Value.fields?_of_hasFields commandFields rfl (by decide) hfields
  simp [commandOfJson?, hread, text?_of_isText hcommand]

/-- The settings that a value holds are read. -/
theorem ofJson?_of_isIn {s : Settings} {v : Value} (h : s.IsIn v) : ofJson? v = some s := by
  obtain ⟨git, commit, agent, update, hgit, hcommit, hagent, hupdate, hfields⟩ := h
  have hread : v.fields? sectionNames = some [git, commit, agent, update] := Value.fields?_of_hasFields sectionNames rfl (by decide) hfields
  simp [ofJson?, hread, gitOfJson?_of_isIn hgit, commitOfJson?_of_isIn hcommit, commandOfJson?_of_isIn hagent,
    commandOfJson?_of_isIn hupdate]

/-- Accepted settings are read from every text that is written for a value that holds them. -/
theorem read_of_isIn {s : Settings} {v : Value} {text : Text} (hs : s.defect? = none) (hv : s.IsIn v) (htext : Shows text v) :
    read text = .ok s := by
  rw [read, parse_of_shows htext, Option.bind_some, ofJson?_of_isIn hv]
  exact accept_eq_ok_iff.2 ⟨hs, rfl⟩

/-! ## What is read is held -/

/-- Settings are read from a value just if its four sections are. -/
theorem ofJson?_eq_some_iff {v : Value} {s : Settings} :
    ofJson? v = some s ↔ ∃ git commit agent update, v.fields? sectionNames = some [git, commit, agent, update] ∧
      gitOfJson? git = some s.git ∧ commitOfJson? commit = some s.commit ∧ commandOfJson? agent = some s.agentCommand ∧
      commandOfJson? update = some s.updateCommand := by
  constructor
  · intro h
    unfold ofJson? at h
    split at h
    · next git commit agent update hfields =>
      simp only [Option.bind_eq_bind, Option.bind_eq_some_iff, Option.some.injEq] at h
      obtain ⟨g, hgit, c, hcommit, a, hagent, u, hupdate, rfl⟩ := h
      exact ⟨git, commit, agent, update, hfields, hgit, hcommit, hagent, hupdate⟩
    · nomatch h
  · rintro ⟨git, commit, agent, update, hfields, hgit, hcommit, hagent, hupdate⟩
    simp [ofJson?, hfields, hgit, hcommit, hagent, hupdate]

theorem isText_of_text? {v : Value} {t : Text} (hunits : v.HasCodeUnits) (h : v.text? = some t) : v.IsText t := by
  cases v with
  | string us =>
    have hus : AreCodeUnits us := hunits (.string us) (by rw [Value.tokens]; exact List.mem_cons_self)
    exact ⟨us, rfl, denotes_of_textOfUnits? h hus⟩
  | null | bool _ | number _ | array _ | object _ => nomatch h

theorem eq_bool_of_bool? {v : Value} {b : Bool} (h : v.bool? = some b) : v = .bool b := by
  cases v with
  | bool b' => rw [Option.some.inj h]
  | null | number _ | string _ | array _ | object _ => nomatch h

theorem isIn_of_gitOfJson? {g : GitSettings} {v : Value} (hunits : v.HasCodeUnits) (h : gitOfJson? v = some g) : g.IsIn v := by
  unfold gitOfJson? at h
  split at h
  · next a b c hfields =>
    simp only [Option.bind_eq_bind, Option.bind_eq_some_iff, Option.some.injEq] at h
    obtain ⟨branchPrefix, hprefix, defaultRemote, hremote, sign, hsign, rfl⟩ := h
    obtain rfl := eq_bool_of_bool? hsign
    have hvalues := Value.hasCodeUnits_of_fields? hunits hfields
    exact ⟨a, b, isText_of_text? (hvalues a (by simp)) hprefix, isText_of_text? (hvalues b (by simp)) hremote,
      Value.hasFields_of_fields? hunits (by decide) hfields⟩
  · nomatch h

theorem isIn_of_commitOfJson? {c : CommitSettings} {v : Value} (hunits : v.HasCodeUnits) (h : commitOfJson? v = some c) :
    c.IsIn v := by
  unfold commitOfJson? at h
  split at h
  · next a b hfields =>
    simp only [Option.bind_eq_bind, Option.bind_eq_some_iff, Option.some.injEq] at h
    obtain ⟨defaultType, htype, scope, hscope, rfl⟩ := h
    obtain rfl := eq_bool_of_bool? hscope
    have hvalues := Value.hasCodeUnits_of_fields? hunits hfields
    exact ⟨a, isText_of_text? (hvalues a (by simp)) htype, Value.hasFields_of_fields? hunits (by decide) hfields⟩
  · nomatch h

theorem isCommandIn_of_commandOfJson? {line : Text} {v : Value} (hunits : v.HasCodeUnits) (h : commandOfJson? v = some line) :
    IsCommandIn line v := by
  unfold commandOfJson? at h
  split at h
  · next a hfields =>
    have hvalues := Value.hasCodeUnits_of_fields? hunits hfields
    exact ⟨a, isText_of_text? (hvalues a (by simp)) h, Value.hasFields_of_fields? hunits (by decide) hfields⟩
  · nomatch h

/-- Only settings that a value holds are read from it. -/
theorem isIn_of_ofJson? {s : Settings} {v : Value} (hunits : v.HasCodeUnits) (h : ofJson? v = some s) : s.IsIn v := by
  obtain ⟨git, commit, agent, update, hfields, hgit, hcommit, hagent, hupdate⟩ := ofJson?_eq_some_iff.1 h
  have hvalues := Value.hasCodeUnits_of_fields? hunits hfields
  exact ⟨git, commit, agent, update, isIn_of_gitOfJson? (hvalues git (by simp)) hgit,
    isIn_of_commitOfJson? (hvalues commit (by simp)) hcommit, isCommandIn_of_commandOfJson? (hvalues agent (by simp)) hagent,
    isCommandIn_of_commandOfJson? (hvalues update (by simp)) hupdate, Value.hasFields_of_fields? hunits (by decide) hfields⟩

/-- Settings are read from a text just if they are accepted and the text is written for a value that holds them. -/
theorem read_eq_ok_iff {text : Text} {s : Settings} : read text = .ok s ↔ s.defect? = none ∧ ∃ v, Shows text v ∧ s.IsIn v := by
  constructor
  · intro h
    unfold read at h
    split at h
    · next s' hs' =>
      obtain ⟨hdefect, rfl⟩ := accept_eq_ok_iff.1 h
      obtain ⟨v, hparse, hread⟩ := Option.bind_eq_some_iff.1 hs'
      have hshows := parse_eq_some_iff.1 hparse
      exact ⟨hdefect, v, hshows, isIn_of_ofJson? (hasCodeUnits_of_shows hshows) hread⟩
    · nomatch h
  · rintro ⟨hdefect, v, hshows, hin⟩
    exact read_of_isIn hdefect hin hshows

/-! ## What holds no settings is refused -/

/-- A section that lacks a field or has it twice is not read. -/
theorem gitOfJson?_of_isIncomplete {members : List (List StringUnit × Value)} (hunits : (Value.object members).HasCodeUnits)
    (h : IsIncomplete gitFields members) : gitOfJson? (.object members) = none := by
  rw [gitOfJson?, Value.fields?_of_isIncomplete hunits h]

theorem commitOfJson?_of_isIncomplete {members : List (List StringUnit × Value)} (hunits : (Value.object members).HasCodeUnits)
    (h : IsIncomplete commitFields members) : commitOfJson? (.object members) = none := by
  rw [commitOfJson?, Value.fields?_of_isIncomplete hunits h]

theorem commandOfJson?_of_isIncomplete {members : List (List StringUnit × Value)} (hunits : (Value.object members).HasCodeUnits)
    (h : IsIncomplete commandFields members) : commandOfJson? (.object members) = none := by
  rw [commandOfJson?, Value.fields?_of_isIncomplete hunits h]

/-- An object that lacks a section or one of its fields, or has one twice, holds no settings. -/
theorem ofJson?_of_isFaulty {members : List (List StringUnit × Value)} (hunits : (Value.object members).HasCodeUnits)
    (h : IsFaulty members) : ofJson? (.object members) = none := by
  rcases h with hsection | ⟨⟨name, fields⟩, hname, m, hm, hdenotes, inner, hinner, hfield⟩
  · rw [ofJson?, Value.fields?_of_isIncomplete hunits hsection]
  have hinnerUnits : (Value.object inner).HasCodeUnits := hinner ▸ (hunits.member m hm).2
  rw [Option.eq_none_iff_forall_ne_some]
  intro s hs
  obtain ⟨git, commit, agent, update, hfields, hgit, hcommit, hagent, hupdate⟩ := ofJson?_eq_some_iff.1 hs
  -- each section that is read is the only member of its name, so it is the faulty object if that has this name
  have honly := Value.forall₂_of_fields? hfields
  simp only [sectionNames, List.forall₂_cons, List.forall₂_nil_left_iff, and_true] at honly
  obtain ⟨⟨_, hgit'⟩, ⟨_, hcommit'⟩, ⟨_, hagent'⟩, _, hupdate'⟩ := honly
  simp only [sections, List.mem_cons, List.not_mem_nil, or_false, Prod.mk.injEq] at hname
  rcases hname with ⟨rfl, rfl⟩ | ⟨rfl, rfl⟩ | ⟨rfl, rfl⟩ | ⟨rfl, rfl⟩
  · rw [← eq_of_filter_name_eq hgit' hm hdenotes, hinner, gitOfJson?_of_isIncomplete hinnerUnits hfield] at hgit
    cases hgit
  · rw [← eq_of_filter_name_eq hcommit' hm hdenotes, hinner, commitOfJson?_of_isIncomplete hinnerUnits hfield] at hcommit
    cases hcommit
  · rw [← eq_of_filter_name_eq hagent' hm hdenotes, hinner, commandOfJson?_of_isIncomplete hinnerUnits hfield] at hagent
    cases hagent
  · rw [← eq_of_filter_name_eq hupdate' hm hdenotes, hinner, commandOfJson?_of_isIncomplete hinnerUnits hfield] at hupdate
    cases hupdate

/-- A text for an object that lacks a section or one of its fields, or has one twice, is refused. -/
theorem read_of_isFaulty {members : List (List StringUnit × Value)} {text : Text} (h : IsFaulty members)
    (htext : Shows text (.object members)) : read text = .error .json := by
  rw [read, parse_of_shows htext, Option.bind_some, ofJson?_of_isFaulty (hasCodeUnits_of_shows htext) h]

/-! ## Loading -/

/-- What is loaded from a file are the accepted settings that are held by a value for which the file is written, whatever the layout,
the order of the fields, the other members and the escapes. A file with an object that lacks a section or one of its fields, or has one
twice, is refused. -/
theorem load_handwritten {t : FileTree} {path text : Text} (hfile : t.readText path = .ok text) :
    (∀ s : Settings, (load path).runOn t = (.ok s, t) ↔ s.defect? = none ∧ ∃ v, Shows text v ∧ s.IsIn v) ∧
    ∀ members, Shows text (.object members) → IsFaulty members → (load path).runOn t = (.error .json, t) := by
  have hload : (load path).runOn t = (read text, t) := by simp only [runOn_load, readFrom, hfile]
  constructor
  · intro s
    rw [hload, ← read_eq_ok_iff, Prod.mk.injEq, and_iff_left rfl]
  · intro members htext hfaulty
    rw [hload, read_of_isFaulty hfaulty htext]

/-- Settings with a command line that has a character of two code units. -/
def robotSettings : Settings where
  git := { branchPrefix := "team".toList, defaultRemote := "origin".toList, signCommits := true }
  commit := { defaultType := "fix".toList, requireScope := false }
  agentCommand := "say \"🤖\"".toList
  updateCommand := "up".toList

/-- The name of a field with an escape in it. -/
def escapedName : List StringUnit := unitsOfText "branch_".toList ++ .code 0x70 :: unitsOfText "refix".toList

theorem denotes_escapedName : Denotes escapedName "branch_prefix".toList :=
  (denotes_unitsOfText "branch_".toList).append (.code (c := 'p') (by decide) (denotes_unitsOfText "refix".toList))

/-- The section for git of these settings, in another order. -/
def robotGit : List (List StringUnit × Value) :=
  [(unitsOfText "sign_commits".toList, .bool true), (unitsOfText "default_remote".toList, .ofText "origin".toList),
    (escapedName, .ofText "team".toList)]

/-- The command line of these settings, with its character as a pair of code units. -/
def robotCommand : List StringUnit := unitsOfText "say \"".toList ++ .code 0xD83E :: .code 0xDD16 :: unitsOfText "\"".toList

/-- What nobody reads: a number, half of a pair of code units, and other values in one another. -/
def robotNotes : Value :=
  .array [.number "-1.5e+300".toList, .object [(unitsOfText "half".toList, .string [.code 0xD83E])], .array [.null, .array []]]

/-- These settings with a section for git, in another order and with notes. -/
def robotMembers (git : List (List StringUnit × Value)) : List (List StringUnit × Value) :=
  [(unitsOfText "notes".toList, robotNotes), (unitsOfText "update".toList, .ofFields [("command".toList, .ofText "up".toList)]),
    (unitsOfText "agent".toList, .object [(unitsOfText "command".toList, .string robotCommand)]),
    (unitsOfText "commit".toList,
      .ofFields [("default_type".toList, .ofText "fix".toList), ("require_scope".toList, .bool false)]),
    (unitsOfText "git".toList, .object git)]

theorem isIn_robotGit : robotSettings.git.IsIn (.object robotGit) := by
  have hmembers : List.Forall₂ (fun m n => Denotes m.1 n.1 ∧ m.2 = n.2) robotGit
      [("sign_commits".toList, .bool true), ("default_remote".toList, .ofText "origin".toList),
        ("branch_prefix".toList, .ofText "team".toList)] :=
    .cons ⟨denotes_unitsOfText _, rfl⟩ (.cons ⟨denotes_unitsOfText _, rfl⟩ (.cons ⟨denotes_escapedName, rfl⟩ .nil))
  exact ⟨_, _, ⟨_, rfl, denotes_unitsOfText _⟩, ⟨_, rfl, denotes_unitsOfText _⟩,
    .object hmembers (List.reverse_perm [_, _, _]) (List.forall_mem_nil _)⟩

theorem isIn_robotMembers : robotSettings.IsIn (.object (robotMembers robotGit)) := by
  have hcommand : Denotes robotCommand "say \"🤖\"".toList :=
    (denotes_unitsOfText "say \"".toList).append (.pair (c := '🤖') (by decide) (denotes_unitsOfText "\"".toList))
  have hmembers : List.Forall₂ (fun m n => Denotes m.1 n.1 ∧ m.2 = n.2) (robotMembers robotGit)
      [("notes".toList, robotNotes), ("update".toList, .ofFields [("command".toList, .ofText "up".toList)]),
        ("agent".toList, .ofFields [("command".toList, .string robotCommand)]),
        ("commit".toList,
          .ofFields [("default_type".toList, .ofText "fix".toList), ("require_scope".toList, .bool false)]),
        ("git".toList, .object robotGit)] :=
    .cons ⟨denotes_unitsOfText _, rfl⟩ (.cons ⟨denotes_unitsOfText _, rfl⟩ (.cons ⟨denotes_unitsOfText _, rfl⟩
      (.cons ⟨denotes_unitsOfText _, rfl⟩ (.cons ⟨denotes_unitsOfText _, rfl⟩ .nil))))
  refine ⟨_, _, _, _, isIn_robotGit, ⟨_, ⟨_, rfl, denotes_unitsOfText _⟩, Value.hasFields_ofFields _⟩,
    ⟨_, ⟨_, rfl, hcommand⟩, Value.hasFields_ofFields _⟩, ⟨_, ⟨_, rfl, denotes_unitsOfText _⟩, Value.hasFields_ofFields _⟩,
    .object hmembers (List.reverse_perm [_, _, _, _, _]) (by decide)⟩

/-- A section for git that has one of its fields twice. -/
def twiceGit : List (List StringUnit × Value) := robotGit ++ [(unitsOfText "branch_prefix".toList, .ofText "crew".toList)]

/-- These settings as a text around the fields of the section for git. -/
def robotText (git : Text) : Text :=
  ["\t\x7b\"notes\" : [-1.5e+300, ", "\x7b\"half\": \"\\ud83e\"\x7d,[null , [] ]],\r\n ",
      "\"update\":\x7b\"command\":\"up\"\x7d,", "\"agent\": \x7b\"command\": ", "\"say \\\"\\uD83E\\udd16\\\"\"\x7d,\n",
      "\"commit\": \x7b\"default_type\": \"fix\",", "\"require_scope\": false\x7d, ", "\"git\": \x7b"].flatMap String.toList ++
    git ++ "\x7d \x7d\n".toList

/-- The fields of the section for git as a text. -/
def robotGitText : Text :=
  ["\"sign_commits\":true,", "\"default_remote\" : \"origin\",\n", "\"branch_\\u0070refix\":\"team\""].flatMap String.toList

/-- The same fields, and one of them again. -/
def twiceGitText : Text := robotGitText ++ ", \"branch_prefix\": \"crew\"".toList

theorem shows_robotText : Shows (robotText robotGitText) (.object (robotMembers robotGit)) := by decide +kernel

theorem shows_twiceText : Shows (robotText twiceGitText) (.object (robotMembers twiceGit)) := by decide +kernel

theorem isFaulty_robotMembers : IsFaulty (robotMembers twiceGit) := by
  have htwice : IsIncomplete gitFields twiceGit :=
    ⟨"branch_prefix".toList, by decide, .inr ⟨_, _, List.sublist_append_right [_, _] [_, _], denotes_escapedName,
      denotes_unitsOfText _⟩⟩
  exact .inr ⟨("git".toList, gitFields), by decide, (unitsOfText "git".toList, .object twiceGit), by simp [robotMembers],
    denotes_unitsOfText _, twiceGit, rfl, htwice⟩

/-- A file tree with a text in a file. -/
def handTree (text : Text) : FileTree := { entries := [(["hand.json".toList], .file (Text.encode text))] }

theorem readText_handTree (text : Text) : (handTree text).readText "hand.json".toList = .ok text := by
  have hbytes : (handTree text).readBytes "hand.json".toList = .ok (Text.encode text) := rfl
  simp only [FileTree.readText, hbytes, Text.decode?_encode]

/-- The settings are loaded from their text, and the text with a field twice is refused. -/
theorem load_handwritten_robot :
    (robotSettings.defect? = none ∧ (load "hand.json".toList).runOn (handTree (robotText robotGitText)) =
      (.ok robotSettings, handTree (robotText robotGitText))) ∧
    (load "hand.json".toList).runOn (handTree (robotText twiceGitText)) =
      (.error .json, handTree (robotText twiceGitText)) := by
  have haccepted : robotSettings.defect? = none := by decide +kernel
  obtain ⟨hloaded, -⟩ := load_handwritten (readText_handTree (robotText robotGitText))
  obtain ⟨-, hrefused⟩ := load_handwritten (readText_handTree (robotText twiceGitText))
  exact ⟨⟨haccepted, (hloaded robotSettings).2 ⟨haccepted, _, shows_robotText, isIn_robotMembers⟩⟩,
    hrefused _ shows_twiceText isFaulty_robotMembers⟩

end Settings

end DevWorkflow
