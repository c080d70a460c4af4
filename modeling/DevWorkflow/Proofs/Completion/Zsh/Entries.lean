import DevWorkflow.Proofs.Completion.Zsh.Specs
import DevWorkflow.Proofs.Completion.Zsh.Words

/-!
# Subcommands with their descriptions

A command with subcommands lists each of them as one word, its name and its description with a colon between them, and `_describe`
divides the word at its first colon that has no backslash in front of it. A colon in a name is written as it is, so a word is divided
where it should be just if every colon of the name has a backslash in front of it and the name does not end with a backslash; the
description may be any text. What is offered then is the name on one line, but what is dispatched on is the name as it was given
(`Zsh.splitPair?_entry`).
-/

namespace DevWorkflow

namespace Zsh

/-! ## What `_describe` divides -/

/-- Divides a text that stands behind a character at the first colon that has no backslash in front of it. -/
def splitBehind? (before : Char) : Text → Option (Text × Text)
  | [] => none
  | c :: rest =>
    if c = ':' ∧ before ≠ '\\' then some ([], rest)
    else (splitBehind? c rest).map fun r => (c :: r.1, r.2)

/-- Divides a pair at the first colon that has no backslash in front of it, as if the pair stood behind a space. -/
def splitPair? (pair : Text) : Option (Text × Text) := splitBehind? ' ' pair

/-- Whether every colon of a text has a backslash in front of it, unless the text begins with it. -/
def KeepsColons (t : Text) : Prop := t.IsChain fun a b => b = ':' → a = '\\'

instance (t : Text) : Decidable (KeepsColons t) := inferInstanceAs (Decidable (List.IsChain _ _))

/-- Whether every colon of a name has a backslash in front of it and no backslash is at its end, where it would keep the colon behind
the name. -/
def IsEntryName (name : Text) : Prop := name.head? ≠ some ':' ∧ KeepsColons name ∧ name.getLast? ≠ some '\\'

instance (name : Text) : Decidable (IsEntryName name) := inferInstanceAs (Decidable (_ ∧ _ ∧ _))

/-- Behind a character, a name with a colon and a description is divided at that colon just if every colon of the name has a backslash
in front of it and that colon has none. -/
theorem splitBehind?_append_eq_iff (before : Char) (name description : Text) :
    splitBehind? before (name ++ ':' :: description) = some (name, description) ↔
      KeepsColons (before :: name) ∧ (before :: name).getLast? ≠ some '\\' := by
  induction name generalizing before with
  | nil =>
    have hchain : KeepsColons [before] := List.IsChain.singleton before
    rw [List.nil_append, splitBehind?]
    by_cases hbefore : before = '\\'
    · refine iff_of_false ?_ fun h => h.2 (by rw [hbefore]; rfl)
      rw [if_neg fun h => h.2 hbefore]
      intro h
      obtain ⟨_, -, hname⟩ := Text.map_cons_eq_some_iff.1 h
      cases hname
    · rw [if_pos ⟨rfl, hbefore⟩]
      exact iff_of_true rfl ⟨hchain, by simpa using hbefore⟩
  | cons c name ih =>
    rw [List.cons_append, splitBehind?, KeepsColons, List.isChain_cons_cons, List.getLast?_cons_cons, and_assoc]
    by_cases hcolon : c = ':' ∧ before ≠ '\\'
    · rw [if_pos hcolon]
      exact iff_of_false (by simp) fun h => hcolon.2 (h.1 hcolon.1)
    · rw [if_neg hcolon, and_iff_right fun hc => not_not.1 fun hbefore => hcolon ⟨hc, hbefore⟩, Text.map_cons_eq_some_iff]
      refine Iff.trans ⟨?_, fun h => ⟨name, h, rfl⟩⟩ (ih c)
      rintro ⟨name', hsplit, hname⟩
      obtain ⟨-, rfl⟩ := List.cons.inj hname
      exact hsplit

/-- A pair is divided into its name and its description just if no colon of the name is bare and the name does not end with a
backslash. -/
theorem splitPair?_append_eq_iff (name description : Text) :
    splitPair? (name ++ ':' :: description) = some (name, description) ↔ IsEntryName name := by
  rw [splitPair?, splitBehind?_append_eq_iff, KeepsColons, IsEntryName, KeepsColons]
  cases name with
  | nil => simp
  | cons c name => simp [and_assoc]

/-! ## Entries -/

/-- The entry that lists a subcommand. -/
def entry (c : CommandTree) : Text := inQuotes (quote c.name ++ ":".toList ++ quote c.description)

/-- The line of a subcommand is its entry, indented. -/
theorem describeLine_eq (c : CommandTree) : describeLine c = "        ".toList ++ entry c ++ "\n".toList := by
  have hindent : "        '".toList = "        ".toList ++ "'".toList := rfl
  have hend : "'\n".toList = "'".toList ++ "\n".toList := rfl
  unfold describeLine entry inQuotes
  rw [hindent, hend]
  simp only [List.append_assoc]

/-- The entry of a subcommand is the word of its name and its description, each on one line, with a colon between them. -/
theorem isWord_entry (c : CommandTree) : IsWord (entry c) (Text.singleLine c.name ++ ':' :: Text.singleLine c.description) := by
  have hcolon : escape (':' :: Text.singleLine c.description) = ":".toList ++ escape (Text.singleLine c.description) :=
    escape_append [':'] _
  have hentry : entry c = inQuotes (escape (Text.singleLine c.name ++ ':' :: Text.singleLine c.description)) := by
    rw [entry, quote_eq, quote_eq, escape_append, hcolon, List.append_assoc]
  rw [hentry]
  exact isWord_inQuotes_escape _

/-- The entry of a subcommand stands on a line of its own in the script. -/
theorem infix_script_entry {t : CommandTree} {x : Place} (hx : x ∈ t.topDown []) {c : CommandTree} (hc : c ∈ x.tree.subcommands) :
    "        ".toList ++ entry c ++ "\n".toList <:+: script t := by
  have hline : describeLine c <:+: x.tree.subcommands.flatMap describeLine := List.infix_of_mem_flatten (List.mem_map_of_mem hc)
  have hblock : describeLine c <:+: block x := by
    rw [block_of_not_isLeaf (CommandTree.isLeaf_of_mem_subcommands hc)]
    simp only [List.append_assoc]
    exact List.infix_append_of_infix_right (List.infix_append_of_infix_left hline)
  rw [← describeLine_eq]
  exact hblock.trans (infix_block_script hx)

/-! ## What is dispatched on -/

/-- The case of a function's body that a word is dispatched to, if the labels are taken as they are written. -/
def FunctionBody.arm? : FunctionBody → Text → Option (Text × Text)
  | .leaf _, _ => none
  | .branch _ _ _ arms, word => arms.find? fun arm => arm.1 = word

/-- Where the names of the subcommands are different, a word is dispatched to a subcommand just if it is the name of that as it was
given. -/
theorem arm?_functionOf_eq_iff {x : Place} (hnodup : (x.tree.subcommands.map (·.name)).Nodup) {c : CommandTree}
    (hc : c ∈ x.tree.subcommands) (word : Text) :
    (functionOf x.path x.tree).body.arm? word = some (c.name, functionName (x.path ++ [c.name])) ↔ word = c.name := by
  have harms : (functionOf x.path x.tree).body.arm? word =
      (x.tree.subcommands.find? fun d => d.name = word).map fun d => (d.name, functionName (x.path ++ [d.name])) := by
    rw [functionOf, CommandTree.isLeaf_of_mem_subcommands hc, if_neg Bool.false_ne_true, FunctionBody.arm?, List.find?_map]
    rfl
  rw [harms]
  constructor
  · intro h
    obtain ⟨d, hd, harm⟩ := Option.map_eq_some_iff.1 h
    have hword : d.name = word := by simpa using List.find?_some hd
    rw [← hword]
    exact (Prod.mk.inj harm).1
  · rintro rfl
    rw [find?_eq_of_nodup hnodup hc]
    rfl

/-- In a valid tree every subcommand is listed on a line of its own, by an entry that is one word. `_describe` divides it into the name
and the description, each on one line, just if every colon of that name has a backslash in front of it and the name does not end with
one. And the name on one line is dispatched to the subcommand just if the name was given on one line. -/
theorem splitPair?_entry {t : CommandTree} (hvalid : t.defect? = none) {x : Place} (hx : x ∈ t.topDown []) {c : CommandTree}
    (hc : c ∈ x.tree.subcommands) :
    "        ".toList ++ entry c ++ "\n".toList <:+: script t ∧
    ∃ word, IsWord (entry c) word ∧
      (splitPair? word = some (Text.singleLine c.name, Text.singleLine c.description) ↔ IsEntryName (Text.singleLine c.name)) ∧
      ((functionOf x.path x.tree).body.arm? (Text.singleLine c.name) = some (c.name, functionName (x.path ++ [c.name])) ↔
        Text.singleLine c.name = c.name) := by
  have hcommand : x.tree ∈ t.commands := by
    rw [← CommandTree.map_tree_topDown []]
    exact List.mem_map_of_mem hx
  have hnodup : (x.tree.subcommands.map (·.name)).Nodup := ((CommandTree.defect?_eq_none_iff t).1 hvalid x.tree hcommand).siblings
  refine ⟨infix_script_entry hx hc, _, isWord_entry c, ?_, ?_⟩
  · exact splitPair?_append_eq_iff (Text.singleLine c.name) (Text.singleLine c.description)
  · exact arm?_functionOf_eq_iff hnodup hc (Text.singleLine c.name)

/-- A subcommand with a colon in its name that has a backslash in front of it, and with bare colons in its description. -/
def keptColonCommand : CommandTree := CommandTree.ofName "db\\:it's".toList "Don't: run\n [this]: twice".toList

/-- A tree with this subcommand. -/
def keptColonTree : CommandTree := (CommandTree.ofName "devx".toList []).addSubcommand keptColonCommand

/-- Its entry is divided where it should be, and its name is dispatched to it. -/
theorem splitPair?_entry_keptColonTree :
    keptColonTree.defect? = none ∧ keptColonCommand ∈ keptColonTree.subcommands ∧
    ∃ word, IsWord "'db\\:it'\\''s:Don'\\''t: run [this]: twice'".toList word ∧
      splitPair? word = some ("db\\:it's".toList, "Don't: run [this]: twice".toList) ∧
      (functionOf [] keptColonTree).body.arm? "db\\:it's".toList = some ("db\\:it's".toList, "_devx_db__it_s".toList) := by
  have hvalid : keptColonTree.defect? = none := by decide
  have hplace : ⟨[], keptColonTree⟩ ∈ keptColonTree.topDown [] := by
    rw [CommandTree.topDown_eq]
    exact List.mem_cons_self
  have hchild : keptColonCommand ∈ keptColonTree.subcommands := List.mem_singleton_self _
  have hname : IsEntryName (Text.singleLine keptColonCommand.name) := by decide
  have hline : Text.singleLine keptColonCommand.name = keptColonCommand.name := by decide
  obtain ⟨-, word, hword, hsplit, harm⟩ := splitPair?_entry hvalid hplace hchild
  exact ⟨hvalid, hchild, word, hword, hsplit.2 hname, harm.2 hline⟩

/-- A tree with a subcommand that has a bare colon in its name. -/
def colonTree : CommandTree :=
  (CommandTree.ofName "devx".toList []).addSubcommand (CommandTree.ofName "db:migrate".toList "Run the migrations".toList)

/-- The tree is valid, but the entry of the subcommand is divided at the colon in its name, and what is offered for the name is
dispatched to nothing. -/
theorem splitPair?_colonTree :
    colonTree.defect? = none ∧
    colonTree.subcommands.map entry = ["'db:migrate:Run the migrations'".toList] ∧
    ShellWords.split "'db:migrate:Run the migrations'".toList = some ["db:migrate:Run the migrations".toList] ∧
    splitPair? "db:migrate:Run the migrations".toList = some ("db".toList, "migrate:Run the migrations".toList) ∧
    (functionOf [] colonTree).body.arm? "db".toList = none ∧
    (functionOf [] colonTree).body.arm? "db:migrate".toList = some ("db:migrate".toList, "_devx_db_migrate".toList) := by
  decide

end Zsh

end DevWorkflow
