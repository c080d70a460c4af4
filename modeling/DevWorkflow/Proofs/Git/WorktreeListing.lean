import DevWorkflow.Proofs.Text.Splitting
import DevWorkflow.Worktree

/-!
# Finding worktrees in git's list

The worktree of a branch is found at the first line that names the branch: it is at the path nearest above that line, if no empty
line lies between. Of a list of records that are printed as git prints them, this is the path of the first record that has the branch
checked out (`Worktree.find?_spec`), and never the path of another one, since a record ends with an empty line and has one path.

What is printed is read by lines, and the carriage return of a line that has nothing else on it belongs to the end of the line. So a
record with such a line above the one that says what is checked out is cut in two there, and its path is not found
(`Worktree.find?_strayReturn`).
-/

namespace DevWorkflow

namespace Worktree

/-! ## Reading lines of any kind -/

section Lines

variable {wanted : Text} {current : Option Text}

theorem findIn_path (path : Text) (rest : List Text) :
    findIn wanted current ((pathLabel ++ path) :: rest) = findIn wanted (some path) rest := by
  rw [findIn, Text.afterPrefix?_append]

theorem findIn_branch (name : Text) (rest : List Text) :
    findIn wanted current ((branchLabel ++ name) :: rest) = if name = wanted then current else findIn wanted current rest := by
  have hpath : Text.afterPrefix? pathLabel (branchLabel ++ name) = none := rfl
  rw [findIn, hpath, Text.afterPrefix?_append]

/-- A line that says neither where a worktree is nor which branch is checked out counts only if it is empty. -/
theorem findIn_other {line : Text} (hpath : ¬pathLabel <+: line) (hbranch : ¬branchLabel <+: line) (rest : List Text) :
    findIn wanted current (line :: rest) = findIn wanted (if line.isEmpty then none else current) rest := by
  rw [findIn, Text.afterPrefix?_eq_none_iff.2 hpath, Text.afterPrefix?_eq_none_iff.2 hbranch]

theorem findIn_others {lines : List Text} (h : ∀ line ∈ lines, ¬pathLabel <+: line ∧ ¬branchLabel <+: line) (rest : List Text) :
    findIn wanted current (lines ++ rest) = findIn wanted (if [] ∈ lines then none else current) rest := by
  induction lines generalizing current with
  | nil => rfl
  | cons line lines ih =>
    obtain ⟨⟨hpath, hbranch⟩, hlines⟩ := List.forall_mem_cons.1 h
    rw [List.cons_append, findIn_other hpath hbranch, ih hlines]
    cases line with
    | nil => simp
    | cons c line => simp

end Lines

/-! ## What the found path is -/

/-- Whether lines come to a certain line before any empty line and before any path. -/
def LeadsTo (target : Text) (lines : List Text) : Prop :=
  ∃ late after, lines = late ++ target :: after ∧ ∀ line ∈ late, line ≠ [] ∧ ¬pathLabel <+: line ∧ line ≠ target

/-- Whether a path is the nearest one above the first line of a certain kind, with no empty line between. -/
def IsAbove (path target : Text) (lines : List Text) : Prop :=
  ∃ early rest, lines = early ++ (pathLabel ++ path) :: rest ∧ target ∉ early ∧ LeadsTo target rest

section Above

variable {target line path : Text} {lines : List Text}

theorem not_leadsTo_nil : ¬LeadsTo target [] := by
  rintro ⟨late, after, h, -⟩
  exact List.append_ne_nil_of_right_ne_nil late (List.cons_ne_nil target after) h.symm

theorem leadsTo_cons_iff : LeadsTo target (line :: lines) ↔
    line = target ∨ line ≠ target ∧ line ≠ [] ∧ ¬pathLabel <+: line ∧ LeadsTo target lines := by
  constructor
  · rintro ⟨late, after, h, hlate⟩
    cases late with
    | nil => exact .inl (List.cons.inj h).1
    | cons first late =>
      obtain ⟨rfl, rfl⟩ := List.cons.inj h
      obtain ⟨⟨hne, hpath, htarget⟩, hlate⟩ := List.forall_mem_cons.1 hlate
      exact .inr ⟨htarget, hne, hpath, late, after, rfl, hlate⟩
  · rintro (rfl | ⟨htarget, hne, hpath, late, after, rfl, hlate⟩)
    · exact ⟨[], lines, rfl, List.forall_mem_nil _⟩
    · exact ⟨line :: late, after, rfl, List.forall_mem_cons.2 ⟨⟨hne, hpath, htarget⟩, hlate⟩⟩

theorem not_isAbove_nil : ¬IsAbove path target [] := by
  rintro ⟨early, rest, h, -⟩
  exact List.append_ne_nil_of_right_ne_nil early (List.cons_ne_nil _ rest) h.symm

theorem isAbove_cons_iff : IsAbove path target (line :: lines) ↔
    line = pathLabel ++ path ∧ LeadsTo target lines ∨ line ≠ target ∧ IsAbove path target lines := by
  constructor
  · rintro ⟨early, rest, h, htarget, hleads⟩
    cases early with
    | nil =>
      obtain ⟨rfl, rfl⟩ := List.cons.inj h
      exact .inl ⟨rfl, hleads⟩
    | cons first early =>
      obtain ⟨rfl, rfl⟩ := List.cons.inj h
      obtain ⟨hfirst, hearly⟩ := List.ne_and_not_mem_of_not_mem_cons htarget
      exact .inr ⟨hfirst.symm, early, rest, rfl, hearly, hleads⟩
  · rintro (⟨rfl, hleads⟩ | ⟨hne, early, rest, rfl, htarget, hleads⟩)
    · exact ⟨[], lines, rfl, List.not_mem_nil, hleads⟩
    · exact ⟨line :: early, rest, rfl, List.not_mem_cons_of_ne_of_not_mem hne.symm htarget, hleads⟩

end Above

/-- What is found is the path at which the lines start, if they lead to the line of the branch, or a path above that line. -/
theorem findIn_eq_some_iff {wanted path : Text} {current : Option Text} {lines : List Text} :
    findIn wanted current lines = some path ↔
      current = some path ∧ LeadsTo (branchLabel ++ wanted) lines ∨ IsAbove path (branchLabel ++ wanted) lines := by
  -- A line with a path makes that path the current one, so the statement is about any path at which the lines start.
  induction lines generalizing current with
  | nil => simp [findIn, not_leadsTo_nil, not_isAbove_nil]
  | cons line rest ih =>
    rw [leadsTo_cons_iff, isAbove_cons_iff]
    by_cases hpath : pathLabel <+: line
    · obtain ⟨here, rfl⟩ := hpath
      have hne : pathLabel ++ here ≠ branchLabel ++ wanted := nofun
      rw [findIn_path, ih]
      simp [hne]
    · have hne : line ≠ pathLabel ++ path := fun heq => hpath (heq ▸ List.prefix_append pathLabel path)
      by_cases hbranch : branchLabel <+: line
      · obtain ⟨name, rfl⟩ := hbranch
        rw [findIn_branch]
        by_cases hname : name = wanted
        · subst hname
          simp [hne]
        · have hline : branchLabel ++ name ≠ [] := nofun
          simp [hname, hne, hpath, hline, ih]
      · have hother : line ≠ branchLabel ++ wanted := fun heq => hbranch (heq ▸ List.prefix_append branchLabel wanted)
        rw [findIn_other hpath hbranch, ih]
        cases line with
        | nil => simp [hne, hother]
        | cons c line => simp [hne, hother, hpath]

/-! ## Printed records -/

/-- What is checked out in a worktree. -/
inductive Checkout where
  | branch (name : Text)
  | detached
  | bare
deriving DecidableEq, Repr

/-- The line that says what is checked out. -/
def Checkout.line : Checkout → Text
  | branch name => branchLabel ++ reference name
  | detached => "detached".toList
  | bare => "bare".toList

/-- What git says about a worktree. -/
structure Record where
  path : Text
  /-- The other lines above the one that says what is checked out. -/
  above : List Text := []
  checkout : Checkout
  /-- The other lines below it. -/
  below : List Text := []
deriving DecidableEq, Repr

/-- Whether a line of a record can say something else than the path and the branch. -/
structure IsRemark (line : Text) : Prop where
  ne_nil : line ≠ []
  feed_not_mem : '\n' ∉ line
  not_path : ¬pathLabel <+: line
  not_branch : ¬branchLabel <+: line

instance (line : Text) : Decidable (IsRemark line) :=
  decidable_of_iff (line ≠ [] ∧ '\n' ∉ line ∧ ¬pathLabel <+: line ∧ ¬branchLabel <+: line)
    ⟨fun ⟨hne, hfeed, hpath, hbranch⟩ => ⟨hne, hfeed, hpath, hbranch⟩,
      fun h => ⟨h.ne_nil, h.feed_not_mem, h.not_path, h.not_branch⟩⟩

namespace Record

/-- The lines of a record. -/
def lines (r : Record) : List Text := (pathLabel ++ r.path) :: (r.above ++ r.checkout.line :: (r.below ++ [[]]))

/-- Whether a record can be printed line by line. -/
structure IsPrintable (r : Record) : Prop where
  feed_not_mem_path : '\n' ∉ r.path
  getLast?_path : r.path.getLast? ≠ some '\r'
  feed_not_mem_checkout : '\n' ∉ r.checkout.line
  isRemark : ∀ line ∈ r.above ++ r.below, IsRemark line

instance (r : Record) : Decidable r.IsPrintable :=
  decidable_of_iff ('\n' ∉ r.path ∧ r.path.getLast? ≠ some '\r' ∧ '\n' ∉ r.checkout.line ∧
      ∀ line ∈ r.above ++ r.below, IsRemark line)
    ⟨fun ⟨hpath, hreturn, hcheckout, hremark⟩ => ⟨hpath, hreturn, hcheckout, hremark⟩,
      fun h => ⟨h.feed_not_mem_path, h.getLast?_path, h.feed_not_mem_checkout, h.isRemark⟩⟩

/-- The lines of records, each with a line feed at its end. -/
def print (records : List Record) : Text := (records.flatMap lines).flatMap fun line => line ++ ['\n']

end Record

section Records

variable {branch : Text} {r : Record}

theorem reference_ne_nil (branch : Text) : reference branch ≠ [] := nofun

theorem reference_inj {branch branch' : Text} : reference branch = reference branch' ↔ branch = branch' := List.append_right_inj _

/-- The line of a branch is read as the line of the branch without the carriage return at its end. -/
theorem dropReturn_branchLine (name : Text) :
    Text.dropReturn (Checkout.branch name).line = branchLabel ++ reference (Text.dropReturn name) := by
  have hline : (Checkout.branch name).line = branchLabel ++ reference name := rfl
  rw [hline, Text.dropReturn_append (reference_ne_nil name)]
  unfold reference
  cases name with
  | nil => rfl
  | cons c name => rw [Text.dropReturn_append (List.cons_ne_nil c name)]

theorem dropReturn_pathLine {path : Text} (h : path.getLast? ≠ some '\r') :
    Text.dropReturn (pathLabel ++ path) = pathLabel ++ path := by
  cases path with
  | nil => rfl
  | cons c path => rw [Text.dropReturn_append (List.cons_ne_nil c path), Text.dropReturn_of_getLast? h]

theorem IsRemark.not_labelled {line : Text} (h : IsRemark line) :
    ¬pathLabel <+: Text.dropReturn line ∧ ¬branchLabel <+: Text.dropReturn line :=
  ⟨fun hpath => h.not_path (hpath.trans (Text.dropReturn_prefix line)),
    fun hbranch => h.not_branch (hbranch.trans (Text.dropReturn_prefix line))⟩

/-- A remark is read as an empty line only if it is a carriage return. -/
theorem IsRemark.dropReturn_eq_nil_iff {line : Text} (h : IsRemark line) : Text.dropReturn line = [] ↔ line = ['\r'] := by
  rw [Text.dropReturn_eq_iff (by simp)]
  exact or_iff_right h.ne_nil

theorem nil_mem_map_dropReturn {lines : List Text} (h : ∀ line ∈ lines, IsRemark line) :
    [] ∈ lines.map Text.dropReturn ↔ ['\r'] ∈ lines := by
  rw [List.mem_map]
  constructor
  · rintro ⟨line, hline, heq⟩
    rwa [← (h line hline).dropReturn_eq_nil_iff.1 heq]
  · intro hline
    exact ⟨_, hline, rfl⟩

theorem findIn_remarks {wanted : Text} {current : Option Text} {lines : List Text} (h : ∀ line ∈ lines, IsRemark line)
    (rest : List Text) : findIn wanted current (lines.map Text.dropReturn ++ rest) =
      findIn wanted (if ['\r'] ∈ lines then none else current) rest := by
  rw [findIn_others (List.forall_mem_map.2 fun line hline => (h line hline).not_labelled)]
  simp only [nil_mem_map_dropReturn h]

/-- The line that says what is checked out decides if it is the one that is looked for, and else it is passed over. -/
theorem findIn_checkout {current : Option Text} {checkout : Checkout} (hbranch : branch.getLast? ≠ some '\r')
    (hcheckout : checkout ≠ .branch (branch ++ ['\r'])) (rest : List Text) :
    findIn (reference branch) current (Text.dropReturn checkout.line :: rest) =
      if checkout = .branch branch then current else findIn (reference branch) current rest := by
  cases checkout with
  | detached =>
    have hline : Text.dropReturn Checkout.detached.line = "detached".toList := by decide
    rw [hline, if_neg nofun, findIn_other (by decide) (by decide)]
    rfl
  | bare =>
    have hline : Text.dropReturn Checkout.bare.line = "bare".toList := by decide
    rw [hline, if_neg nofun, findIn_other (by decide) (by decide)]
    rfl
  | branch name =>
    have hname : Text.dropReturn name = branch ↔ name = branch := by
      rw [Text.dropReturn_eq_iff hbranch]
      exact or_iff_left fun heq => hcheckout (congrArg Checkout.branch heq)
    have hreference : reference (Text.dropReturn name) = reference branch ↔ Checkout.branch name = .branch branch :=
      (reference_inj.trans hname).trans (Iff.of_eq (Checkout.branch.injEq name branch)).symm
    rw [dropReturn_branchLine]
    exact (findIn_branch _ rest).trans (if_congr hreference rfl rfl)

/-- A record gives its path if the branch is checked out in it and is passed over if not; after it, no path is left. -/
theorem findIn_record (hr : r.IsPrintable) {current : Option Text} (hbranch : branch.getLast? ≠ some '\r')
    (hcheckout : r.checkout ≠ .branch (branch ++ ['\r'])) (rest : List Text) :
    findIn (reference branch) current (r.lines.map Text.dropReturn ++ rest) =
      if r.checkout = .branch branch then (if ['\r'] ∈ r.above then none else some r.path)
      else findIn (reference branch) none rest := by
  have habove : ∀ line ∈ r.above, IsRemark line := fun line hline => hr.isRemark line (List.mem_append_left _ hline)
  have hbelow : ∀ line ∈ r.below, IsRemark line := fun line hline => hr.isRemark line (List.mem_append_right _ hline)
  rw [Record.lines, List.map_cons, List.map_append, List.map_cons, List.map_append, dropReturn_pathLine hr.getLast?_path]
  simp only [List.cons_append, List.append_assoc]
  rw [findIn_path, findIn_remarks habove, findIn_checkout hbranch hcheckout, findIn_remarks hbelow]
  rfl

theorem feed_not_mem_lines (hr : r.IsPrintable) : ∀ line ∈ r.lines, '\n' ∉ line := by
  intro line hline
  unfold Record.lines at hline
  rcases List.mem_cons.1 hline with rfl | hline
  · exact mt List.mem_append.1 (not_or.2 ⟨by decide, hr.feed_not_mem_path⟩)
  rcases List.mem_append.1 hline with hline | hline
  · exact (hr.isRemark line (List.mem_append_left _ hline)).feed_not_mem
  rcases List.mem_cons.1 hline with rfl | hline
  · exact hr.feed_not_mem_checkout
  rcases List.mem_append.1 hline with hline | hline
  · exact (hr.isRemark line (List.mem_append_right _ hline)).feed_not_mem
  · rw [List.mem_singleton.1 hline]
    exact List.not_mem_nil

/-- Of the lines of records, the first record that has the branch checked out decides. -/
theorem findIn_records {records : List Record} (hbranch : branch.getLast? ≠ some '\r')
    (h : ∀ r ∈ records, r.IsPrintable ∧ r.checkout ≠ .branch (branch ++ ['\r'])) :
    findIn (reference branch) none ((records.flatMap Record.lines).map Text.dropReturn) =
      (records.find? fun r => r.checkout = .branch branch).bind fun r => if ['\r'] ∈ r.above then none else some r.path := by
  induction records with
  | nil => rfl
  | cons r records ih =>
    obtain ⟨⟨hr, hcheckout⟩, hrecords⟩ := List.forall_mem_cons.1 h
    rw [List.flatMap_cons, List.map_append, findIn_record hr hbranch hcheckout, ih hrecords, List.find?_cons]
    by_cases hout : r.checkout = .branch branch <;> simp [hout]

end Records

/-- Where the worktree of a branch is found. In lines of any kind, it is at the path nearest above the first line of the branch, if
there is no empty line between them, and nowhere if there is no such line or no such path. In records that are printed, it is at the
path of the first record that has the branch checked out, unless a line above the one that says so is a carriage return; then, and
where no record has it checked out, it is nowhere. A carriage return behind a printed name is not read. -/
theorem find?_spec :
    (∀ listing branch path, find? listing branch = some path ↔
      ∃ early late after, Text.lines listing =
          early ++ (pathLabel ++ path) :: (late ++ (branchLabel ++ reference branch) :: after) ∧
        branchLabel ++ reference branch ∉ early ∧
        ∀ line ∈ late, line ≠ [] ∧ ¬pathLabel <+: line ∧ line ≠ branchLabel ++ reference branch) ∧
    ∀ (records : List Record) (branch : Text), branch.getLast? ≠ some '\r' →
      (∀ r ∈ records, r.IsPrintable ∧ r.checkout ≠ .branch (branch ++ ['\r'])) →
      find? (Record.print records) branch =
        (records.find? fun r => r.checkout = .branch branch).bind fun r =>
          if ['\r'] ∈ r.above then none else some r.path := by
  constructor
  · intro listing branch path
    rw [find?, findIn_eq_some_iff]
    constructor
    · rintro (⟨hnone, -⟩ | ⟨early, -, hlines, hearly, late, after, rfl, hlate⟩)
      · cases hnone
      · exact ⟨early, late, after, hlines, hearly, hlate⟩
    · rintro ⟨early, late, after, hlines, hearly, hlate⟩
      exact .inr ⟨early, _, hlines, hearly, late, after, rfl, hlate⟩
  · intro records branch hbranch hrecords
    have hfeed : ∀ line ∈ records.flatMap Record.lines, '\n' ∉ line := by
      intro line hline
      obtain ⟨r, hr, hline⟩ := List.mem_flatMap.1 hline
      exact feed_not_mem_lines (hrecords r hr).1 line hline
    rw [find?, Record.print, Text.lines_flatMap hfeed, findIn_records hbranch hrecords]

/-- Three worktrees, of which two are on one branch and have carriage returns in them, the one below and the other one above the line
of the branch. -/
def sharedRecords : List Record := [
  { path := "/a".toList, above := ["HEAD 1".toList], checkout := .detached, below := ["locked branch".toList] },
  { path := "/b".toList, above := ["HEAD 2\r".toList], checkout := .branch "topic".toList, below := ["\r".toList] },
  { path := "/c".toList, above := ["\r".toList], checkout := .branch "topic".toList }]

/-- The first one of the two worktrees on the branch is found, and it is above the line of the branch in what is printed. -/
theorem find?_spec_sharedRecords :
    "topic".toList.getLast? ≠ some '\r' ∧
    (∀ r ∈ sharedRecords, r.IsPrintable ∧ r.checkout ≠ .branch ("topic".toList ++ ['\r'])) ∧
    find? (Record.print sharedRecords) "topic".toList = some "/b".toList ∧
    ∃ early late after, Text.lines (Record.print sharedRecords) =
        early ++ (pathLabel ++ "/b".toList) :: (late ++ (branchLabel ++ reference "topic".toList) :: after) ∧
      branchLabel ++ reference "topic".toList ∉ early ∧
      ∀ line ∈ late, line ≠ [] ∧ ¬pathLabel <+: line ∧ line ≠ branchLabel ++ reference "topic".toList := by
  have hbranch : "topic".toList.getLast? ≠ some '\r' := by decide
  have hrecords : ∀ r ∈ sharedRecords, r.IsPrintable ∧ r.checkout ≠ .branch ("topic".toList ++ ['\r']) := by decide
  have hfound : find? (Record.print sharedRecords) "topic".toList = some "/b".toList :=
    (find?_spec.2 sharedRecords _ hbranch hrecords).trans (by decide)
  exact ⟨hbranch, hrecords, hfound, (find?_spec.1 _ _ _).1 hfound⟩

/-- A worktree on a branch, with a carriage return on a line of its own above the line of the branch. -/
def cutRecord : Record := { path := "/a".toList, above := ["\r".toList], checkout := .branch "main".toList }

/-- The worktree is not found, although it is the one on the branch. And the worktree of another branch is found if its name goes on
with a carriage return or on another line. -/
theorem find?_strayReturn :
    cutRecord.IsPrintable ∧ [cutRecord].find? (fun r => r.checkout = .branch "main".toList) = some cutRecord ∧
    find? (Record.print [cutRecord]) "main".toList ≠ some cutRecord.path ∧
    ∀ name ∈ ["main\r".toList, "main\nlocked".toList],
      find? (Record.print [{ path := "/a".toList, checkout := .branch name }]) "main".toList = some "/a".toList := by
  decide

end Worktree

end DevWorkflow
