import DevWorkflow.Fault
import DevWorkflow.FilePath
import DevWorkflow.Text.Utf8

/-!
# File trees

Directories and files, with the directory in which the program runs. Each entry is kept under its place: the names from the root
down to it. A path leads to a place part by part, and each part but the last has to be a directory (`locate`). What cannot be done
leaves the tree as it is, except that `createDirectories` keeps the directories that it made before it failed.
-/

namespace DevWorkflow

/-- What stands at a place. -/
inductive FileEntry where
  | directory
  | file (content : ByteArray)

/-- Files are the same if their bytes are. -/
instance : DecidableEq FileEntry := fun a b =>
  match a, b with
  | .directory, .directory => isTrue rfl
  | .directory, .file _ => isFalse nofun
  | .file _, .directory => isFalse nofun
  | .file c, .file d =>
    if h : c.data = d.data then isTrue (congrArg FileEntry.file (ByteArray.ext h))
    else isFalse fun e => h (congrArg ByteArray.data (FileEntry.file.inj e))

/-- Directories and files. -/
structure FileTree where
  /-- The entries below the root, each under its place. -/
  entries : List (List Text × FileEntry) := []
  /-- The place of the directory in which the program runs. -/
  workingDirectory : List Text := []

/-- An action on a file tree that may fail. -/
abbrev FileAction (ε α : Type) := ExceptT ε (StateM FileTree) α

namespace FileTree

/-- What stands at a place. The root is a directory. -/
def lookup (t : FileTree) (place : List Text) : Option FileEntry :=
  if place.isEmpty then some .directory else (t.entries.find? fun e => e.1 = place).map (·.2)

/-- The entries with another one at a place. -/
def putIn (place : List Text) (entry : FileEntry) : List (List Text × FileEntry) → List (List Text × FileEntry)
  | [] => [(place, entry)]
  | e :: rest => if e.1 = place then (place, entry) :: rest else e :: putIn place entry rest

/-- The tree with another entry at a place. -/
def put (t : FileTree) (place : List Text) (entry : FileEntry) : FileTree :=
  { t with entries := putIn place entry t.entries }

theorem find?_putIn_self (place : List Text) (entry : FileEntry) (entries : List (List Text × FileEntry)) :
    (putIn place entry entries).find? (fun e => e.1 = place) = some (place, entry) := by
  induction entries with
  | nil => simp [putIn]
  | cons e rest ih => by_cases h : e.1 = place <;> simp [putIn, h, ih]

theorem find?_putIn_of_ne {place other : List Text} (h : other ≠ place) (entry : FileEntry)
    (entries : List (List Text × FileEntry)) :
    (putIn place entry entries).find? (fun e => e.1 = other) = entries.find? fun e => e.1 = other := by
  induction entries with
  | nil => simp [putIn, h.symm]
  | cons e rest ih =>
    by_cases he : e.1 = place
    · simp [putIn, he, h.symm]
    · simp [putIn, he, List.find?_cons, ih]

/-- What is put at a place below the root stands there. -/
theorem lookup_put_self (t : FileTree) {place : List Text} (h : place ≠ []) (entry : FileEntry) :
    (t.put place entry).lookup place = some entry := by
  simp [lookup, put, find?_putIn_self, h]

/-- What is put at a place changes nothing at any other one. -/
theorem lookup_put_of_ne (t : FileTree) {place other : List Text} (h : other ≠ place) (entry : FileEntry) :
    (t.put place entry).lookup other = t.lookup other := by
  simp only [lookup, put, find?_putIn_of_ne h]

/-- The number of bytes in the longest name that the system takes. -/
def longestName : Nat := 255

/-- The number of bytes in the longest path that the system takes. -/
def longestPath : Nat := 4095

/-- The place to which the parts of a path lead from another place, which has to be a directory if there are any. -/
def walk (t : FileTree) (place : List Text) : List Text → Except IoFault (List Text)
  | [] => .ok place
  | part :: rest =>
    match t.lookup place with
    | none => .error .notFound
    | some (.file _) => .error .notADirectory
    | some .directory =>
      if longestName < (Text.encode part).size then .error .nameTooLong
      else if part = ['.'] then t.walk place rest
      else if part = "..".toList then t.walk place.dropLast rest
      else t.walk (place ++ [part]) rest

/-- The steps of a path, if the system takes it. -/
def steps (path : Text) : Except IoFault (List Text) :=
  if path.any fun c => c.toNat = 0 then .error .nulInPath
  else if path.isEmpty then .error .notFound
  else if longestPath < (Text.encode path).size then .error .nameTooLong
  else .ok (FilePath.steps path)

/-- The place from which a path leads. -/
def origin (t : FileTree) (path : Text) : List Text := if FilePath.isAbsolute path then [] else t.workingDirectory

/-- The place to which a path leads. -/
def locate (t : FileTree) (path : Text) : Except IoFault (List Text) :=
  match steps path with
  | .error e => .error e
  | .ok steps => t.walk (t.origin path) steps

/-- Whether a path can only stand for a directory because it ends with a slash. -/
def endsWithSlash (path : Text) : Bool := path.getLast? = some '/'

/-- The place to which a path leads at which a file can be put. A path that can only stand for a directory has none: that is found
out as soon as its last part is to be looked up in a directory, whatever that part is. -/
def locateFile (t : FileTree) (path : Text) : Except IoFault (List Text) :=
  match steps path with
  | .error e => .error e
  | .ok steps =>
    if endsWithSlash path then
      match t.walk (t.origin path) (steps.dropLast ++ [['.']]) with
      | .error e => .error e
      | .ok _ => .error .isADirectory
    else t.walk (t.origin path) steps

example : ({} : FileTree).locateFile "a/".toList = .error .isADirectory
    ∧ ({} : FileTree).locateFile "a/b/".toList = .error .notFound := ⟨rfl, rfl⟩

/-- What a path leads to. -/
def entryAt? (t : FileTree) (path : Text) : Option FileEntry :=
  match t.locate path with
  | .error _ => none
  | .ok place =>
    match t.lookup place with
    | some (.file content) => if endsWithSlash path then none else some (.file content)
    | other => other

/-- Whether a path leads to something. -/
def pathExists (t : FileTree) (path : Text) : Bool := (t.entryAt? path).isSome

/-- Whether a path leads to a directory. -/
def isDirectory (t : FileTree) (path : Text) : Bool := t.entryAt? path = some .directory

/-- The contents of the file at a path. -/
def readBytes (t : FileTree) (path : Text) : Except IoFault ByteArray :=
  match t.locate path with
  | .error e => .error e
  | .ok place =>
    match t.lookup place with
    | none => .error .notFound
    | some .directory => .error .isADirectory
    | some (.file content) => if endsWithSlash path then .error .notADirectory else .ok content

/-- The text of the file at a path. -/
def readText (t : FileTree) (path : Text) : Except IoFault Text :=
  match t.readBytes path with
  | .error e => .error e
  | .ok content =>
    match Text.decode? content with
    | some text => .ok text
    | none => .error .notUtf8

/-- The tree with a file at a path, in place of the one that may be there. -/
def writeBytes (t : FileTree) (path : Text) (content : ByteArray) : Except IoFault FileTree :=
  match t.locateFile path with
  | .error e => .error e
  | .ok place =>
    match t.lookup place with
    | some .directory => .error .isADirectory
    | _ => .ok (t.put place (.file content))

/-- The tree with a new directory at a path. -/
def createDirectory (t : FileTree) (path : Text) : Except IoFault FileTree :=
  match t.locate path with
  | .error e => .error e
  | .ok place =>
    match t.lookup place with
    | some _ => .error .alreadyExists
    | none => .ok (t.put place .directory)

/-- The tree with a directory at the first of some paths, of which each is above the one before it, and the fault if there is
none. -/
def createAlong (t : FileTree) : List Text → FileTree × Except IoFault Unit
  | [] => (t, .ok ())
  | path :: above =>
    match t.createDirectory path with
    | .ok t' => (t', .ok ())
    | .error .notFound =>
      match t.createAlong above with
      | (t', .error e) => (t', .error e)
      | (t', .ok ()) =>
        match t'.createDirectory path with
        | .ok t'' => (t'', .ok ())
        | .error e => (t', if t'.isDirectory path then .ok () else .error e)
    | .error e => (t, if t.isDirectory path then .ok () else .error e)

/-- A path and the paths above it that are not empty, up to the given number. -/
def ancestorsUpTo : Nat → Text → List Text
  | 0, _ => []
  | n + 1, path =>
    if path.isEmpty then []
    else
      path :: (match FilePath.parent? path with
        | some above => ancestorsUpTo n above
        | none => [])

/-- A path and the paths above it that are not empty. -/
def ancestors (path : Text) : List Text := ancestorsUpTo (path.length + 1) path

/-- Makes a directory and those above it where they are missing. -/
def createDirectories (path : Text) : FileAction IoFault Unit := fun t =>
  let (t', result) := t.createAlong (ancestors path)
  (result, t')

/-- Writes a file. -/
def writeFile (path : Text) (content : ByteArray) : FileAction IoFault Unit := fun t =>
  match t.writeBytes path content with
  | .ok t' => (.ok (), t')
  | .error e => (.error e, t)

/-- Writes a file that holds a text. -/
def writeText (path text : Text) : FileAction IoFault Unit := writeFile path (Text.encode text)

/-- Looks something up in the tree. -/
def look {α : Type} (f : FileTree → Except IoFault α) : FileAction IoFault α := fun t => (f t, t)

/-- Makes the directory in which a file at the path will stand. -/
def createParent (path : Text) : FileAction IoFault Unit :=
  match FilePath.parent? path with
  | some above => createDirectories above
  | none => pure ()

/-- A place as seen from the working directory, if it stands below it. -/
def relative? (t : FileTree) (place : List Text) : Option Text :=
  if t.workingDirectory.isPrefixOf place then some (Text.join ['/'] (place.drop t.workingDirectory.length)) else none

/-- The files below the working directory that are new or differ from those in an earlier tree, with their contents. -/
def changesSince (after before : FileTree) : List (Text × ByteArray) :=
  after.entries.filterMap fun e =>
    match e.2 with
    | .directory => none
    | .file content =>
      if before.lookup e.1 = some (.file content) then none else (after.relative? e.1).map fun path => (path, content)

end FileTree

end DevWorkflow
