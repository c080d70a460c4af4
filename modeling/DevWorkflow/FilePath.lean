import DevWorkflow.Text

/-!
# File paths

Paths as texts with slashes. A path's parts are what stands between the slashes; empty parts and single dots lead nowhere and
are passed over, except a dot at the very start, which `parent?` and `fileName?` keep as the working directory.
-/

namespace DevWorkflow

namespace FilePath

/-- Whether a path starts at the root. -/
def isAbsolute (path : Text) : Bool := path.head? = some '/'

/-- The path of `name` below `path`. An absolute `name` stands for itself, and a slash is added only where there is none. -/
def join (path name : Text) : Text :=
  if isAbsolute name then name
  else if path.isEmpty || path.getLast? = some '/' then path ++ name
  else path ++ '/' :: name

/-- Whether a part of a path leads nowhere. -/
def isVoid (part : Text) : Bool := part.isEmpty || part = ['.']

/-- The parts of a path that lead somewhere. -/
def parts (path : Text) : List Text := (Text.splitAt (· = '/') path).filter fun part => !isVoid part

/-- The parts of a path that are steps on the way to what it names: all that are not empty. -/
def steps (path : Text) : List Text := (Text.splitAt (· = '/') path).filter fun part => !part.isEmpty

/-- The front of a path that belongs to none of its parts: the slash of the root, or a dot for the working directory. -/
def anchor (path : Text) : Text :=
  match path with
  | '/' :: _ => ['/']
  | ['.'] => ['.']
  | '.' :: '/' :: _ => ['.']
  | _ => []

/-- Pieces between slashes without those at the end that lead nowhere. -/
def dropVoidEnd (pieces : List Text) : List Text := (pieces.reverse.dropWhile isVoid).reverse

/-- What follows the anchor, as pieces between slashes, without the pieces at the end that lead nowhere. -/
def body (path : Text) : List Text := dropVoidEnd (Text.splitAt (· = '/') (path.drop (anchor path).length))

/-- The last part of a path, if it names something. -/
def fileName? (path : Text) : Option Text := (body path).getLast?.filter (· ≠ "..".toList)

/-- A path without its last part; none for the root and for an empty path. -/
def parent? (path : Text) : Option Text :=
  match body path with
  | [] => if anchor path = ['.'] then some [] else none
  | pieces => some (anchor path ++ Text.join ['/'] (dropVoidEnd pieces.dropLast))

/-- A path with another name in place of its last part. -/
def withFileName (path name : Text) : Text :=
  match fileName? path with
  | some _ => join ((parent? path).getD []) name
  | none => join path name

example : join "a".toList "b".toList = "a/b".toList ∧ join "a".toList "/b".toList = "/b".toList := by decide

example : parent? "./a//b/.".toList = some "./a".toList ∧ parent? "/a".toList = some "/".toList := by decide

example : fileName? "/bin/bash/".toList = some "bash".toList ∧ fileName? "/bin/..".toList = none := by decide

end FilePath

end DevWorkflow
