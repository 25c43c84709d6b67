import Lox.Path

/-!
Trees of files, what is seen of one, and what stands in the way.
-/

namespace Lox

inductive FileFault where
  | missing
  | notDirectory
  | isDirectory
  | denied
  | tooLong
  | badName
  deriving DecidableEq, Repr

namespace FileFault

def describe (path : Bytes) : FileFault → Bytes
  | .missing => utf8 "open " ++ path ++ utf8 ": no such file or directory"
  | .notDirectory => utf8 "open " ++ path ++ utf8 ": not a directory"
  | .isDirectory => utf8 "read " ++ path ++ utf8 ": is a directory"
  | .denied => utf8 "open " ++ path ++ utf8 ": permission denied"
  | .tooLong => utf8 "open " ++ path ++ utf8 ": file name too long"
  | .badName => utf8 "open " ++ path ++ utf8 ": invalid argument"

end FileFault

/--
Files and directories.  The directories above a file or directory exist as well.
What is in `locked` may not be read, and of a directory in `closed` no entry may be looked up.
-/
structure FileTree where
  files : List (Location × Bytes)
  directories : List Location
  locked : List Location := []
  closed : List Location := []

namespace FileTree

def isDirectory (t : FileTree) (place : Location) : Bool :=
  place.isEmpty || t.directories.any place.isPrefixOf
    || t.files.any fun (file, _) => place.isPrefixOf file && place != file

def faultAt (t : FileTree) (place : Location) : FileFault :=
  if (t.files.lookup place).isSome then .notDirectory else .missing

def nameLimit : Nat := 255

def pathLimit : Nat := 4095

/--
Follows the names of a path, each but the last of which must lead to a directory.  To look a
name up the directory must be open.
-/
def follow (t : FileTree) (place : Location) : List Bytes → Except FileFault Location
  | [] => .ok place
  | name :: rest =>
      if !t.isDirectory place then .error (t.faultAt place)
      else if name ≠ [] ∧ t.closed.contains place then .error .denied
      else if nameLimit < name.length then .error .tooLong
      else t.follow (Path.step place name) rest

def locate (t : FileTree) (directory : Location) (path : Bytes) : Except FileFault Location :=
  if path = [] then .error .missing
  else if path.contains 0 then .error .badName
  else if pathLimit < path.length then .error .tooLong
  else t.follow (if Path.isAbsolute path then [] else directory) (Path.split path)

def holds (t : FileTree) (place : Location) : Bool :=
  (t.files.lookup place).isSome || t.isDirectory place

def stat (t : FileTree) (directory : Location) (path : Bytes) : Except FileFault Unit := do
  let place ← t.locate directory path
  if t.holds place then .ok () else .error .missing

/-- The content of the file at a location; a directory can be opened, but not read. -/
def content (t : FileTree) (place : Location) : Except FileFault Bytes :=
  if !t.holds place then .error .missing
  else if t.locked.contains place then .error .denied
  else
    match t.files.lookup place with
    | some data => .ok data
    | none => .error .isDirectory

def read (t : FileTree) (directory : Location) (path : Bytes) : Except FileFault Bytes := do
  t.content (← t.locate directory path)

end FileTree

end Lox
