import Lox.Host

/-!
Settings of the command, read from the nearest configuration file.
-/

namespace Lox

/-- `path` is the file that the settings were read from, empty if there was none. -/
structure Config where
  prompt : Bytes := utf8 "> "
  historyFile : Bytes := []
  color : Bool := true
  maxCallDepth : Int := 0
  verbosity : Int := -3
  logFile : Bytes := []
  path : Bytes := []
  deriving DecidableEq, Repr

namespace Config

def fileName : Bytes := utf8 "lox.toml"

def standard (home : Bytes) : Config :=
  { historyFile := if home = [] then [] else Path.join home (utf8 ".lox_history") }

/-! ## Loading -/

inductive Problem where
  | unreadable (path : Bytes) (fault : FileFault)
  | malformed (path : Bytes)
  | negativeDepth (path : Bytes)
  deriving DecidableEq, Repr

def Problem.message : Problem → Bytes
  | .unreadable path fault => utf8 "cannot read " ++ path ++ utf8 ": " ++ fault.describe path
  | .malformed path => utf8 "parse error in " ++ path
  | .negativeDepth path => path ++ utf8 ": max_call_depth must not be negative"

/-- What a document makes of settings; `none` if it is malformed or a value has a wrong type. -/
abbrev Overlay := Bytes → Config → Option Config

variable {m : Type → Type} [Monad m] (overlay : Overlay) (host : Host m)

/-- The settings in the content of a file, on top of the standard ones. -/
def ofFile (home path : Bytes) : Except FileFault Bytes → Except Problem Config
  | .error fault => .error (.unreadable path fault)
  | .ok document =>
      match overlay document (standard home) with
      | none => .error (.malformed path)
      | some c =>
          if c.maxCallDepth < 0 then .error (.negativeDepth path) else .ok { c with path }

def load (path : Bytes) : m (Except Problem Config) := do
  return ofFile overlay host.home path (← host.read path)

/--
The settings in the configuration file of a directory, or if none is seen there in that of
the nearest directory above it.  The root is the directory above itself.
-/
def search (directory : Path.Absolute) : m (Except Problem Config) := do
  let path := Path.join directory.text fileName
  match ← host.stat path with
  | .ok () => load overlay host path
  | .error _ =>
      if directory.parent = directory then return .ok (standard host.home)
      else search directory.parent
termination_by directory.location.length
decreasing_by exact Path.Absolute.length_location_parent_lt ‹_›

def findFrom (directory : Bytes) : m (Except Problem Config) :=
  search overlay host (.ofPath host.directory directory)

def find : m (Except Problem Config) := findFrom overlay host (Path.text host.directory)

end Config

end Lox
