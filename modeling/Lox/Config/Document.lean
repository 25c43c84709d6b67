import Lox.Config
import Lox.Toml.Reader

/-!
Settings in documents.

The tables of a document hold settings under their names, in either case.  What is not a
setting is passed over.
-/

namespace Lox.Config

/-- The letter that a character stands for in the name of a setting, in either case. -/
def foldChar (c : Char) : Char :=
  if c.toNat = 0x17f then 's' else if c.toNat = 0x212a then 'k' else c.toLower

def foldName (name : Bytes) : Bytes := Utf8.encode ((Utf8.decodeLossy name).map foldChar)

def asText? : Toml.Value → Option Bytes
  | .scalar (.text s) => some s
  | _ => none

def asInteger? : Toml.Value → Option Int
  | .scalar (.integer n) => some n
  | _ => none

def asBool? : Toml.Value → Option Bool
  | .scalar (.bool b) => some b
  | _ => none

def asTable? : Toml.Value → Option Toml.Fields
  | .table fields => some fields
  | _ => none

inductive Area where
  | repl
  | runtime
  | log
  deriving DecidableEq, Repr

def Area.ofName? (name : Bytes) : Option Area :=
  if name = utf8 "repl" then some .repl
  else if name = utf8 "runtime" then some .runtime
  else if name = utf8 "log" then some .log
  else none

def setting? (area : Area) (c : Config) (name : Bytes) (v : Toml.Value) : Option Config :=
  match area with
  | .repl =>
      if name = utf8 "prompt" then do return { c with prompt := ← asText? v }
      else if name = utf8 "history_file" then do return { c with historyFile := ← asText? v }
      else if name = utf8 "color" then do return { c with color := ← asBool? v }
      else some c
  | .runtime =>
      if name = utf8 "max_call_depth" then do return { c with maxCallDepth := ← asInteger? v }
      else some c
  | .log =>
      if name = utf8 "verbosity" then do return { c with verbosity := ← asInteger? v }
      else if name = utf8 "file" then do return { c with logFile := ← asText? v }
      else some c

def area? (c : Config) (name : Bytes) (v : Toml.Value) : Option Config :=
  match Area.ofName? (foldName name) with
  | none => some c
  | some area => do
      (← asTable? v).foldlM (fun c (key, v) => setting? area c (foldName key) v) c

/-- Changes settings as a document says; `none` if a value has the wrong type. -/
def override? (c : Config) (document : Toml.Fields) : Option Config :=
  document.foldlM (fun c (name, v) => area? c name v) c

def ofDocument : Overlay := fun document c => (Toml.read? document).bind (override? c)

end Lox.Config
