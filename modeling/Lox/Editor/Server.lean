import Lox.Bindings
import Lox.Editor.Symbols
import Lox.Pipeline

/-!
The language server: it keeps the text of the open documents, publishes their
diagnostics and lists their symbols.
-/

namespace Lox.Editor

def version : Bytes := utf8 "0.1.0"

structure Server where
  documents : Bindings Bytes := []
  trace : Bytes := utf8 "off"
  deriving DecidableEq, Repr

inductive Change where
  | whole (text : Bytes)
  | part (text : Bytes)
  deriving DecidableEq, Repr

structure Publication where
  uri : Bytes
  notices : List Notice
  deriving DecidableEq, Repr

def Publication.json (p : Publication) : Json :=
  .object [("uri", .text p.uri), ("diagnostics", .array (p.notices.map Notice.json))]

/--
The library for the editor protocol: the capabilities that it announces for a server with
these handlers, and the level of tracing in force once a level is set.
-/
structure Protocol where
  capabilities : List (String × Json)
  traceAfter : Bytes → Bytes

/-- What the server tells a client that connects: documents are sent as whole texts. -/
def greeting (protocol : Protocol) : Json :=
  .object
    [("capabilities", .object
        (("textDocumentSync", .object [("openClose", .bool true), ("change", .integer 1)]) ::
          protocol.capabilities.filter fun entry => entry.1 != "textDocumentSync")),
     ("serverInfo", .object [("name", .text serverName), ("version", .text version)])]

namespace Server

def publish (uri text : Bytes) : Publication :=
  ⟨uri, (check text).report.diagnostics.map .ofDiagnostic⟩

def put (s : Server) (uri text : Bytes) : Publication × Server :=
  (publish uri text, { s with documents := s.documents.set uri text })

/--
Only the last change counts, and it must carry the whole text.  No change at all
does nothing.
-/
def change (s : Server) (uri : Bytes) (changes : List Change) :
    Except Bytes (Option Publication × Server) :=
  match changes.getLast? with
  | none => .ok (none, s)
  | some (.whole text) =>
      let (publication, s) := s.put uri text
      .ok (some publication, s)
  | some (.part _) =>
      .error (uri ++ utf8 ": incremental change events are not supported")

def close (s : Server) (uri : Bytes) : Publication × Server :=
  (⟨uri, []⟩, { s with documents := s.documents.erase uri })

def symbols (s : Server) (uri : Bytes) : Option (List Entry) := do
  let text ← s.documents.get? uri
  match outline (parse text).1 with
  | [] => none
  | entries => some entries

def setTrace (protocol : Protocol) (s : Server) (value : Bytes) : Server :=
  { s with trace := protocol.traceAfter value }

def shutdown (protocol : Protocol) (s : Server) : Server := s.setTrace protocol (utf8 "off")

end Server

end Lox.Editor
