import Lox.Codec
import Lox.Json
import Lox.Token

/-!
Token streams as data: flat records of tokens, in JSON and in a binary format.
-/

namespace Lox

structure Record where
  kind : Bytes
  lexeme : Bytes
  literal : Bytes
  line : Int
  column : Int
  offset : Int
  deriving DecidableEq, Repr

namespace Record

def ofToken (t : Token) : Record where
  kind := utf8 t.kind.name
  lexeme := t.lexeme
  literal := t.literal.echoed
  line := t.line
  column := t.span.start.column
  offset := t.span.start.offset

def json (r : Record) : Json :=
  .object [("kind", .text r.kind), ("lexeme", .text r.lexeme), ("literal", .text r.literal),
    ("line", .integer r.line), ("column", .integer r.column), ("offset", .integer r.offset)]

def datum (r : Record) : Datum :=
  .record [(utf8 "kind", .text r.kind), (utf8 "lexeme", .text r.lexeme),
    (utf8 "literal", .text r.literal), (utf8 "line", .integer r.line),
    (utf8 "column", .integer r.column), (utf8 "offset", .integer r.offset)]

def shape : Datum.Shape :=
  .record [(utf8 "kind", .text), (utf8 "lexeme", .text), (utf8 "literal", .text),
    (utf8 "line", .integer), (utf8 "column", .integer), (utf8 "offset", .integer)]

def ofDatum? : Datum → Option Record
  | .record [(_, .text kind), (_, .text lexeme), (_, .text literal), (_, .integer line),
      (_, .integer column), (_, .integer offset)] =>
      some { kind, lexeme, literal, line, column, offset }
  | _ => none

end Record

namespace Stream

def json (records : List Record) : Json :=
  .object [("tokens", .array (records.map Record.json))]

def datum (records : List Record) : Datum :=
  .record [(utf8 "tokens", .list (records.map Record.datum))]

def shape : Datum.Shape := .record [(utf8 "tokens", .list Record.shape)]

def ofDatum? : Datum → Option (List Record)
  | .record [(_, .list items)] => items.mapM Record.ofDatum?
  | _ => none

def encode (codec : Codec) (records : List Record) : Except Bytes Bytes :=
  codec.encode (datum records)

def decode? (codec : Codec) (s : Bytes) : Option (List Record) :=
  (codec.decode? shape s).bind ofDatum?

end Stream

end Lox
