import Lox.Text.Bytes

/-!
Data on their way to bytes and back.

A codec stands for a library: it writes the data of a program in some binary format, and reads
bytes as data of the shape that the program expects.
-/

namespace Lox

inductive Datum where
  | text (s : Bytes)
  | integer (n : Int)
  | list (items : List Datum)
  | record (fields : List (Bytes × Datum))

inductive Datum.Shape where
  | text
  | integer
  | list (item : Shape)
  | record (fields : List (Bytes × Shape))

/-- Writing may fail with a message. -/
structure Codec where
  encode : Datum → Except Bytes Bytes
  decode? : Datum.Shape → Bytes → Option Datum

end Lox
