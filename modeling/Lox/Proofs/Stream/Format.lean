import Lox.Cbor
import Mathlib.Algebra.Ring.Int.Defs
import Mathlib.Algebra.Ring.Nat
import Mathlib.Data.List.Forall2

/-!
What a codec for data items does.

An item begins with a head: its major type and a number, which is the length of a text, the
number of elements of a list or of entries of a record.  A codec writes data in the fewest bytes
and with the entries of a record in the order of their names, and it reads items written so, if
they are neither too large nor nested too deep.  What it reads of a list or a record follows from
what it reads of the parts.
-/

namespace Lox

namespace Cbor

def IsWord (i : Int) : Prop := -2 ^ 63 ≤ i ∧ i < 2 ^ 63

instance (i : Int) : Decidable (IsWord i) := inferInstanceAs (Decidable (_ ∧ _))

def textItem (s : Bytes) : Bytes := head 3 s.length ++ s

def listItem (parts : List Bytes) : Bytes := head 4 parts.length ++ parts.flatten

def recordItem (entries : List (Bytes × Bytes)) : Bytes :=
  head 5 entries.length ++ entries.flatMap fun e => textItem e.1 ++ e.2

/-- One item with at most so many lists and records around each other. -/
inductive IsItem : Nat → Bytes → Prop
  | text {k : Nat} {s : Bytes} (h : s.length < 2 ^ 63) : IsItem k (textItem s)
  | natural {k n : Nat} (h : n < 2 ^ 63) : IsItem k (head 0 n)
  | negative {k n : Nat} (h : n < 2 ^ 63) : IsItem k (head 1 n)
  | list {k : Nat} {parts : List Bytes} (hsize : parts.length ≤ sizeLimit)
      (hparts : ∀ s ∈ parts, IsItem k s) : IsItem (k + 1) (listItem parts)
  | record {k : Nat} {entries : List (Bytes × Bytes)} (hsize : entries.length ≤ sizeLimit)
      (hnames : ∀ e ∈ entries, e.1.length < 2 ^ 63) (hvalues : ∀ e ∈ entries, IsItem k e.2) :
      IsItem (k + 1) (recordItem entries)

end Cbor

namespace Codec

open Cbor (head textItem listItem recordItem IsItem nameLe lowerAscii sizeLimit depthLimit)

/-- Every datum has one encoding. -/
structure Canonical (codec : Codec) : Prop where
  text (s : Bytes) : s.length < 2 ^ 63 → codec.encode (.text s) = .ok (textItem s)
  natural (n : Nat) : n < 2 ^ 63 → codec.encode (.integer (.ofNat n)) = .ok (head 0 n)
  negative (n : Nat) : n < 2 ^ 63 → codec.encode (.integer (.negSucc n)) = .ok (head 1 n)
  list (items : List Datum) (parts : List Bytes) : items.length < 2 ^ 63 →
    List.Forall₂ (fun d s => codec.encode d = .ok s) items parts →
      codec.encode (.list items) = .ok (listItem parts)
  record (fields sorted : List (Bytes × Datum)) (entries : List (Bytes × Bytes)) :
    sorted.Perm fields → sorted.Pairwise (fun f g => nameLe f.1 g.1 ∧ f.1 ≠ g.1) →
      (∀ f ∈ fields, f.1.length < 2 ^ 63) →
      List.Forall₂ (fun f e => f.1 = e.1 ∧ codec.encode f.2 = .ok e.2) sorted entries →
        codec.encode (.record fields) = .ok (recordItem entries)

def field? (codec : Codec) (entries : List (Bytes × Bytes)) (f : Bytes × Datum.Shape) :
    Option (Bytes × Datum) := do
  let s ← entries.lookup f.1
  return (f.1, ← codec.decode? f.2 s)

/-- A text is read if it is accepted.  A record is read by the names of its fields. -/
structure Reading (accepts : Bytes → Bool) (codec : Codec) : Prop where
  text (s : Bytes) : s.length < 2 ^ 63 →
    codec.decode? .text (textItem s) = if accepts s then some (.text s) else none
  natural (n : Nat) : n < 2 ^ 63 →
    codec.decode? .integer (head 0 n) = some (.integer (.ofNat n))
  negative (n : Nat) : n < 2 ^ 63 →
    codec.decode? .integer (head 1 n) = some (.integer (.negSucc n))
  list (shape : Datum.Shape) (parts : List Bytes) (k : Nat) : parts.length ≤ sizeLimit →
    (∀ s ∈ parts, IsItem k s) → k < depthLimit →
      codec.decode? (.list shape) (listItem parts) =
        (parts.mapM (codec.decode? shape)).map .list
  record (fields : List (Bytes × Datum.Shape)) (entries : List (Bytes × Bytes)) (k : Nat) :
    entries.length ≤ sizeLimit →
    (∀ e ∈ entries, e.1.length < 2 ^ 63 ∧ accepts e.1 = true ∧ IsItem k e.2) → k < depthLimit →
    (entries.map Prod.fst).Perm (fields.map Prod.fst) →
    (fields.map fun f => f.1.map lowerAscii).Nodup →
      codec.decode? (.record fields) (recordItem entries) =
        (fields.mapM (codec.field? entries)).map .record

end Codec

end Lox
