import Lox.Codec
import Lox.Text.Utf8

/-!
CBOR data items.

Items are written in their shortest form.  Any well-formed encoding is read: also
heads longer than need be, and strings, arrays and maps of indefinite length.
Nesting and the number of elements are bounded.
-/

namespace Lox

inductive Cbor where
  | unsigned (n : Nat)
  | negative (n : Nat)
  | bytes (chunks : List Bytes)
  | text (chunks : List Bytes)
  | array (items : List Cbor)
  | map (entries : List (Cbor × Cbor))
  | tag (number : Nat) (content : Cbor)
  | simple (n : Nat)
  | float (bits : Bytes)
  deriving Inhabited

namespace Cbor

/-! ## Writing -/

def bigEndian : (width : Nat) → Nat → Bytes
  | 0, _ => []
  | width + 1, n => (n / Nat.pow 256 width % 256).toUInt8 :: bigEndian width n

/-- A major type with its argument, in the fewest bytes. -/
def head (major n : Nat) : Bytes :=
  let initial (info : Nat) : UInt8 := (32 * major + info).toUInt8
  if n < 24 then [initial n]
  else if n < 0x100 then initial 24 :: bigEndian 1 n
  else if n < 0x10000 then initial 25 :: bigEndian 2 n
  else if n < 0x100000000 then initial 26 :: bigEndian 4 n
  else initial 27 :: bigEndian 8 n

def ofInt : Int → Cbor
  | .ofNat n => .unsigned n
  | .negSucc n => .negative n

def ofText (s : Bytes) : Cbor := .text [s]

mutual

def encode : Cbor → Bytes
  | .unsigned n => head 0 n
  | .negative n => head 1 n
  | .bytes chunks => head 2 chunks.flatten.length ++ chunks.flatten
  | .text chunks => head 3 chunks.flatten.length ++ chunks.flatten
  | .array items => head 4 items.length ++ encodeList items
  | .map entries => head 5 entries.length ++ encodeEntries entries
  | .tag number content => head 6 number ++ encode content
  | .simple n => head 7 n
  | .float bits =>
      (if bits.length = 2 then 0xf9 else if bits.length = 4 then 0xfa else 0xfb) :: bits

def encodeList : List Cbor → Bytes
  | [] => []
  | item :: rest => encode item ++ encodeList rest

def encodeEntries : List (Cbor × Cbor) → Bytes
  | [] => []
  | (key, value) :: rest => encode key ++ encode value ++ encodeEntries rest

end

/-! ## Reading -/

def sizeLimit : Nat := 131072

def depthLimit : Nat := 32

def ofBigEndian (s : Bytes) : Nat := s.foldl (fun n b => 256 * n + b.toNat) 0

def split? (n : Nat) (s : Bytes) : Option (Bytes × Bytes) :=
  let front := s.take n
  if front.length = n then some (front, s.drop n) else none

/-- Major type, additional information, argument and rest. -/
def readHead? : Bytes → Option (Nat × Nat × Nat × Bytes)
  | [] => none
  | b :: rest =>
      let major := b.toNat / 32
      let info := b.toNat % 32
      let wide (width : Nat) : Option (Nat × Nat × Nat × Bytes) := do
        let (argument, rest) ← split? width rest
        return (major, info, ofBigEndian argument, rest)
      if info < 24 then some (major, info, info, rest)
      else
        match info with
        | 24 => wide 1
        | 25 => wide 2
        | 26 => wide 4
        | 27 => wide 8
        | 31 => some (major, info, 0, rest)
        | _ => none

/-- The chunks of a string of indefinite length, through the break. -/
def chunks? (major : Nat) : Nat → Bytes → Option (List Bytes × Bytes)
  | 0, _ => none
  | _ + 1, 0xff :: rest => some ([], rest)
  | fuel + 1, s => do
      let (m, info, n, rest) ← readHead? s
      if m ≠ major ∨ info = 31 then none
      else
        let (chunk, rest) ← split? n rest
        let (chunks, rest) ← chunks? major fuel rest
        return (chunk :: chunks, rest)

def string? (major info n : Nat) (rest : Bytes) : Option (List Bytes × Bytes) :=
  if info = 31 then chunks? major (rest.length + 1) rest
  else do
    let (s, rest) ← split? n rest
    return ([s], rest)

def primitive? (info n : Nat) (argument rest : Bytes) : Option (Cbor × Bytes) :=
  if info < 24 then some (.simple info, rest)
  else if info = 24 then if n < 32 then none else some (.simple n, rest)
  else if info = 31 then none
  else some (.float argument, rest)

def pairs? : List Cbor → Option (List (Cbor × Cbor))
  | [] => some []
  | [_] => none
  | key :: value :: rest => do return (key, value) :: (← pairs? rest)

mutual

/-- One item and the rest; `depth` is the number of items around it. -/
def item? : Nat → (depth : Nat) → Bytes → Option (Cbor × Bytes)
  | 0, _, _ => none
  | fuel + 1, depth, s => do
      let (major, info, n, rest) ← readHead? s
      match major with
      | 0 => if info = 31 then none else some (.unsigned n, rest)
      | 1 => if info = 31 then none else some (.negative n, rest)
      | 2 => do
          let (chunks, rest) ← string? major info n rest
          return (.bytes chunks, rest)
      | 3 => do
          let (chunks, rest) ← string? major info n rest
          return (.text chunks, rest)
      | 4 => do
          let (items, rest) ← elements? fuel depth info n rest
          if sizeLimit < items.length then none else return (.array items, rest)
      | 5 => do
          let (items, rest) ← elements? fuel depth info (2 * n) rest
          let entries ← pairs? items
          if sizeLimit < entries.length then none else return (.map entries, rest)
      | 6 => do
          if info = 31 then none
          else
            let nested := rest.head?.any fun b => b.toNat / 32 = 6
            if nested ∧ depthLimit < depth + 1 then none
            else
              let (content, rest) ← item? fuel (if nested then depth + 1 else depth) rest
              return (.tag n content, rest)
      | _ => primitive? info n ((s.drop 1).take (s.length - 1 - rest.length)) rest

def elements? : Nat → (depth info n : Nat) → Bytes → Option (List Cbor × Bytes)
  | 0, _, _, _, _ => none
  | fuel + 1, depth, info, n, s =>
      if depthLimit < depth + 1 then none
      else if info = 31 then untilBreak? fuel (depth + 1) s
      else if (s.take n).length < n then none
      else times? fuel (depth + 1) n s

def times? : Nat → (depth n : Nat) → Bytes → Option (List Cbor × Bytes)
  | 0, _, _, _ => none
  | _ + 1, _, 0, s => some ([], s)
  | fuel + 1, depth, n + 1, s => do
      let (item, rest) ← item? fuel depth s
      let (items, rest) ← times? fuel depth n rest
      return (item :: items, rest)

def untilBreak? : Nat → (depth : Nat) → Bytes → Option (List Cbor × Bytes)
  | 0, _, _ => none
  | _ + 1, _, 0xff :: rest => some ([], rest)
  | fuel + 1, depth, s => do
      let (item, rest) ← item? fuel depth s
      let (items, rest) ← untilBreak? fuel depth rest
      return (item :: items, rest)

end

def decode? (s : Bytes) : Option Cbor :=
  match item? (4 * (s.length + 1)) 0 s with
  | some (item, []) => some item
  | _ => none

/-! ## Reading as values of a type -/

def largestInt : Nat := 0x7fffffffffffffff

/-- Null and undefined stand for the zero of every type. -/
def isNull : Cbor → Bool
  | .simple n => n == 22 || n == 23
  | _ => false

/-- Times are texts or numbers, and large numbers are byte strings. -/
def tagFits (number : Nat) (content : Cbor) : Bool :=
  match number, content with
  | 0, .text _ => true
  | 1, .unsigned _ => true
  | 1, .negative _ => true
  | 1, .float _ => true
  | 2, .bytes _ => true
  | 3, .bytes _ => true
  | number, _ => 3 < number

def bounded? (n : Nat) : Option Int := if n ≤ largestInt then some n else none

def boundedNegative? (n : Nat) : Option Int := if n ≤ largestInt then some (.negSucc n) else none

def asInt? : Cbor → Option Int
  | .unsigned n => bounded? n
  | .negative n => boundedNegative? n
  | .simple n => if n = 22 ∨ n = 23 then some 0 else if n = 20 ∨ n = 21 then none else some n
  | .tag 2 (.bytes chunks) => bounded? (ofBigEndian chunks.flatten)
  | .tag 3 (.bytes chunks) => boundedNegative? (ofBigEndian chunks.flatten)
  | .tag number content => if tagFits number content then asInt? content else none
  | _ => none

def asText? (accepts : Bytes → Bool) : Cbor → Option Bytes
  | .text chunks => if chunks.all accepts then some chunks.flatten else none
  | .simple n => if n = 22 ∨ n = 23 then some [] else none
  | .tag number content =>
      if 2 ≤ number ∧ number ≤ 3 then none
      else if tagFits number content then asText? accepts content
      else none
  | _ => none

def asArray? : Cbor → Option (List Cbor)
  | .array items => some items
  | .simple n => if n = 22 ∨ n = 23 then some [] else none
  | .tag number content =>
      if 2 ≤ number ∧ number ≤ 3 then none
      else if tagFits number content then asArray? content
      else none
  | _ => none

def lowerAscii (b : UInt8) : UInt8 := if 0x41 ≤ b && b ≤ 0x5a then b + 0x20 else b

/--
The entries with a text as key, under the key in lower case.  Keys that are numbers are
passed over, unless they are below the 64-bit integers; keys of another type are refused.
-/
def namedEntries? (accepts : Bytes → Bool) : List (Cbor × Cbor) → Option (List (Bytes × Cbor))
  | [] => some []
  | (key, value) :: rest => do
      let named ← namedEntries? accepts rest
      match key with
      | .text _ => return ((← asText? accepts key).map lowerAscii, value) :: named
      | .unsigned _ => return named
      | .negative n => if n ≤ largestInt then return named else none
      | _ => none

/-- The fields of a record, of which the first entry counts. -/
def asRecord? (accepts : Bytes → Bool) : Cbor → Option (List (Bytes × Cbor))
  | .map entries => namedEntries? accepts entries
  | .simple n => if n = 22 ∨ n = 23 then some [] else none
  | .tag number content =>
      if 2 ≤ number ∧ number ≤ 3 then none
      else if tagFits number content then asRecord? accepts content
      else none
  | _ => none

/-! ## Data -/

/-- Shorter names come first, and those of one length in the order of their bytes. -/
def nameLe (x y : Bytes) : Bool := x.length < y.length || (x.length == y.length && x.le y)

mutual

def ofDatum : Datum → Cbor
  | .text s => ofText s
  | .integer n => ofInt n
  | .list items => .array (ofData items)
  | .record fields =>
      .map (((ofFields fields).mergeSort fun e e' => nameLe e.1 e'.1).map
        fun e => (ofText e.1, e.2))

def ofData : List Datum → List Cbor
  | [] => []
  | d :: rest => ofDatum d :: ofData rest

def ofFields : List (Bytes × Datum) → List (Bytes × Cbor)
  | [] => []
  | (name, d) :: rest => (name, ofDatum d) :: ofFields rest

end

mutual

/-- What a field is that no entry stands for. -/
def zero : Datum.Shape → Datum
  | .text => .text []
  | .integer => .integer 0
  | .list _ => .list []
  | .record fields => .record (zeros fields)

def zeros : List (Bytes × Datum.Shape) → List (Bytes × Datum)
  | [] => []
  | (name, shape) :: rest => (name, zero shape) :: zeros rest

end

mutual

def asDatum? (accepts : Bytes → Bool) : Datum.Shape → Cbor → Option Datum
  | .text, item => (item.asText? accepts).map .text
  | .integer, item => item.asInt?.map .integer
  | .list shape, item => do return .list (← (← item.asArray?).mapM (asDatum? accepts shape))
  | .record fields, item => do
      return .record (← asFields? accepts fields (← item.asRecord? accepts))

def asFields? (accepts : Bytes → Bool) :
    List (Bytes × Datum.Shape) → List (Bytes × Cbor) → Option (List (Bytes × Datum))
  | [], _ => some []
  | (name, shape) :: rest, entries => do
      let value ←
        match entries.lookup (name.map lowerAscii) with
        | some item => asDatum? accepts shape item
        | none => some (zero shape)
      return (name, value) :: (← asFields? accepts rest entries)

end

/-- Data in the shortest form of each item, and from any well-formed item with accepted texts. -/
def codecFor (accepts : Bytes → Bool) : Codec where
  encode d := .ok (ofDatum d).encode
  decode? shape s := (decode? s).bind (asDatum? accepts shape)

def codec : Codec := codecFor Utf8.isValid

end Cbor

end Lox
