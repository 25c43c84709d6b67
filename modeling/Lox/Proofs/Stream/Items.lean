import Lox.Cbor
import Mathlib.Algebra.Ring.Nat
import Mathlib.Tactic.Ring

/-!
Data items that read back.

What is written as a head reads back as its major type and argument.  So an integer and a
text read back, and from items that read back so do the arrays and maps of them, within the
bounds on size and nesting.  Every byte of an item pays for three units of fuel, which is
what reading it takes.
-/

namespace Lox.Cbor

/-! ## Heads -/

theorem length_bigEndian (width n : Nat) : (bigEndian width n).length = width := by
  induction width with
  | zero => rfl
  | succ width ih => simp [bigEndian, ih]

theorem foldl_bigEndian (width n acc : Nat) :
    (bigEndian width n).foldl (fun a b => 256 * a + b.toNat) acc =
      256 ^ width * acc + n % 256 ^ width := by
  induction width generalizing acc with
  | zero => simp [bigEndian, Nat.mod_one]
  | succ width ih =>
      have hbyte : (n / Nat.pow 256 width % 256).toUInt8.toNat = n / 256 ^ width % 256 := by
        simp
      have hsplit : n % 256 ^ (width + 1) =
          n % 256 ^ width + 256 ^ width * (n / 256 ^ width % 256) := by
        rw [Nat.pow_succ, Nat.mod_mul]
      simp only [bigEndian, List.foldl_cons, ih, hbyte, hsplit]
      ring

theorem ofBigEndian_bigEndian {width n : Nat} (h : n < 256 ^ width) :
    ofBigEndian (bigEndian width n) = n := by
  unfold ofBigEndian
  rw [foldl_bigEndian, Nat.mod_eq_of_lt h]
  simp

theorem split?_append {front : Bytes} {n : Nat} (h : front.length = n) (rest : Bytes) :
    split? n (front ++ rest) = some (front, rest) := by
  subst h
  simp [split?]

theorem exists_initial {major info : Nat} (hmajor : major < 8) (hinfo : info < 32) :
    ∃ b : UInt8, (32 * major + info).toUInt8 = b ∧ b.toNat / 32 = major ∧ b.toNat % 32 = info := by
  have hbyte : (32 * major + info).toUInt8.toNat = 32 * major + info := by
    simp only [Nat.toUInt8_eq, UInt8.toNat_ofNat']
    omega
  exact ⟨_, rfl, by omega, by omega⟩

theorem readHead?_head {major n : Nat} (hmajor : major < 8) (hn : n < 2 ^ 64) (rest : Bytes) :
    ∃ info, info ≠ 31 ∧ readHead? (head major n ++ rest) = some (major, info, n, rest) := by
  have argument (width : Nat) (hwidth : n < 256 ^ width) :
      split? width (bigEndian width n ++ rest) = some (bigEndian width n, rest) ∧
        ofBigEndian (bigEndian width n) = n :=
    ⟨split?_append (length_bigEndian width n) rest, ofBigEndian_bigEndian hwidth⟩
  unfold head
  dsimp only
  split
  · next h =>
      obtain ⟨b, hb, hm, hi⟩ := exists_initial hmajor (show n < 32 by omega)
      exact ⟨n, by omega, by simp [hb, readHead?, hm, hi, h]⟩
  split
  · next h =>
      obtain ⟨b, hb, hm, hi⟩ := exists_initial hmajor (show 24 < 32 by decide)
      obtain ⟨hsplit, hvalue⟩ := argument 1 (by omega)
      exact ⟨24, by decide, by simp [hb, readHead?, hm, hi, hsplit, hvalue]⟩
  split
  · next h =>
      obtain ⟨b, hb, hm, hi⟩ := exists_initial hmajor (show 25 < 32 by decide)
      obtain ⟨hsplit, hvalue⟩ := argument 2 (by omega)
      exact ⟨25, by decide, by simp [hb, readHead?, hm, hi, hsplit, hvalue]⟩
  split
  · next h =>
      obtain ⟨b, hb, hm, hi⟩ := exists_initial hmajor (show 26 < 32 by decide)
      obtain ⟨hsplit, hvalue⟩ := argument 4 (by omega)
      exact ⟨26, by decide, by simp [hb, readHead?, hm, hi, hsplit, hvalue]⟩
  · obtain ⟨b, hb, hm, hi⟩ := exists_initial hmajor (show 27 < 32 by decide)
    obtain ⟨hsplit, hvalue⟩ := argument 8 (by omega)
    exact ⟨27, by decide, by simp [hb, readHead?, hm, hi, hsplit, hvalue]⟩

theorem head_ne_nil (major n : Nat) : head major n ≠ [] := by
  unfold head
  dsimp only
  repeat' split
  all_goals simp

theorem length_encode_pos (item : Cbor) : 0 < (encode item).length := by
  have hhead (major n : Nat) : 0 < (head major n).length :=
    List.length_pos_iff.mpr (head_ne_nil major n)
  cases item with
  | unsigned n | negative n | simple n => exact hhead _ n
  | bytes | text | array | map | tag =>
      rw [encode, List.length_append]
      exact Nat.add_pos_left (hhead _ _) _
  | float bits => simp [encode]

/-! ## Items -/

/-- With enough fuel, inside as many others as leave room for `nesting` levels. -/
def ReadsBack (nesting : Nat) (item : Cbor) : Prop :=
  ∀ (fuel depth : Nat) (rest : Bytes), 3 * (encode item).length ≤ fuel →
    depth + nesting ≤ depthLimit → item? fuel depth (encode item ++ rest) = some (item, rest)

namespace ReadsBack

theorem mono {k k' : Nat} {item : Cbor} (h : ReadsBack k item) (hk : k ≤ k') :
    ReadsBack k' item :=
  fun fuel depth rest hfuel hdepth => h fuel depth rest hfuel (by omega)

theorem ofInt {i : Int} (hlow : -2 ^ 63 ≤ i) (hhigh : i < 2 ^ 63) : ReadsBack 0 (ofInt i) := by
  intro fuel depth rest hfuel _
  have hpos := length_encode_pos (Cbor.ofInt i)
  obtain ⟨fuel, rfl⟩ : ∃ k, fuel = k + 1 := ⟨fuel - 1, by omega⟩
  cases i with
  | ofNat n =>
      obtain ⟨info, hinfo, hread⟩ := readHead?_head (show 0 < 8 by decide)
        (show n < 2 ^ 64 by simp only [Int.ofNat_eq_natCast] at hhigh; omega) rest
      simp [Cbor.ofInt, encode, item?, hread, hinfo]
  | negSucc n =>
      obtain ⟨info, hinfo, hread⟩ := readHead?_head (show 1 < 8 by decide)
        (show n < 2 ^ 64 by omega) rest
      simp [Cbor.ofInt, encode, item?, hread, hinfo]

theorem ofText {s : Bytes} (h : s.length < 2 ^ 64) : ReadsBack 0 (ofText s) := by
  intro fuel depth rest hfuel _
  have hpos := length_encode_pos (Cbor.ofText s)
  obtain ⟨fuel, rfl⟩ : ∃ k, fuel = k + 1 := ⟨fuel - 1, by omega⟩
  obtain ⟨info, hinfo, hread⟩ := readHead?_head (show 3 < 8 by decide) h (s ++ rest)
  have hsplit : split? s.length (s ++ rest) = some (s, rest) := split?_append rfl rest
  simp [Cbor.ofText, encode, item?, hread, string?, hinfo, hsplit]

end ReadsBack

/-! ## Items one after the other -/

section

variable {k : Nat} {items : List Cbor}

theorem length_le_encodeList (items : List Cbor) : items.length ≤ (encodeList items).length := by
  induction items with
  | nil => simp
  | cons item rest ih =>
      have hpos := length_encode_pos item
      rw [encodeList, List.length_append, List.length_cons]
      omega

theorem times?_encodeList (h : ∀ item ∈ items, ReadsBack k item) {fuel depth : Nat}
    (hfuel : 3 * (encodeList items).length + 1 ≤ fuel) (hdepth : depth + k ≤ depthLimit)
    (rest : Bytes) :
    times? fuel depth items.length (encodeList items ++ rest) = some (items, rest) := by
  induction items generalizing fuel with
  | nil =>
      obtain ⟨fuel, rfl⟩ : ∃ n, fuel = n + 1 := ⟨fuel - 1, by omega⟩
      simp [times?, encodeList]
  | cons item items ih =>
      obtain ⟨fuel, rfl⟩ : ∃ n, fuel = n + 1 := ⟨fuel - 1, by omega⟩
      obtain ⟨hitem, hitems⟩ := List.forall_mem_cons.mp h
      have hpos := length_encode_pos item
      rw [encodeList, List.length_append] at hfuel
      have hfirst := hitem fuel depth (encodeList items ++ rest) (by omega) hdepth
      have hothers : times? fuel depth items.length (encodeList items ++ rest) =
          some (items, rest) := ih hitems (by omega)
      simp [encodeList, times?, hfirst, hothers]

theorem elements?_encodeList (h : ∀ item ∈ items, ReadsBack k item) (fuel depth : Nat) {info : Nat}
    (hinfo : info ≠ 31) (hfuel : 3 * (encodeList items).length + 2 ≤ fuel)
    (hdepth : depth + (k + 1) ≤ depthLimit) (rest : Bytes) :
    elements? fuel depth info items.length (encodeList items ++ rest) = some (items, rest) := by
  obtain ⟨fuel, rfl⟩ : ∃ n, fuel = n + 1 := ⟨fuel - 1, by omega⟩
  have hnested : ¬depthLimit < depth + 1 := by omega
  have henough : ¬((encodeList items ++ rest).take items.length).length < items.length := by
    have hle := length_le_encodeList items
    rw [List.length_take, List.length_append]
    omega
  simp only [elements?, hnested, hinfo, henough, if_false]
  exact times?_encodeList h (by omega) (by omega) rest

theorem ReadsBack.array (h : ∀ item ∈ items, ReadsBack k item)
    (hsize : items.length ≤ sizeLimit) : ReadsBack (k + 1) (.array items) := by
  intro fuel depth rest hfuel hdepth
  have hhead := List.length_pos_iff.mpr (head_ne_nil 4 items.length)
  rw [encode, List.length_append] at hfuel
  obtain ⟨fuel, rfl⟩ : ∃ n, fuel = n + 1 := ⟨fuel - 1, by omega⟩
  obtain ⟨info, hinfo, hread⟩ := readHead?_head (show 4 < 8 by decide)
    (Nat.lt_of_le_of_lt hsize (by decide)) (encodeList items ++ rest)
  have hparts := elements?_encodeList h fuel depth hinfo (by omega) hdepth rest
  simp [encode, item?, hread, hparts, Nat.not_lt.mpr hsize]

end

/-! ## Keys and values in turn -/

section

variable {k : Nat} {entries : List (Cbor × Cbor)}

def inTurn (entries : List (Cbor × Cbor)) : List Cbor := entries.flatMap fun e => [e.1, e.2]

theorem encodeEntries_eq (entries : List (Cbor × Cbor)) :
    encodeEntries entries = encodeList (inTurn entries) := by
  induction entries with
  | nil => rfl
  | cons entry rest ih =>
      obtain ⟨key, value⟩ := entry
      simp only [inTurn] at ih
      simp [encodeEntries, inTurn, encodeList, ih]

theorem pairs?_inTurn (entries : List (Cbor × Cbor)) : pairs? (inTurn entries) = some entries := by
  induction entries with
  | nil => rfl
  | cons entry rest ih =>
      simp only [inTurn] at ih
      simp [inTurn, pairs?, ih]

theorem length_inTurn (entries : List (Cbor × Cbor)) :
    (inTurn entries).length = 2 * entries.length := by
  induction entries with
  | nil => rfl
  | cons entry rest ih =>
      simp only [inTurn] at ih
      simp [inTurn, ih]
      omega

theorem ReadsBack.map (h : ∀ entry ∈ entries, ReadsBack k entry.1 ∧ ReadsBack k entry.2)
    (hsize : entries.length ≤ sizeLimit) : ReadsBack (k + 1) (.map entries) := by
  intro fuel depth rest hfuel hdepth
  have hitems : ∀ item ∈ inTurn entries, ReadsBack k item := by
    intro item hitem
    obtain ⟨entry, hentry, hitem⟩ := List.mem_flatMap.mp hitem
    simp only [List.mem_cons, List.not_mem_nil, or_false] at hitem
    rcases hitem with rfl | rfl
    · exact (h entry hentry).1
    · exact (h entry hentry).2
  have hhead := List.length_pos_iff.mpr (head_ne_nil 5 entries.length)
  rw [encode, encodeEntries_eq, List.length_append] at hfuel
  obtain ⟨fuel, rfl⟩ : ∃ n, fuel = n + 1 := ⟨fuel - 1, by omega⟩
  obtain ⟨info, hinfo, hread⟩ := readHead?_head (show 5 < 8 by decide)
    (Nat.lt_of_le_of_lt hsize (by decide)) (encodeList (inTurn entries) ++ rest)
  have hparts := elements?_encodeList hitems fuel depth hinfo (by omega) hdepth rest
  rw [length_inTurn] at hparts
  simp [encode, encodeEntries_eq, item?, hread, hparts, pairs?_inTurn, Nat.not_lt.mpr hsize]

end

/-- An item that reads back is the single item in its bytes. -/
theorem decode?_encode {nesting : Nat} {item : Cbor} (h : ReadsBack nesting item)
    (hnesting : nesting ≤ depthLimit) : decode? (encode item) = some item := by
  have hitem := h (4 * ((encode item).length + 1)) 0 [] (by omega) (by omega)
  rw [List.append_nil] at hitem
  simp [decode?, hitem]

end Lox.Cbor
