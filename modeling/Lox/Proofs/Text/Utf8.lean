import Lox.Proofs.Token.Composition

/-!
Well-formed text.

A byte below `0x80` is a character of its own and never part of a longer one.  So a text
may be cut before and after such a byte: it is well formed if and only if both parts are.
A text goes on with a character exactly if it starts with the bytes of one.
-/

namespace Lox.Utf8

open Scan (front?_append_ascii front?_width)

theorem isSome_mapM (f : α → Option β) (xs : List α) :
    (xs.mapM f).isSome = xs.all fun x => (f x).isSome := by
  induction xs with
  | nil => rfl
  | cons x rest ih =>
      rw [List.mapM_cons, List.all_cons, ← ih]
      cases f x with
      | none => rfl
      | some y => cases rest.mapM f <;> rfl

theorem isValid_eq_all (s : Bytes) : isValid s = (pieces s).all fun p => p.char?.isSome :=
  isSome_mapM Piece.char? (pieces s)

theorem piecesFrom_append_ascii {x : UInt8} (hx : x < 0x80) {skip : Nat} {s : Bytes}
    (hskip : skip ≤ s.length) (t : Bytes) :
    piecesFrom skip (s ++ x :: t) = piecesFrom skip s ++ pieces (x :: t) := by
  induction s generalizing skip with
  | nil =>
      obtain rfl : skip = 0 := Nat.le_zero.mp hskip
      rfl
  | cons a rest ih =>
      rw [List.length_cons] at hskip
      cases skip with
      | succ skip => exact ih (Nat.le_of_succ_le_succ hskip)
      | zero =>
          have hfront := front?_append_ascii a hx rest t
          rw [List.cons_append] at hfront ⊢
          simp only [piecesFrom, hfront]
          cases hchar : front? (a :: rest) with
          | none => simp only [ih (Nat.zero_le _), List.cons_append]
          | some found =>
              have hwidth := front?_width hchar
              simp only [ih (show found.2 - 1 ≤ rest.length by omega), List.cons_append]

theorem front?_ascii {x : UInt8} (hx : x < 0x80) (t : Bytes) :
    front? (x :: t) = some (Char.ofNat x.toNat, 1) := by
  have hvalid : x.toNat.isValidChar := .inl (Nat.lt_trans (UInt8.lt_iff_toNat_lt.mp hx) (by decide))
  simp [front?, hx, scalar?, hvalid]

theorem pieces_ascii {x : UInt8} (hx : x < 0x80) (t : Bytes) :
    pieces (x :: t) = .char (Char.ofNat x.toNat) :: pieces t := by
  simp [pieces, piecesFrom, front?_ascii hx t]

theorem isValid_append_ascii {x : UInt8} (hx : x < 0x80) (s t : Bytes) :
    isValid (s ++ x :: t) = (isValid s && isValid t) := by
  have hpieces : pieces (s ++ x :: t) = pieces s ++ .char (Char.ofNat x.toNat) :: pieces t := by
    rw [← pieces_ascii hx t]
    exact piecesFrom_append_ascii hx (Nat.zero_le _) t
  rw [isValid_eq_all, hpieces, List.all_append, List.all_cons, ← isValid_eq_all,
    ← isValid_eq_all]
  rfl

theorem isValid_cons_ascii {x : UInt8} (hx : x < 0x80) (t : Bytes) :
    isValid (x :: t) = isValid t :=
  (isValid_append_ascii hx [] t).trans (Bool.true_and _)

def Ascii (s : Bytes) : Prop := ∀ x ∈ s, x < 0x80

instance (s : Bytes) : Decidable (Ascii s) := List.decidableBAll (fun x => x < 0x80) s

theorem Ascii.append {s t : Bytes} (hs : Ascii s) (ht : Ascii t) : Ascii (s ++ t) :=
  fun x hx => (List.mem_append.mp hx).elim (hs x) (ht x)

theorem Ascii.isValid {s : Bytes} (h : Ascii s) : isValid s = true := by
  induction s with
  | nil => rfl
  | cons x rest ih =>
      rw [isValid_cons_ascii (h x List.mem_cons_self)]
      exact ih fun y hy => h y (List.mem_cons_of_mem x hy)

/-! ## The bytes of a character -/

theorem toNat_byte {n : Nat} (h : n < 256) : (UInt8.ofNat n).toNat = n :=
  UInt8.toNat_ofNat_of_lt' h

theorem byte_toNat {b : UInt8} {n : Nat} (h : n = b.toNat) : UInt8.ofNat n = b := by
  rw [h, UInt8.ofNat_toNat]

theorem scalar?_toNat {c : Char} {least : Nat} (hc : least ≤ c.toNat) (width : Nat) :
    scalar? c.toNat width least = some (c, width) := by
  have hvalid : c.toNat.isValidChar := c.valid
  rw [scalar?, if_pos ⟨hc, hvalid⟩, Char.ofNat_toNat]

theorem of_scalar? {code width least n : Nat} {c : Char}
    (h : scalar? code width least = some (c, n)) : c.toNat = code ∧ least ≤ code ∧ n = width := by
  unfold scalar? at h
  split at h
  · next hvalid =>
      cases h
      have hchar : Char.ofNat code = Char.ofNatAux code hvalid.2 := dif_pos hvalid.2
      exact ⟨by rw [hchar]; rfl, hvalid.1, rfl⟩
  · cases h

theorem payload?_eq_some_iff {b : UInt8} {x : Nat} :
    payload? b = some x ↔ b.toNat = x + 128 ∧ x < 64 := by
  have hrange : (0x80 ≤ b && b < 0xC0) = true ↔ 128 ≤ b.toNat ∧ b.toNat < 192 := by
    rw [Bool.and_eq_true, decide_eq_true_eq, decide_eq_true_eq]
    rfl
  unfold payload?
  split
  · next h =>
      have hb := hrange.mp h
      rw [Option.some.injEq]
      omega
  · next h =>
      have hb := mt hrange.mpr h
      simp only [reduceCtorEq, false_iff]
      omega

theorem payload?_byte {x : Nat} (h : x < 64) : payload? (UInt8.ofNat (x + 128)) = some x :=
  payload?_eq_some_iff.mpr ⟨toNat_byte (by omega), h⟩

theorem front?_encode (c : Char) (rest : Bytes) :
    front? (String.utf8EncodeChar c ++ rest) = some (c, (String.utf8EncodeChar c).length) := by
  have hval : c.val.toNat = c.toNat := rfl
  have hmax : c.toNat < 0x110000 := by
    rcases c.valid with h | h
    · exact Nat.lt_trans h (by decide)
    · exact h.2
  -- the payload of each byte, and the first byte below or above each bound
  unfold String.utf8EncodeChar
  simp only [hval]
  split
  · simp (disch := omega) only [List.cons_append, List.nil_append, front?, toNat_byte,
      UInt8.lt_iff_toNat_lt, UInt8.toNat_ofNat]
    rw [if_pos (by omega)]
    exact scalar?_toNat (Nat.zero_le _) 1
  split
  · simp (disch := omega) only [List.cons_append, List.nil_append, front?, payload?_byte,
      toNat_byte, UInt8.lt_iff_toNat_lt, UInt8.toNat_ofNat, Option.bind_eq_bind, Option.bind_some]
    rw [if_neg (by omega), if_neg (by omega), if_pos (by omega)]
    rw [show (c.toNat / 64 % 32 + 192 - 192) * 64 + c.toNat % 64 = c.toNat by omega]
    exact scalar?_toNat (by omega) 2
  split
  · simp (disch := omega) only [List.cons_append, List.nil_append, front?, payload?_byte,
      toNat_byte, UInt8.lt_iff_toNat_lt, UInt8.toNat_ofNat, Option.bind_eq_bind, Option.bind_some]
    rw [if_neg (by omega), if_neg (by omega), if_neg (by omega), if_pos (by omega)]
    rw [show ((c.toNat / 4096 % 16 + 224 - 224) * 64 + c.toNat / 64 % 64) * 64 + c.toNat % 64 =
      c.toNat by omega]
    exact scalar?_toNat (by omega) 3
  · simp (disch := omega) only [List.cons_append, List.nil_append, front?, payload?_byte,
      toNat_byte, UInt8.lt_iff_toNat_lt, UInt8.toNat_ofNat, Option.bind_eq_bind, Option.bind_some]
    rw [if_neg (by omega), if_neg (by omega), if_neg (by omega), if_neg (by omega),
      if_pos (by omega)]
    rw [show (((c.toNat / 262144 % 8 + 240 - 240) * 64 + c.toNat / 4096 % 64) * 64 +
      c.toNat / 64 % 64) * 64 + c.toNat % 64 = c.toNat by omega]
    exact scalar?_toNat (by omega) 4

theorem encode_of_front? {s : Bytes} {c : Char} {width : Nat} (h : front? s = some (c, width)) :
    ∃ rest, s = String.utf8EncodeChar c ++ rest ∧ width = (String.utf8EncodeChar c).length := by
  have hval : c.val.toNat = c.toNat := rfl
  unfold String.utf8EncodeChar
  simp only [hval]
  cases s with
  | nil => cases h
  | cons a s =>
      simp only [front?, UInt8.lt_iff_toNat_lt, UInt8.toNat_ofNat] at h
      split at h
      · obtain ⟨hc, -, rfl⟩ := of_scalar? h
        refine ⟨s, ?_⟩
        rw [if_pos (by omega), byte_toNat hc]
        exact ⟨rfl, rfl⟩
      split at h
      · cases h
      split at h
      · split at h
        · next b rest =>
            simp only [Option.bind_eq_bind, Option.bind_eq_some_iff, payload?_eq_some_iff] at h
            obtain ⟨x, hx, h⟩ := h
            obtain ⟨hc, hleast, rfl⟩ := of_scalar? h
            refine ⟨rest, ?_⟩
            rw [if_neg (by omega), if_pos (by omega), byte_toNat (b := a) (by omega),
              byte_toNat (b := b) (by omega)]
            exact ⟨rfl, rfl⟩
        · cases h
      split at h
      · split at h
        · next b d rest =>
            simp only [Option.bind_eq_bind, Option.bind_eq_some_iff, payload?_eq_some_iff] at h
            obtain ⟨x, hx, y, hy, h⟩ := h
            obtain ⟨hc, hleast, rfl⟩ := of_scalar? h
            refine ⟨rest, ?_⟩
            rw [if_neg (by omega), if_neg (by omega), if_pos (by omega),
              byte_toNat (b := a) (by omega), byte_toNat (b := b) (by omega),
              byte_toNat (b := d) (by omega)]
            exact ⟨rfl, rfl⟩
        · cases h
      split at h
      · split at h
        · next b d e rest =>
            simp only [Option.bind_eq_bind, Option.bind_eq_some_iff, payload?_eq_some_iff] at h
            obtain ⟨x, hx, y, hy, z, hz, h⟩ := h
            obtain ⟨hc, hleast, rfl⟩ := of_scalar? h
            refine ⟨rest, ?_⟩
            rw [if_neg (by omega), if_neg (by omega), if_neg (by omega),
              byte_toNat (b := a) (by omega), byte_toNat (b := b) (by omega),
              byte_toNat (b := d) (by omega), byte_toNat (b := e) (by omega)]
            exact ⟨rfl, rfl⟩
        · cases h
      · cases h

/-- The character at the front of a text is the one whose bytes the text starts with. -/
theorem front?_eq_some_iff {s : Bytes} {c : Char} {width : Nat} :
    front? s = some (c, width) ↔
      String.utf8EncodeChar c <+: s ∧ width = (String.utf8EncodeChar c).length := by
  constructor
  · intro h
    obtain ⟨rest, rfl, rfl⟩ := encode_of_front? h
    exact ⟨List.prefix_append _ _, rfl⟩
  · rintro ⟨⟨rest, rfl⟩, rfl⟩
    exact front?_encode c rest

end Lox.Utf8
