import Lox.Proofs.Text.Utf8
import Lox.Proofs.Token.Coverage

/-!
The longest lexeme.

A lexeme is an operator, a number, a word or a string.  Where one stands at a place that the
scanner comes to, the longest of them is the token there, and its text alone decides its kind.
A problem stands where there is neither a lexeme, nor a blank, nor a comment.
-/

namespace Lox

namespace Scan

/-! ## The lexical grammar -/

def operators : List (Bytes × Kind) :=
  [(utf8 "(", .leftParen), (utf8 ")", .rightParen), (utf8 "\x7b", .leftBrace),
   (utf8 "\x7d", .rightBrace), (utf8 ",", .comma), (utf8 ".", .dot), (utf8 "-", .minus),
   (utf8 "+", .plus), (utf8 ";", .semicolon), (utf8 "*", .star), (utf8 "/", .slash),
   (utf8 "!", .bang), (utf8 "!=", .bangEqual), (utf8 "=", .equal), (utf8 "==", .equalEqual),
   (utf8 "<", .less), (utf8 "<=", .lessEqual), (utf8 ">", .greater),
   (utf8 ">=", .greaterEqual)]

def IsDigits (s : Bytes) : Prop := s ≠ [] ∧ ∀ b ∈ s, Bytes.isDigit b = true

inductive IsLexeme : Bytes → Prop where
  | operator {s : Bytes} {k : Kind} : (s, k) ∈ operators → IsLexeme s
  | whole {digits : Bytes} : IsDigits digits → IsLexeme digits
  | decimal {whole fraction : Bytes} : IsDigits whole → IsDigits fraction →
      IsLexeme (whole ++ 0x2e :: fraction)
  | word {b : UInt8} {tail : Bytes} : isWordStart b = true →
      (∀ c ∈ tail, isWordPart c = true) → IsLexeme (b :: tail)
  | string {body : Bytes} : 0x22 ∉ body → IsLexeme (0x22 :: (body ++ [0x22]))

/-- The kind of a lexeme: that of its entry, if it has one, else by its first byte. -/
def kindOf (lexeme : Bytes) : Kind :=
  match (operators ++ Kind.reserved).lookup lexeme with
  | some k => k
  | none =>
      match lexeme with
      | [] => .eof
      | b :: _ =>
          if b = 0x22 then .string else if Bytes.isDigit b then .number else .identifier

/-- The longest lexeme at the front of a text. -/
structure Longest (text rest : Bytes) : Prop where
  lexeme : IsLexeme text
  starts : text <+: rest
  longest : ∀ other, IsLexeme other → other <+: rest → other.length ≤ text.length

def StartsBlank (rest : Bytes) : Prop := ∃ b, isBlank b = true ∧ [b] <+: rest

def StartsComment (rest : Bytes) : Prop := utf8 "//" <+: rest

structure Unreadable (rest : Bytes) : Prop where
  lexeme : ∀ text, IsLexeme text → ¬text <+: rest
  blank : ¬StartsBlank rest
  comment : ¬StartsComment rest

/-- What is at fault in a text with nothing to read at its front. -/
inductive Fault : (rest text : Bytes) → Problem → Prop where
  | character {c : Char} {after : Bytes} : c ≠ '"' →
      Fault (String.utf8EncodeChar c ++ after) (String.utf8EncodeChar c) (.unexpectedCharacter c)
  | stray {b : UInt8} {after : Bytes} : (∀ c, ¬String.utf8EncodeChar c <+: b :: after) →
      Fault (b :: after) [b] (.unexpectedCharacter Utf8.replacement)
  | quote {after : Bytes} : 0x22 ∉ after →
      Fault (0x22 :: after) (0x22 :: after) .unterminatedString

/-- The segment that a text opens with. -/
inductive Opens (rest : Bytes) : Shape → (text : Bytes) → Prop where
  | token {text : Bytes} : ¬StartsComment rest → Longest text rest →
      Opens rest (.token (kindOf text)) text
  | blank {b : UInt8} : isBlank b = true → [b] <+: rest → Opens rest .blank [b]
  | comment {body after : Bytes} : rest = utf8 "//" ++ body ++ after → 0x0a ∉ body →
      (∀ c ∈ after.head?, c = 0x0a) → Opens rest .comment (utf8 "//" ++ body)
  | fault {problem : Problem} {text : Bytes} : Unreadable rest → Fault rest text problem →
      Opens rest (.fault problem) text

inductive Point (source : Bytes) : Nat → Prop where
  | start : Point source 0
  | next {offset : Nat} {shape : Shape} {text : Bytes} : Point source offset →
      Opens (source.drop offset) shape text → Point source (offset + text.length)

/-! ## First bytes -/

theorem forall_byte {P : UInt8 → Prop} (h : ∀ n < 256, P (UInt8.ofNat n)) (b : UInt8) : P b := by
  have hb := h b.toNat b.toNat_lt
  rwa [UInt8.ofNat_toNat] at hb

def isOperatorStart (b : UInt8) : Bool := (single? b).isSome || (extensible? b).isSome

theorem foreign_of_isOperatorStart : ∀ b, isOperatorStart b = true →
    Bytes.isDigit b = false ∧ isWordStart b = false ∧ isBlank b = false ∧ b ≠ 0x22 :=
  forall_byte (by decide +kernel)

theorem foreign_of_isDigit : ∀ b, Bytes.isDigit b = true →
    isOperatorStart b = false ∧ isWordStart b = false ∧ isBlank b = false ∧ b ≠ 0x22 ∧ b ≠ 0x2f :=
  forall_byte (by decide +kernel)

theorem foreign_of_isWordStart : ∀ b, isWordStart b = true →
    isOperatorStart b = false ∧ Bytes.isDigit b = false ∧ isBlank b = false ∧ b ≠ 0x22 ∧
      b ≠ 0x2f :=
  forall_byte (by decide +kernel)

theorem operator_of_single? {b : UInt8} {k : Kind} (h : single? b = some k) :
    ([b], k) ∈ operators := by
  have hall : ∀ b, (single? b).all fun k => ([b], k) ∈ operators :=
    forall_byte (by decide +kernel)
  simpa [h] using hall b

theorem operators_of_extensible? {b : UInt8} {short long : Kind}
    (h : extensible? b = some (short, long)) :
    ([b], short) ∈ operators ∧ ([b, 0x3d], long) ∈ operators := by
  have hall : ∀ b, (extensible? b).all fun kinds =>
      ([b], kinds.1) ∈ operators ∧ ([b, 0x3d], kinds.2) ∈ operators :=
    forall_byte (by decide +kernel)
  simpa [h] using hall b

theorem operator_cases {s : Bytes} {k : Kind} (h : (s, k) ∈ operators) :
    ∃ b, isOperatorStart b = true ∧
      (s = [b] ∨ s = [b, 0x3d] ∧ (extensible? b).isSome = true) := by
  have hall : ∀ entry ∈ operators, ∃ b ∈ entry.1, isOperatorStart b = true ∧
      (entry.1 = [b] ∨ entry.1 = [b, 0x3d] ∧ (extensible? b).isSome = true) := by
    decide +kernel
  obtain ⟨b, -, hb⟩ := hall _ h
  exact ⟨b, hb⟩

/-! ## Lexemes by their first byte -/

theorem length_le_takeWhile {p : UInt8 → Bool} {xs s : Bytes} (hxs : xs <+: s)
    (h : ∀ x ∈ xs, p x = true) : xs.length ≤ (s.takeWhile p).length := by
  obtain ⟨after, rfl⟩ := hxs
  rw [List.takeWhile_append_of_pos h, List.length_append]
  omega

inductive LexemeFrom (b : UInt8) : Bytes → Prop where
  | short : isOperatorStart b = true → LexemeFrom b [b]
  | long : isOperatorStart b = true → (extensible? b).isSome = true → LexemeFrom b [b, 0x3d]
  | whole {digits : Bytes} : Bytes.isDigit b = true → IsDigits digits → LexemeFrom b digits
  | decimal {whole fraction : Bytes} : Bytes.isDigit b = true → IsDigits whole →
      IsDigits fraction → LexemeFrom b (whole ++ 0x2e :: fraction)
  | word {tail : Bytes} : isWordStart b = true → (∀ c ∈ tail, isWordPart c = true) →
      LexemeFrom b (b :: tail)
  | string {body : Bytes} : b = 0x22 → 0x22 ∉ body → LexemeFrom b (b :: (body ++ [0x22]))

theorem IsDigits.isDigit_of_starts {digits after rest : Bytes} {b : UInt8} (h : IsDigits digits)
    (hstarts : digits ++ after <+: b :: rest) : Bytes.isDigit b = true := by
  obtain ⟨hne, hall⟩ := h
  obtain ⟨c, digits, rfl⟩ := List.exists_cons_of_ne_nil hne
  obtain ⟨rfl, -⟩ := List.cons_prefix_cons.mp hstarts
  exact hall c List.mem_cons_self

theorem IsLexeme.from {s rest : Bytes} {b : UInt8} (h : IsLexeme s) (hstarts : s <+: b :: rest) :
    LexemeFrom b s := by
  cases h with
  | operator hmem =>
      obtain ⟨c, hc, rfl | ⟨rfl, hlong⟩⟩ := operator_cases hmem
      · obtain ⟨rfl, -⟩ := List.cons_prefix_cons.mp hstarts
        exact .short hc
      · obtain ⟨rfl, -⟩ := List.cons_prefix_cons.mp hstarts
        exact .long hc hlong
  | whole hdigits =>
      rw [← List.append_nil s] at hstarts
      exact .whole (hdigits.isDigit_of_starts hstarts) hdigits
  | decimal hwhole hfraction =>
      exact .decimal (hwhole.isDigit_of_starts hstarts) hwhole hfraction
  | word hstart htail =>
      obtain ⟨rfl, -⟩ := List.cons_prefix_cons.mp hstarts
      exact .word hstart htail
  | string hbody =>
      obtain ⟨rfl, -⟩ := List.cons_prefix_cons.mp hstarts
      exact .string rfl hbody

theorem IsLexeme.ne_nil {s : Bytes} (h : IsLexeme s) : s ≠ [] := by
  cases h with
  | operator hmem => obtain ⟨b, -, rfl | ⟨rfl, -⟩⟩ := operator_cases hmem <;> simp
  | whole hdigits => exact hdigits.1
  | decimal | word | string => simp

/-! ## The longest lexeme by its first byte -/

section

variable {b : UInt8} {rest : Bytes}

theorem startsComment_cons : StartsComment (b :: rest) ↔ b = 0x2f ∧ rest.head? = some 0x2f := by
  have hslashes : utf8 "//" = [0x2f, 0x2f] := by decide
  rw [StartsComment, hslashes, List.cons_prefix_cons]
  cases rest with
  | nil => simp
  | cons c rest => simp [List.cons_prefix_cons, eq_comm]

theorem numberLength_cases (s : Bytes) :
    (numberLength s = (s.takeWhile Bytes.isDigit).length ∧
        ∀ after, s.dropWhile Bytes.isDigit = 0x2e :: after →
          after.takeWhile Bytes.isDigit = []) ∨
      ∃ after, s.dropWhile Bytes.isDigit = 0x2e :: after ∧
        after.takeWhile Bytes.isDigit ≠ [] ∧
        numberLength s = (s.takeWhile Bytes.isDigit).length + 1 +
          (after.takeWhile Bytes.isDigit).length := by
  unfold numberLength numberParts
  cases hdrop : s.dropWhile Bytes.isDigit with
  | nil => simp
  | cons c after =>
      by_cases hc : c = 0x2e
      · subst hc
        cases hfraction : after.takeWhile Bytes.isDigit with
        | nil =>
            left
            refine ⟨by simp [hfraction], ?_⟩
            rintro _ ⟨⟩
            exact hfraction
        | cons d fraction =>
            right
            exact ⟨after, rfl, by simp [hfraction], by simp [hfraction]⟩
      · left
        simp [hc]

theorem isDigits_takeWhile {s : Bytes} (h : s.takeWhile Bytes.isDigit ≠ []) :
    IsDigits (s.takeWhile Bytes.isDigit) :=
  ⟨h, fun _ hc => List.mem_takeWhile_imp hc⟩

theorem isLexeme_number {s : Bytes} (h : s.takeWhile Bytes.isDigit ≠ []) :
    IsLexeme (s.take (numberLength s)) := by
  rcases numberLength_cases s with ⟨hlength, -⟩ | ⟨after, hdrop, hfraction, hlength⟩
  · rw [hlength, take_length_takeWhile]
    exact .whole (isDigits_takeWhile h)
  · have hsplit : s.takeWhile Bytes.isDigit ++ 0x2e :: after = s := by
      rw [← hdrop, List.takeWhile_append_dropWhile]
    have htext : s.take (numberLength s) =
        s.takeWhile Bytes.isDigit ++ 0x2e :: after.takeWhile Bytes.isDigit := by
      rw [hlength]
      generalize s.takeWhile Bytes.isDigit = whole at hsplit
      rw [← hsplit, Nat.add_assoc, List.take_length_add_append, Nat.add_comm,
        List.take_succ_cons, take_length_takeWhile]
    rw [htext]
    exact .decimal (isDigits_takeWhile h) (isDigits_takeWhile hfraction)

theorem length_decimal_le {whole fraction s : Bytes} (hwhole : IsDigits whole)
    (hfraction : IsDigits fraction) (hstarts : whole ++ 0x2e :: fraction <+: s) :
    (whole ++ 0x2e :: fraction).length ≤ numberLength s := by
  obtain ⟨after, rfl⟩ := hstarts
  have hpoint : Bytes.isDigit 0x2e = false := by decide
  have htake : whole.takeWhile Bytes.isDigit = whole := List.takeWhile_eq_self_iff.mpr hwhole.2
  have hdrop : whole.dropWhile Bytes.isDigit = [] := List.dropWhile_eq_nil_iff.mpr hwhole.2
  have hdigits := length_le_takeWhile (List.prefix_append fraction after) hfraction.2
  rw [List.append_assoc, List.cons_append]
  rcases numberLength_cases (whole ++ 0x2e :: (fraction ++ after)) with
    ⟨-, hend⟩ | ⟨after', hdrop', -, hlength⟩
  · rw [dropWhile_append_stop hpoint, hdrop] at hend
    rw [hend _ rfl] at hdigits
    exact absurd (List.length_pos_iff.mpr hfraction.1) (Nat.not_lt.mpr hdigits)
  · rw [dropWhile_append_stop hpoint, hdrop] at hdrop'
    cases hdrop'
    rw [hlength, takeWhile_append_stop hpoint, htake, List.length_append, List.length_cons]
    omega

theorem length_whole_le (s : Bytes) :
    (s.takeWhile Bytes.isDigit).length ≤ numberLength s := by
  rcases numberLength_cases s with ⟨hlength, -⟩ | ⟨after, -, -, hlength⟩ <;> omega

theorem longest_number (h : Bytes.isDigit b = true) :
    Longest ((b :: rest).take (numberLength (b :: rest))) (b :: rest) := by
  obtain ⟨hop, hword, -, hquote, -⟩ := foreign_of_isDigit b h
  have hlength : ((b :: rest).take (numberLength (b :: rest))).length = numberLength (b :: rest) :=
    List.length_take_of_le (numberLength_le _)
  constructor
  case lexeme => exact isLexeme_number (by simp [h])
  case starts => exact List.take_prefix _ _
  case longest =>
    intro other hother hstarts
    rw [hlength]
    cases hother.from hstarts with
    | short h | long h => simp [h] at hop
    | whole _ hdigits =>
        exact (length_le_takeWhile hstarts hdigits.2).trans (length_whole_le _)
    | decimal _ hwhole hfraction => exact length_decimal_le hwhole hfraction hstarts
    | word h => simp [h] at hword
    | string h => exact absurd h hquote

theorem longest_word (h : isWordStart b = true) :
    Longest (b :: rest.takeWhile isWordPart) (b :: rest) := by
  obtain ⟨hop, hdigit, -, hquote, -⟩ := foreign_of_isWordStart b h
  constructor
  case lexeme => exact .word h fun c hc => List.mem_takeWhile_imp hc
  case starts => exact List.cons_prefix_cons.mpr ⟨rfl, rest.takeWhile_prefix _⟩
  case longest =>
    intro other hother hstarts
    cases hother.from hstarts with
    | short h | long h => simp [h] at hop
    | whole h | decimal h => simp [h] at hdigit
    | word _ htail =>
        have hle := length_le_takeWhile (List.cons_prefix_cons.mp hstarts).2 htail
        simpa using hle
    | string h => exact absurd h hquote

theorem longest_string (h : rest.dropWhile (· != 0x22) ≠ []) :
    Longest (0x22 :: (rest.takeWhile (· != 0x22) ++ [0x22])) (0x22 :: rest) := by
  have hinside {body : Bytes} (hbody : 0x22 ∉ body) : ∀ c ∈ body, (c != 0x22) = true :=
    fun c hc => bne_iff_ne.mpr (ne_of_mem_of_not_mem hc hbody)
  constructor
  case lexeme =>
    refine .string fun hc => ?_
    simpa using List.mem_takeWhile_imp hc
  case starts =>
    rw [← take_quoted h]
    exact List.cons_prefix_cons.mpr ⟨rfl, List.take_prefix _ _⟩
  case longest =>
    intro other hother hstarts
    cases hother.from hstarts with
    | short hop | long hop => exact absurd hop (by decide)
    | whole hdigit | decimal hdigit => exact absurd hdigit (by decide)
    | word hstart => exact absurd hstart (by decide)
    | string _ hbody =>
        have hbefore := (List.prefix_append _ _).trans (List.cons_prefix_cons.mp hstarts).2
        have hle := length_le_takeWhile hbefore (hinside hbody)
        simpa using hle

/-- With an equals sign after it, an operator that it may extend is the longer one. -/
theorem longest_long (h : (extensible? b).isSome = true) (hequal : rest.head? = some 0x3d) :
    Longest [b, 0x3d] (b :: rest) := by
  obtain ⟨⟨short, long⟩, hkinds⟩ := Option.isSome_iff_exists.mp h
  have hop : isOperatorStart b = true := by simp [isOperatorStart, h]
  obtain ⟨hdigit, hword, -, hquote⟩ := foreign_of_isOperatorStart b hop
  obtain ⟨rest, rfl⟩ := List.head?_eq_some_iff.mp hequal
  constructor
  case lexeme => exact .operator (operators_of_extensible? hkinds).2
  case starts => exact List.prefix_append _ _
  case longest =>
    intro other hother hstarts
    cases hother.from hstarts with
    | short | long => simp
    | whole h | decimal h => simp [h] at hdigit
    | word h => simp [h] at hword
    | string h => exact absurd h hquote

theorem longest_short (hop : isOperatorStart b = true) (hlexeme : IsLexeme [b])
    (h : (extensible? b).isSome = true → rest.head? ≠ some 0x3d) : Longest [b] (b :: rest) := by
  obtain ⟨hdigit, hword, -, hquote⟩ := foreign_of_isOperatorStart b hop
  constructor
  case lexeme => exact hlexeme
  case starts => exact List.prefix_append _ _
  case longest =>
    intro other hother hstarts
    cases hother.from hstarts with
    | short => simp
    | long _ hlong =>
        obtain ⟨after, hafter⟩ := (List.cons_prefix_cons.mp hstarts).2
        exact absurd (by simp [← hafter]) (h hlong)
    | whole h | decimal h => simp [h] at hdigit
    | word h => simp [h] at hword
    | string h => exact absurd h hquote

/-! ## The kind of a lexeme -/

theorem kindOf_operator {s : Bytes} {k : Kind} (h : (s, k) ∈ operators) : kindOf s = k := by
  have hall : ∀ entry ∈ operators, kindOf entry.1 = entry.2 := by decide +kernel
  exact hall _ h

theorem lookup_eq_none {tail : Bytes} (hop : isOperatorStart b = false)
    (hword : isWordStart b = false) : (operators ++ Kind.reserved).lookup (b :: tail) = none := by
  have hall : ∀ entry ∈ operators ++ Kind.reserved, ∀ c ∈ entry.1.head?,
      (isOperatorStart c || isWordStart c) = true := by decide +kernel
  cases hlookup : (operators ++ Kind.reserved).lookup (b :: tail) with
  | none => rfl
  | some k =>
      obtain ⟨before, after, hsplit, -⟩ := List.lookup_eq_some_iff.mp hlookup
      have hmem : (b :: tail, k) ∈ operators ++ Kind.reserved := by simp [hsplit]
      simpa [hop, hword] using hall _ hmem b rfl

theorem kindOf_number {tail : Bytes} (h : Bytes.isDigit b = true) :
    kindOf (b :: tail) = .number := by
  obtain ⟨hop, hword, -, hquote, -⟩ := foreign_of_isDigit b h
  simp only [kindOf, lookup_eq_none hop hword, if_neg hquote, if_pos h]

theorem kindOf_string (tail : Bytes) : kindOf (0x22 :: tail) = .string := by
  simp only [kindOf, lookup_eq_none (show isOperatorStart 0x22 = false by decide)
    (show isWordStart 0x22 = false by decide), if_pos]

theorem kindOf_word {tail : Bytes} (h : isWordStart b = true) :
    kindOf (b :: tail) = .ofWord (b :: tail) := by
  obtain ⟨hfree, hdigit, -, hquote, -⟩ := foreign_of_isWordStart b h
  have hoperators : operators.lookup (b :: tail) = none := by
    cases hlookup : operators.lookup (b :: tail) with
    | none => rfl
    | some k =>
        obtain ⟨before, after, hsplit, -⟩ := List.lookup_eq_some_iff.mp hlookup
        obtain ⟨c, hop, htext⟩ := operator_cases (show (b :: tail, k) ∈ operators by simp [hsplit])
        obtain rfl : b = c := by rcases htext with htext | ⟨htext, -⟩ <;> cases htext <;> rfl
        simp [hop] at hfree
  unfold kindOf Kind.ofWord
  rw [List.lookup_append, hoperators, Option.none_or]
  cases Kind.reserved.lookup (b :: tail) with
  | none => simp [hquote, hdigit]
  | some k => rfl

/-! ## What a text opens with -/

theorem unreadable_cons (hop : isOperatorStart b = false) (hdigit : Bytes.isDigit b = false)
    (hword : isWordStart b = false) (hblank : isBlank b = false)
    (hquote : b = 0x22 → 0x22 ∉ rest) : Unreadable (b :: rest) := by
  constructor
  case lexeme =>
    intro text hlexeme hstarts
    cases hlexeme.from hstarts with
    | short h | long h => simp [h] at hop
    | whole h | decimal h => simp [h] at hdigit
    | word h => simp [h] at hword
    | string h =>
        have hsubset := (List.cons_prefix_cons.mp hstarts).2.subset
        exact hquote h (hsubset (by simp))
  case blank =>
    rintro ⟨c, hc, hstarts⟩
    obtain ⟨rfl, -⟩ := List.cons_prefix_cons.mp hstarts
    simp [hc] at hblank
  case comment =>
    intro h
    obtain ⟨rfl, -⟩ := startsComment_cons.mp h
    exact absurd hop (by decide)

theorem fault_character (hquote : b ≠ 0x22) {c : Char} {width : Nat}
    (h : Utf8.front? (b :: rest) = some (c, width)) :
    Fault (b :: rest) ((b :: rest).take width) (.unexpectedCharacter c) := by
  obtain ⟨⟨after, hafter⟩, hwidth⟩ := Utf8.front?_eq_some_iff.mp h
  rw [← hafter, hwidth, List.take_left]
  apply Fault.character
  rintro rfl
  exact hquote (List.cons.inj hafter).1.symm

theorem fault_stray (h : Utf8.front? (b :: rest) = none) :
    Fault (b :: rest) [b] (.unexpectedCharacter Utf8.replacement) := by
  apply Fault.stray
  intro c hc
  rw [Utf8.front?_eq_some_iff.mpr ⟨hc, rfl⟩] at h
  cases h

theorem opens_token (hcomment : ¬StartsComment (b :: rest)) {text : Bytes} {k : Kind}
    (h : Longest text (b :: rest)) (hkind : kindOf text = k) :
    Opens (b :: rest) (.token k) text := hkind ▸ .token hcomment h

theorem opens_unterminated (h : rest.dropWhile (· != 0x22) = []) :
    Opens (0x22 :: rest) (.fault .unterminatedString) (0x22 :: rest) := by
  have hrest : 0x22 ∉ rest := fun hmem => by simpa using List.dropWhile_eq_nil_iff.mp h 0x22 hmem
  exact .fault (unreadable_cons (by decide) (by decide) (by decide) (by decide) fun _ => hrest)
    (.quote hrest)

theorem opens_comment (h : rest.head? = some 0x2f) :
    Opens (0x2f :: rest) .comment (0x2f :: rest.takeWhile (· != 0x0a)) := by
  obtain ⟨rest, rfl⟩ := List.head?_eq_some_iff.mp h
  have hsplit : rest.takeWhile (· != 0x0a) ++ rest.dropWhile (· != 0x0a) = rest :=
    List.takeWhile_append_dropWhile
  have hrest : 0x2f :: 0x2f :: rest =
      utf8 "//" ++ rest.takeWhile (· != 0x0a) ++ rest.dropWhile (· != 0x0a) := by
    rw [List.append_assoc, hsplit]
    rfl
  refine .comment hrest ?_ ?_
  · intro hc
    simpa using List.mem_takeWhile_imp hc
  · intro c hc
    have hstop := List.head?_dropWhile_not (· != 0x0a) rest
    rw [hc] at hstop
    simpa using hstop

theorem opens_number (hdigit : Bytes.isDigit b = true) :
    Opens (b :: rest) (.token .number) ((b :: rest).take (numberLength (b :: rest))) := by
  obtain ⟨-, -, -, -, hslash⟩ := foreign_of_isDigit b hdigit
  apply opens_token (fun h => hslash (startsComment_cons.mp h).1) (longest_number hdigit)
  obtain ⟨n, hn⟩ := Nat.exists_eq_succ_of_ne_zero (numberLength_pos hdigit rest).ne'
  rw [hn, List.take_succ_cons, kindOf_number hdigit]

theorem opens_word (hword : isWordStart b = true) :
    Opens (b :: rest) (.token (Kind.ofWord (b :: rest.takeWhile isWordPart)))
      ((b :: rest).take (b :: rest.takeWhile isWordPart).length) := by
  obtain ⟨-, -, -, -, hslash⟩ := foreign_of_isWordStart b hword
  rw [List.length_cons, List.take_succ_cons, take_length_takeWhile]
  exact opens_token (fun h => hslash (startsComment_cons.mp h).1) (longest_word hword)
    (kindOf_word hword)

theorem opens_quote (hopen : rest.dropWhile (· != 0x22) = []) :
    Opens (0x22 :: rest) (.fault .unterminatedString)
      ((0x22 :: rest).take ((rest.takeWhile (· != 0x22)).length + 1)) := by
  have hbody : rest.takeWhile (· != 0x22) = rest :=
    List.takeWhile_eq_self_iff.mpr (List.dropWhile_eq_nil_iff.mp hopen)
  rw [hbody, List.take_succ_cons, List.take_length]
  exact opens_unterminated hopen

theorem opens_string (hends : rest.dropWhile (· != 0x22) ≠ []) :
    Opens (0x22 :: rest) (.token .string)
      ((0x22 :: rest).take ((rest.takeWhile (· != 0x22)).length + 2)) := by
  have hcomment : ¬StartsComment (0x22 :: rest) :=
    fun h => absurd (startsComment_cons.mp h).1 (by decide)
  rw [List.take_succ_cons, take_quoted hends]
  exact opens_token hcomment (longest_string hends) (kindOf_string _)

theorem IsSymbol.not_startsComment (h : IsSymbol b rest) : ¬StartsComment (b :: rest) :=
  mt startsComment_cons.mp h.comment

theorem opens_long (hsymbol : IsSymbol b rest) {short long : Kind}
    (hext : extensible? b = some (short, long)) (hequal : rest.head? = some 0x3d) :
    Opens (b :: rest) (.token long) ((b :: rest).take 2) := by
  obtain ⟨-, hboth⟩ := operators_of_extensible? hext
  have hextends : (extensible? b).isSome = true := by simp [hext]
  have hlongest := longest_long hextends hequal
  obtain ⟨rest, rfl⟩ := List.head?_eq_some_iff.mp hequal
  exact opens_token hsymbol.not_startsComment hlongest (kindOf_operator hboth)

theorem opens_short (hsymbol : IsSymbol b rest) {short long : Kind}
    (hext : extensible? b = some (short, long)) (hequal : rest.head? ≠ some 0x3d) :
    Opens (b :: rest) (.token short) ((b :: rest).take 1) := by
  obtain ⟨hshort, -⟩ := operators_of_extensible? hext
  have hlongest := longest_short (by simp [isOperatorStart, hext]) (.operator hshort)
    fun _ => hequal
  exact opens_token hsymbol.not_startsComment hlongest (kindOf_operator hshort)

theorem opens_single (hsymbol : IsSymbol b rest) {k : Kind}
    (hext : extensible? b = none) (hsingle : single? b = some k) :
    Opens (b :: rest) (.token k) ((b :: rest).take 1) := by
  have hop := operator_of_single? hsingle
  have hlongest : Longest [b] (b :: rest) :=
    longest_short (by simp [isOperatorStart, hsingle]) (.operator hop) (by simp [hext])
  exact opens_token hsymbol.not_startsComment hlongest (kindOf_operator hop)

theorem IsSymbol.unreadable (h : IsSymbol b rest) (hext : extensible? b = none)
    (hsingle : single? b = none) : Unreadable (b :: rest) :=
  have hop : isOperatorStart b = false := by simp [isOperatorStart, hext, hsingle]
  unreadable_cons hop h.digit h.word h.blank fun hb => absurd hb h.quote

/-- A segment of the source is what the text at its place opens with. -/
theorem opens_munch (b : UInt8) (rest : Bytes) :
    Opens (b :: rest) (munch b rest).1 ((b :: rest).take (munch b rest).2) := by
  obtain ⟨shape, length, hmunch⟩ : ∃ shape length, munch b rest = (shape, length) := ⟨_, _, rfl⟩
  rw [hmunch]
  cases isFront_of_munch hmunch with
  | number hdigit => exact opens_number hdigit
  | word hword => exact opens_word hword
  | blank hblank => exact .blank hblank (List.prefix_append _ _)
  | comment hslash hnext =>
      obtain rfl := hslash
      rw [List.take_succ_cons, take_length_takeWhile]
      exact opens_comment hnext
  | unterminated hquote hopen =>
      obtain rfl := hquote
      exact opens_quote hopen
  | string hquote hends =>
      obtain rfl := hquote
      exact opens_string hends
  | long hsymbol hext hequal => exact opens_long hsymbol hext hequal
  | short hsymbol hext hequal => exact opens_short hsymbol hext hequal
  | single hsymbol hext hsingle => exact opens_single hsymbol hext hsingle
  | character hsymbol hext hsingle hfront =>
      exact .fault (hsymbol.unreadable hext hsingle) (fault_character hsymbol.quote hfront)
  | stray hsymbol hext hsingle hfront =>
      exact .fault (hsymbol.unreadable hext hsingle) (fault_stray hfront)

/-! ## One reading -/

theorem Longest.unique {text other rest : Bytes} (h : Longest text rest)
    (h' : Longest other rest) : text = other := by
  have hle := h.longest other h'.lexeme h'.starts
  have hle' := h'.longest text h.lexeme h.starts
  exact (List.prefix_of_prefix_length_le h.starts h'.starts hle').eq_of_length (hle'.antisymm hle)

theorem not_starts_of_isBlank (hblank : isBlank b = true) {text : Bytes}
    (hlexeme : IsLexeme text) : ¬text <+: b :: rest := by
  intro hstarts
  cases hlexeme.from hstarts with
  | short h | long h => simp [(foreign_of_isOperatorStart b h).2.2.1] at hblank
  | whole h | decimal h => simp [(foreign_of_isDigit b h).2.2.1] at hblank
  | word h => simp [(foreign_of_isWordStart b h).2.2.1] at hblank
  | string h => exact absurd (h ▸ hblank) (by decide)

theorem not_startsComment_of_isBlank (hblank : isBlank b = true) :
    ¬StartsComment (b :: rest) := by
  intro h
  obtain ⟨rfl, -⟩ := startsComment_cons.mp h
  exact absurd hblank (by decide)

theorem takeWhile_line {body after : Bytes} (hbody : 0x0a ∉ body)
    (hafter : ∀ c ∈ after.head?, c = 0x0a) : (body ++ after).takeWhile (· != 0x0a) = body := by
  have hself : body.takeWhile (· != 0x0a) = body :=
    List.takeWhile_eq_self_iff.mpr fun c hc => bne_iff_ne.mpr (ne_of_mem_of_not_mem hc hbody)
  cases after with
  | nil => rw [List.append_nil, hself]
  | cons c after =>
      obtain rfl : c = 0x0a := hafter c rfl
      rw [takeWhile_append_stop (by decide), hself]

end

theorem Fault.by_front? {rest text : Bytes} {problem : Problem} (h : Fault rest text problem) :
    match Utf8.front? rest with
    | none => problem = .unexpectedCharacter Utf8.replacement ∧ text = rest.take 1
    | some (c, width) =>
        if c = '"' then problem = .unterminatedString ∧ text = rest
        else problem = .unexpectedCharacter c ∧ text = rest.take width := by
  cases h with
  | @character c after hc =>
      rw [Utf8.front?_encode]
      simp [hc]
  | @stray b after hnone =>
      cases hfront : Utf8.front? (b :: after) with
      | none => simp
      | some found =>
          obtain ⟨c, width⟩ := found
          exact absurd (Utf8.front?_eq_some_iff.mp hfront).1 (hnone c)
  | @quote after =>
      rw [Utf8.front?_ascii (by decide)]
      exact ⟨rfl, rfl⟩

theorem Fault.unique {rest text other : Bytes} {problem problem' : Problem}
    (h : Fault rest text problem) (h' : Fault rest other problem') :
    problem = problem' ∧ text = other := by
  have hfront := h.by_front?
  have hfront' := h'.by_front?
  split at hfront
  · next hnone =>
      rw [hnone] at hfront'
      exact ⟨hfront.1.trans hfront'.1.symm, hfront.2.trans hfront'.2.symm⟩
  · next hsome =>
      rw [hsome] at hfront'
      split at hfront <;> simp_all

theorem startsComment_append (body after : Bytes) :
    StartsComment (utf8 "//" ++ body ++ after) := by
  rw [List.append_assoc]
  exact List.prefix_append _ _

section

variable {rest text : Bytes} {shape : Shape}

theorem Opens.blank_iff (h : Opens rest shape text) : shape = .blank ↔ StartsBlank rest := by
  cases h with
  | token _ hlongest =>
      simp only [reduceCtorEq, false_iff]
      rintro ⟨b, hblank, after, rfl⟩
      exact not_starts_of_isBlank hblank hlongest.lexeme hlongest.starts
  | blank hblank hstarts => exact iff_of_true rfl ⟨_, hblank, hstarts⟩
  | @comment body after hrest =>
      simp only [reduceCtorEq, false_iff]
      rintro ⟨b, hblank, tail, rfl⟩
      exact not_startsComment_of_isBlank hblank (hrest ▸ startsComment_append body after)
  | fault hunreadable => exact iff_of_false (by simp) hunreadable.blank

theorem Opens.comment_iff (h : Opens rest shape text) : shape = .comment ↔ StartsComment rest := by
  cases h with
  | token hcomment => exact iff_of_false (by simp) hcomment
  | blank hblank hstarts =>
      obtain ⟨after, rfl⟩ := hstarts
      exact iff_of_false (by simp) (not_startsComment_of_isBlank hblank)
  | @comment body after hrest => exact iff_of_true rfl (hrest ▸ startsComment_append body after)
  | fault hunreadable => exact iff_of_false (by simp) hunreadable.comment

theorem Opens.fault_iff (h : Opens rest shape text) :
    (∃ problem, shape = .fault problem) ↔ Unreadable rest := by
  cases h with
  | token _ hlongest =>
      exact iff_of_false (by simp) fun h => h.lexeme _ hlongest.lexeme hlongest.starts
  | blank hblank hstarts => exact iff_of_false (by simp) fun h => h.blank ⟨_, hblank, hstarts⟩
  | @comment body after hrest =>
      exact iff_of_false (by simp) fun h => h.comment (hrest ▸ startsComment_append body after)
  | fault hunreadable => exact iff_of_true ⟨_, rfl⟩ hunreadable

/-- A text opens in one way. -/
theorem Opens.unique {other : Bytes} {shape' : Shape} (h : Opens rest shape text)
    (h' : Opens rest shape' other) : shape = shape' ∧ text = other := by
  have hblank := h.blank_iff.trans h'.blank_iff.symm
  have hcomment := h.comment_iff.trans h'.comment_iff.symm
  have hfault := h.fault_iff.trans h'.fault_iff.symm
  cases h with
  | token _ hlongest =>
      cases h' with
      | token _ hlongest' =>
          obtain rfl := hlongest.unique hlongest'
          exact ⟨rfl, rfl⟩
      | blank | comment | fault => simp at hblank hcomment hfault
  | blank _ hstarts =>
      cases h' with
      | blank _ hstarts' =>
          obtain ⟨after, rfl⟩ := hstarts
          obtain ⟨rfl, -⟩ := List.cons_prefix_cons.mp hstarts'
          exact ⟨rfl, rfl⟩
      | token | comment | fault => simp at hblank
  | @comment body after hrest hline hend =>
      cases h' with
      | @comment body' after' hrest' hline' hend' =>
          rw [hrest, List.append_assoc, List.append_assoc] at hrest'
          have htail := List.append_cancel_left hrest'
          have hbody := takeWhile_line hline hend
          rw [htail, takeWhile_line hline' hend'] at hbody
          exact ⟨rfl, by rw [hbody]⟩
      | token | blank | fault => simp at hcomment
  | fault _ hat =>
      cases h' with
      | fault _ hat' =>
          obtain ⟨rfl, rfl⟩ := hat.unique hat'
          exact ⟨rfl, rfl⟩
      | token | blank | comment => simp at hfault

end

/-! ## The places of segments -/

theorem point_of_mem_segmentsFrom {before source : Bytes} {skip : Nat} {p : Position}
    {s : Segment} (hpoint : Point (before ++ source) (before.length + skip))
    (hp : p.offset = before.length) (hs : s ∈ segmentsFrom skip p source) :
    ∃ offset : Nat, s.span.start.offset = offset ∧ Point (before ++ source) offset ∧
      Opens ((before ++ source).drop offset) s.shape s.text := by
  induction source generalizing before skip p with
  | nil => simp [segmentsFrom] at hs
  | cons b rest ih =>
      have hsource : before ++ b :: rest = before ++ [b] ++ rest := by simp
      have hoffset : (p.advance b).offset = (before ++ [b]).length := by simp [hp]
      cases skip with
      | succ skip =>
          rw [hsource] at hpoint ⊢
          refine ih ?_ hoffset hs
          rwa [List.length_append, List.length_singleton, Nat.add_assoc, Nat.add_comm 1]
      | zero =>
          have hopens := opens_munch b rest
          rw [segmentsFrom_zero] at hs
          rcases List.mem_cons.mp hs with rfl | hs
          · exact ⟨before.length, hp, hpoint, by rwa [List.drop_left]⟩
          · have hlength := munch_length b rest
            have hnext := hpoint.next (by rwa [Nat.add_zero, List.drop_left])
            rw [hsource] at hnext ⊢
            refine ih ?_ hoffset hs
            convert hnext using 1
            simp
            omega

theorem place_of_mem_segments {source : Bytes} {s : Segment} (hs : s ∈ segments source) :
    ∃ offset : Nat, s.span.start = .ofOffset source offset ∧
      s.span.stop = .ofOffset source (offset + s.text.length) ∧ Point source offset ∧
      Opens (source.drop offset) s.shape s.text := by
  obtain ⟨before, -, -, -, -, -, -, hstart, hstop⟩ := exists_around_of_mem_segments hs
  obtain ⟨offset, hoffset, hpoint, hopens⟩ :=
    @point_of_mem_segmentsFrom [] source 0 .first s .start rfl hs
  obtain rfl : before.length = offset := by
    rw [hstart] at hoffset
    exact Int.ofNat_inj.mp hoffset
  exact ⟨before.length, hstart, hstop, hpoint, hopens⟩

theorem exists_segment_at {source : Bytes} {offset : Nat} (h : Point source offset)
    (hlt : offset < source.length) :
    ∃ s ∈ segments source, s.span.start = .ofOffset source offset := by
  induction h with
  | start =>
      obtain ⟨s, hs, hcovers, -⟩ := exists_mem_segmentsFrom .first (Nat.zero_le 0) hlt
      obtain ⟨offset, hstart, -⟩ := place_of_mem_segments hs
      obtain rfl : offset = 0 := by
        simp only [hstart, Position.ofOffset, Position.first] at hcovers
        omega
      exact ⟨s, hs, hstart⟩
  | @next offset shape text _ hopens ih =>
      obtain ⟨s, hs, hs'⟩ := ih (by omega)
      obtain ⟨offset', hstart, hstop, -, hopens'⟩ := place_of_mem_segments hs
      obtain rfl : offset = offset' := by
        rw [hs'] at hstart
        exact Int.ofNat_inj.mp (congrArg Position.offset hstart)
      obtain ⟨-, rfl⟩ := hopens.unique hopens'
      -- the segment over the next place lies after `s`, so it starts there
      obtain ⟨t, ht, hcovers⟩ := exists_mem_segmentsFrom .first (Nat.zero_le _) hlt
      obtain ⟨offset'', hstart', hstop', -⟩ := place_of_mem_segments ht
      have hapart : Apart s.span t.span := by
        apply apart_of_mem_segments hs ht
        rintro rfl
        simp only [hstop, Position.ofOffset, Position.first] at hcovers
        omega
      obtain rfl : offset'' = offset + s.text.length := by
        simp only [Apart, Span.Before, hstart, hstop, hstart', hstop', Position.ofOffset,
          Position.first] at hapart hcovers
        omega
      exact ⟨t, ht, hstart'⟩

theorem opens_at_point {source : Bytes} {offset : Nat} (h : Point source offset)
    (hlt : offset < source.length) :
    ∃ s ∈ segments source, s.span.start.offset = offset ∧
      Opens (source.drop offset) s.shape s.text := by
  obtain ⟨s, hs, hs'⟩ := exists_segment_at h hlt
  obtain ⟨offset', hstart, -, -, hopens⟩ := place_of_mem_segments hs
  obtain rfl : offset = offset' := by
    rw [hs'] at hstart
    exact Int.ofNat_inj.mp (congrArg Position.offset hstart)
  exact ⟨s, hs, by rw [hs']; rfl, hopens⟩

/-! ## Tokens and problems -/

theorem kindOf_eq_slash {s : Bytes} (h : kindOf s = .slash) : s = [0x2f] := by
  have hentries : ∀ entry ∈ operators ++ Kind.reserved, entry.2 = .slash → entry.1 = [0x2f] := by
    decide +kernel
  unfold kindOf at h
  cases hlookup : (operators ++ Kind.reserved).lookup s with
  | some k =>
      rw [hlookup] at h
      obtain ⟨before, after, hsplit, -⟩ := List.lookup_eq_some_iff.mp hlookup
      exact hentries (s, k) (by simp [hsplit]) h
  | none =>
      rw [hlookup] at h
      cases s with
      | nil => cases h
      | cons b tail =>
          dsimp only at h
          split at h
          · cases h
          · split at h <;> cases h

/-- What the tokens and problems of a source say about its lexemes. -/
structure Munched (source : Bytes) (tokens : List Token) (problems : List Diagnostic) :
    Prop where
  lexemes : ∀ t ∈ tokens, t.kind ≠ .eof → ∃ offset : Nat,
    t.span = ⟨.ofOffset source offset, .ofOffset source (offset + t.lexeme.length)⟩ ∧
      Point source offset ∧ Longest t.lexeme (source.drop offset)
  slashes : ∀ t ∈ tokens, t.kind = .slash → source[t.span.stop.offset.toNat]? ≠ some 0x2f
  kinds : ∀ t ∈ tokens, t.kind = kindOf t.lexeme
  emitted : ∀ (offset : Nat) (text : Bytes), Point source offset →
    Longest text (source.drop offset) → ¬StartsComment (source.drop offset) →
    ∃ t ∈ tokens, t.lexeme = text ∧ t.span.start.offset = offset
  reported : ∀ offset : Nat, Point source offset → offset < source.length →
    ((∃ d ∈ problems, d.span.start.offset = offset) ↔ Unreadable (source.drop offset))
  faults : ∀ d ∈ problems, ∃ (offset : Nat) (text : Bytes) (problem : Problem),
    d = .atSpan problem ⟨.ofOffset source offset, .ofOffset source (offset + text.length)⟩ ∧
      Point source offset ∧ Fault (source.drop offset) text problem

theorem opens_of_token? {source : Bytes} {s : Segment} {t : Token} (hs : s ∈ segments source)
    (ht : s.token? = some t) : ∃ offset : Nat,
      t.span = ⟨.ofOffset source offset, .ofOffset source (offset + t.lexeme.length)⟩ ∧
        Point source offset ∧ ¬StartsComment (source.drop offset) ∧
          Longest t.lexeme (source.drop offset) ∧ t.kind = kindOf t.lexeme := by
  obtain ⟨offset, hstart, hstop, hpoint, hopens⟩ := place_of_mem_segments hs
  obtain ⟨shape, text, start, stop⟩ := s
  simp only at hstart hstop hopens
  cases hopens with
  | token hcomment hlongest =>
      cases ht
      exact ⟨offset, by simp only [hstart, hstop], hpoint, hcomment, hlongest, rfl⟩
  | blank | comment | fault => cases ht

theorem mem_scan_tokens {source : Bytes} {t : Token} (ht : t ∈ (scan source).1) :
    (∃ s ∈ segments source, s.token? = some t) ∨ t = endToken source := by
  rcases List.mem_append.mp ht with ht | ht
  · exact .inl (List.mem_filterMap.mp ht)
  · exact .inr (List.mem_singleton.mp ht)

theorem slash_not_doubled {source : Bytes} {offset : Nat}
    (hlongest : Longest [0x2f] (source.drop offset))
    (hcomment : ¬StartsComment (source.drop offset)) : source[offset + 1]? ≠ some 0x2f := by
  obtain ⟨after, hafter⟩ := hlongest.starts
  rw [← hafter, List.singleton_append, startsComment_cons] at hcomment
  intro hslash
  rw [← List.getElem?_drop, ← hafter] at hslash
  exact hcomment ⟨rfl, by simpa [List.head?_eq_getElem?] using hslash⟩

end Scan

open Scan in
/--
At every place that the scanner comes to, the token is the longest lexeme, and there is a
problem if and only if there is nothing to read.
-/
theorem scan_munched (source : Bytes) : Munched source (scan source).1 (scan source).2 := by
  constructor
  case lexemes =>
    intro t ht hkind
    rcases mem_scan_tokens ht with ⟨s, hs, ht⟩ | rfl
    · obtain ⟨offset, hspan, hpoint, -, hlongest, -⟩ := opens_of_token? hs ht
      exact ⟨offset, hspan, hpoint, hlongest⟩
    · exact absurd rfl hkind
  case slashes =>
    intro t ht hkind
    rcases mem_scan_tokens ht with ⟨s, hs, ht⟩ | rfl
    · obtain ⟨offset, hspan, -, hcomment, hlongest, hkindOf⟩ := opens_of_token? hs ht
      have hslash := kindOf_eq_slash (hkindOf.symm.trans hkind)
      rw [hslash] at hspan hlongest
      rw [hspan]
      exact slash_not_doubled hlongest hcomment
    · cases hkind
  case kinds =>
    intro t ht
    rcases mem_scan_tokens ht with ⟨s, hs, ht⟩ | rfl
    · obtain ⟨-, -, -, -, -, hkind⟩ := opens_of_token? hs ht
      exact hkind
    · rfl
  case emitted =>
    intro offset text hpoint hlongest hcomment
    have hlt : offset < source.length := by
      by_contra hle
      have hnil := hlongest.starts
      rw [List.drop_eq_nil_of_le (Nat.not_lt.mp hle), List.prefix_nil] at hnil
      exact hlongest.lexeme.ne_nil hnil
    obtain ⟨s, hs, hstart, hopens⟩ := opens_at_point hpoint hlt
    obtain ⟨hshape, htext⟩ := hopens.unique (.token hcomment hlongest)
    have htoken : ∃ t, s.token? = some t := by simp [Segment.token?, hshape]
    obtain ⟨t, ht⟩ := htoken
    obtain ⟨hspan, hlexeme, -⟩ := span_of_token? ht
    exact ⟨t, List.mem_append_left _ (List.mem_filterMap.mpr ⟨s, hs, ht⟩),
      hlexeme.trans htext, by rw [hspan, hstart]⟩
  case reported =>
    intro offset hpoint hlt
    constructor
    · rintro ⟨d, hd, hoffset⟩
      obtain ⟨s, hs, hd⟩ := List.mem_filterMap.mp hd
      obtain ⟨hspan, -, hfault⟩ := span_of_diagnostic? hd
      obtain ⟨offset', hstart, -, -, hopens⟩ := place_of_mem_segments hs
      obtain rfl : offset' = offset := by
        rw [hspan, hstart] at hoffset
        exact Int.ofNat_inj.mp hoffset
      exact hopens.fault_iff.mp hfault
    · intro hunreadable
      obtain ⟨s, hs, hstart, hopens⟩ := opens_at_point hpoint hlt
      obtain ⟨problem, hshape⟩ := hopens.fault_iff.mpr hunreadable
      have hdiagnostic : ∃ d, s.diagnostic? = some d := by simp [Segment.diagnostic?, hshape]
      obtain ⟨d, hd⟩ := hdiagnostic
      exact ⟨d, List.mem_filterMap.mpr ⟨s, hs, hd⟩, by rw [(span_of_diagnostic? hd).1, hstart]⟩
  case faults =>
    intro d hd
    obtain ⟨s, hs, hd⟩ := List.mem_filterMap.mp hd
    obtain ⟨offset, hstart, hstop, hpoint, hopens⟩ := place_of_mem_segments hs
    obtain ⟨shape, text, start, stop⟩ := s
    simp only at hstart hstop hopens
    cases hopens with
    | @fault problem text _ hfault =>
        cases hd
        exact ⟨offset, text, problem, by simp only [hstart, hstop], hpoint, hfault⟩
    | token | blank | comment => cases hd

example :
    (scan (utf8 "12.5.or orchid=== </ //")).1.map Token.lexeme =
      ["12.5", ".", "or", "orchid", "==", "=", "<", "/", ""].map utf8 := by
  decide +kernel

end Lox
