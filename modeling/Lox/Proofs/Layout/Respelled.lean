import Lox.Proofs.Layout.Sources
import Lox.Proofs.Token.Munch

/-!
A source spelled again from its tokens.

A lexeme with a blank after it is read as it was in its source, whatever stood around it
there: no longer lexeme and no comment starts in its place.  So the lexemes of a source, with a
space between neighbours, are a source with the same tokens, and nothing in it is at fault.
-/

namespace Lox

namespace Scan

/-! ## Lexemes before a blank -/

def Stops (rest : Bytes) : Prop := ∀ c ∈ rest.head?, isBlank c = true

theorem IsLexeme.quoted_of_isBlank {s : Bytes} (h : IsLexeme s) {c : UInt8} (hc : c ∈ s)
    (hblank : isBlank c = true) : ∃ body, s = 0x22 :: (body ++ [0x22]) ∧ 0x22 ∉ body := by
  have apart {p : UInt8 → Bool} (hp : ∀ c, p c = true → isBlank c = false) : p c ≠ true :=
    fun hpc => by simp [hp c hpc] at hblank
  have hdigit : Bytes.isDigit c ≠ true := apart fun c hc => (foreign_of_isDigit c hc).2.2.1
  have hstart : isWordStart c ≠ true := apart fun c hc => (foreign_of_isWordStart c hc).2.2.1
  cases h with
  | operator hmem =>
      obtain ⟨b, hop, hs⟩ := operator_cases hmem
      have hb := (foreign_of_isOperatorStart b hop).2.2.1
      rcases hs with rfl | ⟨rfl, -⟩
      · obtain rfl := List.mem_singleton.mp hc
        simp [hb] at hblank
      · rcases List.mem_pair.mp hc with rfl | rfl
        · simp [hb] at hblank
        · exact absurd hblank (by decide)
  | whole hdigits => exact absurd (hdigits.2 c hc) hdigit
  | decimal hwhole hfraction =>
      rcases List.mem_append.mp hc with hc | hc
      · exact absurd (hwhole.2 c hc) hdigit
      · rcases List.mem_cons.mp hc with rfl | hc
        · exact absurd hblank (by decide)
        · exact absurd (hfraction.2 c hc) hdigit
  | word hword htail =>
      rcases List.mem_cons.mp hc with rfl | hc
      · exact absurd hword hstart
      · have hpart := htail c hc
        rw [isWordPart, Bool.or_eq_true] at hpart
        exact absurd hpart (not_or.mpr ⟨hstart, hdigit⟩)
  | string hbody => exact ⟨_, rfl, hbody⟩

theorem IsLexeme.quoted {s after : Bytes} (h : IsLexeme s) (hs : s = 0x22 :: after) :
    ∃ body, after = body ++ [0x22] ∧ 0x22 ∉ body := by
  cases h.from (show s <+: 0x22 :: after by simp [hs]) with
  | short hop | long hop => exact absurd hop (by decide)
  | whole hdigit | decimal hdigit => exact absurd hdigit (by decide)
  | word hword => exact absurd hword (by decide)
  | string _ hbody => exact ⟨_, (List.cons.inj hs).2.symm, hbody⟩

/-- A lexeme is as long as any where only a blank goes on after it. -/
theorem IsLexeme.longest {text rest : Bytes} (h : IsLexeme text) (hrest : Stops rest) :
    Longest text (text ++ rest) := by
  refine ⟨h, List.prefix_append _ _, ?_⟩
  intro other hother hstarts
  by_contra hlonger
  rw [not_le] at hlonger
  obtain ⟨more, rfl⟩ :=
    List.prefix_of_prefix_length_le (List.prefix_append text rest) hstarts hlonger.le
  have hmore := (List.prefix_append_right_inj text).mp hstarts
  -- the first byte after the text is a blank, so the longer lexeme is a string ...
  cases more with
  | nil => simp at hlonger
  | cons c more =>
      obtain ⟨after, rfl⟩ := hmore
      obtain ⟨body, hquoted, hbody⟩ :=
        hother.quoted_of_isBlank (c := c) (by simp) (hrest c rfl)
      -- ... and so is the text, which has the closing quote of both
      obtain ⟨b, tail, rfl⟩ := List.exists_cons_of_ne_nil h.ne_nil
      rw [List.cons_append, List.cons.injEq] at hquoted
      obtain ⟨rfl, hquoted⟩ := hquoted
      obtain ⟨inner, rfl, -⟩ := h.quoted rfl
      have hinside : 0x22 ∈ (inner ++ [0x22] ++ c :: more).dropLast := by
        simp [List.dropLast_append_of_ne_nil]
      rw [hquoted, List.dropLast_concat] at hinside
      exact hbody hinside

theorem IsLexeme.not_startsComment {text rest : Bytes} (h : IsLexeme text) (hrest : Stops rest) :
    ¬StartsComment (text ++ rest) := by
  obtain ⟨b, tail, htext⟩ := List.exists_cons_of_ne_nil h.ne_nil
  rw [htext, List.cons_append, startsComment_cons]
  rintro ⟨rfl, hslash⟩
  have hfrom : LexemeFrom 0x2f text := h.from (show text <+: 0x2f :: tail by simp [htext])
  cases hfrom with
  | short =>
      obtain rfl := (List.cons.inj htext).2
      exact absurd (hrest 0x2f hslash) (by decide)
  | long _ hlong => exact absurd hlong (by decide)
  | whole hdigit | decimal hdigit => exact absurd hdigit (by decide)
  | word hword => exact absurd hword (by decide)
  | string hquote => exact absurd hquote (by decide)

theorem IsLexeme.opens {text rest : Bytes} (h : IsLexeme text) (hrest : Stops rest) :
    Opens (text ++ rest) (.token (kindOf text)) text :=
  .token (h.not_startsComment hrest) (h.longest hrest)

/-! ## Reading piece by piece -/

theorem segmentsFrom_length (p : Position) (text rest : Bytes) :
    segmentsFrom text.length p (text ++ rest) = segmentsFrom 0 (p.advanceBy text) rest := by
  induction text generalizing p with
  | nil => rfl
  | cons b text ih => exact ih (p.advance b)

theorem Opens.segmentsFrom_eq {text rest : Bytes} {shape : Shape}
    (h : Opens (text ++ rest) shape text) (hne : text ≠ []) (p : Position) :
    segmentsFrom 0 p (text ++ rest) =
      ⟨shape, text, ⟨p, p.advanceBy text⟩⟩ :: segmentsFrom 0 (p.advanceBy text) rest := by
  obtain ⟨b, tail, rfl⟩ := List.exists_cons_of_ne_nil hne
  obtain ⟨hshape, htext⟩ := (opens_munch b (tail ++ rest)).unique h
  have hlength : (munch b (tail ++ rest)).2 = tail.length + 1 := by
    have hle := (munch_length b (tail ++ rest)).2
    rw [← List.length_cons, ← htext, List.length_take, List.length_cons]
    omega
  rw [List.cons_append, segmentsFrom_zero, hshape, htext, hlength, Nat.add_sub_cancel,
    segmentsFrom_length, Position.advanceBy_cons]

def contentOf (lexeme : Bytes) : Kind × Bytes × Literal :=
  (kindOf lexeme, lexeme, literalOf (kindOf lexeme) lexeme)

/-- A source, wherever it starts, has these tokens and nothing at fault. -/
structure ReadsAs (source : Bytes) (contents : List (Kind × Bytes × Literal)) : Prop where
  tokens : ∀ p, ((segmentsFrom 0 p source).filterMap Segment.token?).map Token.content = contents
  problems : ∀ p, (segmentsFrom 0 p source).filterMap Segment.diagnostic? = []

namespace ReadsAs

variable {rest : Bytes} {contents : List (Kind × Bytes × Literal)}

theorem nil : ReadsAs [] [] := ⟨fun _ => rfl, fun _ => rfl⟩

theorem blank {b : UInt8} (hb : isBlank b = true) (h : ReadsAs rest contents) :
    ReadsAs (b :: rest) contents := by
  have hopens : Opens ([b] ++ rest) .blank [b] := .blank hb (List.prefix_append _ _)
  have hsegments := hopens.segmentsFrom_eq (by simp)
  rw [List.singleton_append] at hsegments
  constructor
  case tokens =>
    intro p
    rw [hsegments]
    exact h.tokens _
  case problems =>
    intro p
    rw [hsegments]
    exact h.problems _

theorem lexeme {text : Bytes} (htext : IsLexeme text) (hrest : Stops rest)
    (h : ReadsAs rest contents) : ReadsAs (text ++ rest) (contentOf text :: contents) := by
  have hsegments := (htext.opens hrest).segmentsFrom_eq htext.ne_nil
  constructor
  case tokens =>
    intro p
    rw [hsegments]
    exact congrArg (contentOf text :: ·) (h.tokens _)
  case problems =>
    intro p
    rw [hsegments]
    exact h.problems _

theorem join {lexemes : List Bytes} (h : ∀ text ∈ lexemes, IsLexeme text) :
    ReadsAs (Bytes.join (utf8 " ") (lexemes ++ [[]])) (lexemes.map contentOf) := by
  induction lexemes with
  | nil => exact .nil
  | cons text lexemes ih =>
      rw [List.forall_mem_cons] at h
      have hjoin : Bytes.join (utf8 " ") (text :: lexemes ++ [[]]) =
          text ++ 0x20 :: Bytes.join (utf8 " ") (lexemes ++ [[]]) := by
        rw [List.cons_append, Bytes.join, List.append_assoc]
        · rfl
        · simp
      rw [hjoin]
      refine .lexeme h.1 ?_ (.blank (by decide) (ih h.2))
      rintro c ⟨⟩
      decide

end ReadsAs

theorem content_of_token? {source : Bytes} {s : Segment} {t : Token} (hs : s ∈ segments source)
    (ht : s.token? = some t) : IsLexeme t.lexeme ∧ t.content = contentOf t.lexeme := by
  obtain ⟨offset, -, -, -, hlongest, hkind⟩ := opens_of_token? hs ht
  refine ⟨hlongest.lexeme, ?_⟩
  unfold Segment.token? at ht
  split at ht
  · cases ht
    rw [contentOf, ← hkind]
    rfl
  · cases ht

end Scan

/--
The lexemes of a source, whatever is at fault in it, are with single spaces between them a
source without problems, whose tokens have the same kinds, lexemes and literals.
-/
theorem scan_respelled (source : Bytes) :
    let respelled := Bytes.join (utf8 " ") ((scan source).1.map Token.lexeme)
    (scan respelled).2 = [] ∧
      (scan respelled).1.map Token.content = (scan source).1.map Token.content := by
  intro respelled
  let tokens := (Scan.segments source).filterMap Scan.Segment.token?
  have hscan : (scan source).1 = tokens ++ [Scan.endToken source] := rfl
  have htokens : ∀ t ∈ tokens, Scan.IsLexeme t.lexeme ∧ t.content = Scan.contentOf t.lexeme := by
    intro t ht
    obtain ⟨s, hs, ht⟩ := List.mem_filterMap.mp ht
    exact Scan.content_of_token? hs ht
  have hreads : Scan.ReadsAs respelled ((tokens.map Token.lexeme).map Scan.contentOf) := by
    have hpieces : (scan source).1.map Token.lexeme = tokens.map Token.lexeme ++ [[]] := by
      rw [hscan, List.map_append]
      rfl
    simp only [respelled, hpieces]
    apply Scan.ReadsAs.join
    simpa using fun t ht => (htokens t ht).1
  have hcontents : (tokens.map Token.lexeme).map Scan.contentOf = tokens.map Token.content := by
    rw [List.map_map]
    exact List.map_congr_left fun t ht => (htokens t ht).2.symm
  refine ⟨hreads.problems .first, ?_⟩
  calc (scan respelled).1.map Token.content
      = ((Scan.segments respelled).filterMap Scan.Segment.token?).map Token.content ++
          [(Scan.endToken respelled).content] := List.map_append
    _ = tokens.map Token.content ++ [(Scan.endToken source).content] := by
        rw [← hcontents, ← hreads.tokens .first]
        rfl
    _ = (scan source).1.map Token.content := by
        rw [hscan, List.map_append]
        rfl

/-- A stray byte between words, slashes apart by a comment, and a string over two lines. -/
example :
    let source := utf8 "a@b 1.x / // c\n/\"d\n\"!"
    (scan source).2.length = 1 ∧
      Bytes.join (utf8 " ") ((scan source).1.map Token.lexeme) =
        utf8 "a b 1 . x / / \"d\n\" ! " := by
  decide +kernel

end Lox
