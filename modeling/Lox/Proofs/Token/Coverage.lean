import Lox.Proofs.Token.Lines
import Mathlib.Data.List.Induction
import Mathlib.Data.List.Pairwise
import Mathlib.Data.List.Perm.Basic

/-!
Nothing of a source is lost.

Every byte stands in exactly one segment.  So the tokens and the problems of a source
follow each other with only blanks and comments between them, and each of them knows the
text that it covers and the lines and columns where it starts and ends.
-/

namespace Lox

/-! ## Offsets -/

/-- Lines are counted by the newlines before an offset, columns from the last of them. -/
def Position.ofOffset (source : Bytes) (offset : Nat) : Position where
  offset := offset
  line := 1 + (source.take offset).count 0x0a
  column := 1 + ((source.take offset).reverse.takeWhile (· != 0x0a)).length

theorem Position.first_advanceBy (before after : Bytes) :
    first.advanceBy before = ofOffset (before ++ after) before.length := by
  unfold ofOffset
  rw [List.take_left]
  induction before using List.reverseRecOn with
  | nil => rfl
  | append_singleton front b ih =>
      rw [advanceBy_append, ih]
      by_cases hb : b = 0x0a
      · subst hb
        simp [advanceBy, advance]
        omega
      · simp [advanceBy, advance, hb]
        omega

@[simp] theorem Position.advance_offset (p : Position) (b : UInt8) :
    (p.advance b).offset = p.offset + 1 := by
  unfold advance
  split <;> rfl

def Span.Covers (s : Span) (i : Nat) : Prop := s.start.offset ≤ i ∧ i < s.stop.offset

def Span.Before (a b : Span) : Prop := a.stop.offset ≤ b.start.offset

def Span.slice (source : Bytes) (s : Span) : Bytes :=
  (source.take s.stop.offset.toNat).drop s.start.offset.toNat

namespace Scan

structure IsComment (source : Bytes) (start stop : Nat) : Prop where
  opened : source[start]? = some 0x2f ∧ source[start + 1]? = some 0x2f
  inside : start + 2 ≤ stop ∧ stop ≤ source.length
  oneLine : ∀ i, start ≤ i → i < stop → source[i]? ≠ some 0x0a
  ended : stop = source.length ∨ source[stop]? = some 0x0a

def marked (tokens : List Token) (problems : List Diagnostic) : List Span :=
  List.merge ((tokens.filter fun t => t.kind != .eof).map Token.span)
    (problems.map Diagnostic.span) fun a b => a.start.offset ≤ b.start.offset

/-- What the tokens and problems of a source tell about it. -/
structure Faithful (source : Bytes) (tokens : List Token) (problems : List Diagnostic) :
    Prop where
  closed : ∃ (front : List Token) (last : Token), tokens = front ++ [last] ∧
    (∀ t ∈ front, t.kind ≠ .eof) ∧ last.kind = .eof ∧ last.lexeme = [] ∧
    last.span.start.offset = source.length ∧ last.span.stop.offset = source.length
  lexemes : ∀ t ∈ tokens, t.lexeme = t.span.slice source
  nonempty : ∀ s ∈ marked tokens problems, s.start.offset < s.stop.offset
  disjoint : (marked tokens problems).Pairwise Span.Before
  skipped : ∀ (i : Nat) (b : UInt8), source[i]? = some b →
    (∀ s ∈ marked tokens problems, ¬s.Covers i) →
    b = 0x20 ∨ b = 0x09 ∨ b = 0x0d ∨ b = 0x0a ∨
      ∃ start stop, IsComment source start stop ∧ start ≤ i ∧ i < stop ∧
        ∀ j, start ≤ j → j < stop → ∀ s ∈ marked tokens problems, ¬s.Covers j
  positions : ∀ s ∈ tokens.map Token.span ++ problems.map Diagnostic.span,
    ∀ p ∈ [s.start, s.stop],
      p = .ofOffset source p.offset.toNat ∧ p.offset.toNat ≤ source.length
  lines : (∀ t ∈ tokens, t.line = t.span.stop.line) ∧
    ∀ d ∈ problems, d.line = d.span.stop.line

/-! ## Segments one after the other -/

theorem segmentsFrom_zero (p : Position) (b : UInt8) (rest : Bytes) :
    segmentsFrom 0 p (b :: rest) =
      ⟨(munch b rest).1, (b :: rest).take (munch b rest).2,
          ⟨p, p.advanceBy ((b :: rest).take (munch b rest).2)⟩⟩ ::
        segmentsFrom ((munch b rest).2 - 1) (p.advance b) rest := by
  simp only [segmentsFrom]

theorem le_start_of_mem_segmentsFrom {skip : Nat} {p : Position} {source : Bytes} {s : Segment}
    (hs : s ∈ segmentsFrom skip p source) : p.offset + skip ≤ s.span.start.offset := by
  induction source generalizing skip p with
  | nil => simp [segmentsFrom] at hs
  | cons b rest ih =>
      cases skip with
      | succ skip =>
          have hle := ih hs
          rw [Position.advance_offset] at hle
          omega
      | zero =>
          rw [segmentsFrom_zero] at hs
          rcases List.mem_cons.mp hs with rfl | hs
          · simp
          · have hle := ih hs
            rw [Position.advance_offset] at hle
            omega

theorem segmentsFrom_pairwise (skip : Nat) (p : Position) (source : Bytes) :
    (segmentsFrom skip p source).Pairwise fun s t => s.span.Before t.span := by
  induction source generalizing skip p with
  | nil => simp [segmentsFrom]
  | cons b rest ih =>
      cases skip with
      | succ skip => exact ih skip (p.advance b)
      | zero =>
          rw [segmentsFrom_zero]
          apply List.Pairwise.cons
          · intro t ht
            have hpos := (munch_length b rest).1
            have hle := le_start_of_mem_segmentsFrom ht
            rw [Position.advance_offset] at hle
            change (p.advanceBy _).offset ≤ _
            rw [(p.advanceBy_eq _).1, List.length_take]
            omega
          · exact ih _ _

/-- No byte is left out. -/
theorem exists_mem_segmentsFrom {skip i : Nat} (p : Position) {source : Bytes} (hskip : skip ≤ i)
    (hi : i < source.length) :
    ∃ s ∈ segmentsFrom skip p source,
      s.span.start.offset ≤ p.offset + i ∧ p.offset + i < s.span.stop.offset := by
  induction source generalizing skip i p with
  | nil => simp at hi
  | cons b rest ih =>
      rw [List.length_cons] at hi
      -- the byte stands after `b`, and `skip` bytes there belong to an earlier segment
      have later (skip : Nat) (hskip : skip + 1 ≤ i) :
          ∃ s ∈ segmentsFrom skip (p.advance b) rest,
            s.span.start.offset ≤ p.offset + i ∧ p.offset + i < s.span.stop.offset := by
        obtain ⟨s, hs, hstart, hstop⟩ :=
          ih (i := i - 1) (p.advance b) (show skip ≤ i - 1 by omega) (by omega)
        rw [Position.advance_offset] at hstart hstop
        exact ⟨s, hs, by omega, by omega⟩
      cases skip with
      | succ skip => exact later skip hskip
      | zero =>
          obtain ⟨hpos, hle⟩ := munch_length b rest
          rw [segmentsFrom_zero]
          by_cases hlt : i < (munch b rest).2
          · refine ⟨_, List.mem_cons_self, ?_, ?_⟩
            · dsimp only
              omega
            · dsimp only
              rw [(p.advanceBy_eq _).1, List.length_take, List.length_cons]
              omega
          · obtain ⟨s, hs, hcovers⟩ := later ((munch b rest).2 - 1) (by omega)
            exact ⟨s, List.mem_cons_of_mem _ hs, hcovers⟩

/-! ## What one segment covers -/

theorem exists_around_of_mem_segments {source : Bytes} {s : Segment} (hs : s ∈ segments source) :
    ∃ before after b rest, source = before ++ (s.text ++ after) ∧ s.text ++ after = b :: rest ∧
      munch b rest = (s.shape, s.text.length) ∧
      s.span.start = .ofOffset source before.length ∧
      s.span.stop = .ofOffset source (before.length + s.text.length) := by
  obtain ⟨before, b, rest, length, hsource, hmunch, htext, hspan⟩ := place_of_mem_segmentsFrom hs
  have hle := (munch_length b rest).2
  rw [hmunch] at hle
  have hlength : s.text.length = length := by
    rw [htext, List.length_take, List.length_cons]
    exact Nat.min_eq_left hle
  have hrest : s.text ++ (b :: rest).drop length = b :: rest := by
    rw [htext, List.take_append_drop]
  refine ⟨before, (b :: rest).drop length, b, rest, ?_, hrest, ?_, ?_, ?_⟩
  · rw [hrest, hsource]
  · rw [hlength, hmunch]
  · rw [hspan, Position.first_advanceBy before (b :: rest), ← hsource]
  · rw [hspan, Position.first_advanceBy (before ++ s.text) ((b :: rest).drop length),
      List.append_assoc, hrest, ← hsource, List.length_append]

theorem text_of_mem_segments {source : Bytes} {s : Segment} (hs : s ∈ segments source) :
    s.text = s.span.slice source := by
  obtain ⟨before, after, -, -, hsource, -, -, hstart, hstop⟩ := exists_around_of_mem_segments hs
  unfold Span.slice
  rw [hstart, hstop]
  simp only [Position.ofOffset, Int.toNat_natCast]
  rw [hsource, ← List.append_assoc, ← List.length_append, List.take_left, List.drop_left]

theorem start_lt_stop_of_mem_segments {source : Bytes} {s : Segment} (hs : s ∈ segments source) :
    s.span.start.offset < s.span.stop.offset := by
  obtain ⟨before, -, b, rest, -, -, hmunch, hstart, hstop⟩ := exists_around_of_mem_segments hs
  have hpos := (munch_length b rest).1
  rw [hmunch] at hpos
  rw [hstart, hstop]
  simp only [Position.ofOffset]
  omega

theorem position_of_mem_segments {source : Bytes} {s : Segment} (hs : s ∈ segments source)
    {p : Position} (hp : p ∈ [s.span.start, s.span.stop]) :
    p = .ofOffset source p.offset.toNat ∧ p.offset.toNat ≤ source.length := by
  obtain ⟨before, after, -, -, hsource, -, -, hstart, hstop⟩ := exists_around_of_mem_segments hs
  have hlength := congrArg List.length hsource
  simp only [List.length_append] at hlength
  simp only [List.mem_cons, List.not_mem_nil, or_false] at hp
  rcases hp with rfl | rfl
  · rw [hstart]
    simp only [Position.ofOffset, Int.toNat_natCast]
    exact ⟨trivial, by omega⟩
  · rw [hstop]
    simp only [Position.ofOffset, Int.toNat_natCast]
    exact ⟨trivial, by omega⟩

/-! ## Blanks and comments -/

inductive Skips (b : UInt8) (rest : Bytes) : Shape → (length : Nat) → Prop where
  | blank : isBlank b = true → Skips b rest .blank 1
  | comment : b = 0x2f → rest.head? = some 0x2f →
      Skips b rest .comment ((rest.takeWhile (· != 0x0a)).length + 1)

def Shape.IsSkipped (shape : Shape) : Prop := shape = .blank ∨ shape = .comment

theorem skips_of_munch {b : UInt8} {rest : Bytes} {shape : Shape} {length : Nat}
    (h : munch b rest = (shape, length)) (hshape : shape.IsSkipped) :
    Skips b rest shape length := by
  cases isFront_of_munch h with
  | blank hblank => exact .blank hblank
  | comment hslash hnext => exact .comment hslash hnext
  | _ => simp [Shape.IsSkipped] at hshape

theorem isComment_append {before body after : Bytes} (hopen : body.head? = some 0x2f)
    (hline : ∀ c ∈ body, c ≠ 0x0a) (hend : ∀ c ∈ after.head?, c = 0x0a) :
    IsComment (before ++ (0x2f :: body ++ after)) before.length
      (before.length + (body.length + 1)) := by
  obtain ⟨body, rfl⟩ := List.head?_eq_some_iff.mp hopen
  constructor
  · simp
  · simp
  · intro i hstart hstop hnewline
    have hlt : i - before.length < (0x2f :: 0x2f :: body).length := by
      simp only [List.length_cons] at hstop ⊢
      omega
    rw [List.getElem?_append_right hstart, List.getElem?_append_left hlt] at hnewline
    rcases List.mem_cons.mp (List.mem_of_getElem? hnewline) with h | h
    · exact absurd h (by decide)
    · exact hline _ h rfl
  · cases after with
    | nil =>
        left
        simp
    | cons c after =>
        right
        rw [List.getElem?_append_right (by omega), List.getElem?_append_right (by simp)]
        simpa using hend c rfl

theorem skipped_of_mem_segments {source : Bytes} {s : Segment} (hs : s ∈ segments source)
    (hshape : s.shape.IsSkipped) :
    ∃ start stop : Nat, s.span.start.offset = start ∧ s.span.stop.offset = stop ∧
      (IsComment source start stop ∨
        stop = start + 1 ∧ ∃ b, source[start]? = some b ∧ isBlank b = true) := by
  obtain ⟨before, after, b, rest, hsource, hrest, hmunch, hstart, hstop⟩ :=
    exists_around_of_mem_segments hs
  have hskips := skips_of_munch hmunch hshape
  refine ⟨before.length, before.length + s.text.length, ?_, ?_, ?_⟩
  · rw [hstart]
    rfl
  · rw [hstop]
    rfl
  · rw [hsource, hrest]
    generalize s.shape = shape at hskips
    generalize s.text.length = length at hskips
    cases hskips with
    | blank hblank => exact .inr ⟨rfl, b, by simp, hblank⟩
    | comment hslash hhead =>
        left
        have hsplit : rest.takeWhile (· != 0x0a) ++ rest.dropWhile (· != 0x0a) = rest :=
          List.takeWhile_append_dropWhile
        rw [hslash]
        conv in 0x2f :: rest => rw [← hsplit]
        apply isComment_append
        · rw [List.head?_takeWhile, hhead]
          rfl
        · intro c hc
          simpa using List.mem_takeWhile_imp hc
        · intro c hc
          have hstop := List.head?_dropWhile_not (· != 0x0a) rest
          rw [hc] at hstop
          simpa using hstop

/-! ## Tokens and problems -/

theorem span_of_token? {s : Segment} {t : Token} (h : s.token? = some t) :
    t.span = s.span ∧ t.lexeme = s.text ∧ t.line = s.span.stop.line ∧
      ∃ kind, s.shape = .token kind := by
  unfold Segment.token? at h
  split at h
  · next kind hshape =>
      cases h
      exact ⟨rfl, rfl, rfl, kind, hshape⟩
  · cases h

theorem span_of_diagnostic? {s : Segment} {d : Diagnostic} (h : s.diagnostic? = some d) :
    d.span = s.span ∧ d.line = s.span.stop.line ∧ ∃ problem, s.shape = .fault problem := by
  unfold Segment.diagnostic? at h
  split at h
  · next problem hshape =>
      cases h
      exact ⟨rfl, rfl, problem, hshape⟩
  · cases h

theorem mem_marked_scan {source : Bytes} {range : Span} :
    range ∈ marked (scan source).1 (scan source).2 ↔
      ∃ s ∈ segments source, ¬s.shape.IsSkipped ∧ s.span = range := by
  unfold marked
  rw [List.mem_merge, filter_scan, List.mem_map, List.mem_map]
  constructor
  · rintro (⟨t, ht, rfl⟩ | ⟨d, hd, rfl⟩)
    · obtain ⟨s, hs, ht⟩ := List.mem_filterMap.mp ht
      obtain ⟨hspan, -, -, kind, hshape⟩ := span_of_token? ht
      exact ⟨s, hs, by simp [hshape, Shape.IsSkipped], hspan.symm⟩
    · obtain ⟨s, hs, hd⟩ := List.mem_filterMap.mp hd
      obtain ⟨hspan, -, problem, hshape⟩ := span_of_diagnostic? hd
      exact ⟨s, hs, by simp [hshape, Shape.IsSkipped], hspan.symm⟩
  · rintro ⟨s, hs, hshape, rfl⟩
    cases h : s.shape with
    | blank | comment => simp [h, Shape.IsSkipped] at hshape
    | token kind =>
        left
        have htoken : (s.token?).map Token.span = some s.span := by
          simp only [Segment.token?, h, Option.map_some]
        obtain ⟨t, ht, hspan⟩ := Option.map_eq_some_iff.mp htoken
        exact ⟨t, List.mem_filterMap.mpr ⟨s, hs, ht⟩, hspan⟩
    | fault problem =>
        right
        have hfault : (s.diagnostic?).map Diagnostic.span = some s.span := by
          simp only [Segment.diagnostic?, h, Option.map_some, Diagnostic.atSpan]
        obtain ⟨d, hd, hspan⟩ := Option.map_eq_some_iff.mp hfault
        exact ⟨d, List.mem_filterMap.mpr ⟨s, hs, hd⟩, hspan⟩

def Apart (a b : Span) : Prop := a.Before b ∨ b.Before a

theorem apart_of_mem_segments {source : Bytes} {s t : Segment} (hs : s ∈ segments source)
    (ht : t ∈ segments source) (hne : s ≠ t) : Apart s.span t.span := by
  have : Std.Symm fun s t : Segment => Apart s.span t.span := ⟨fun _ _ h => h.symm⟩
  have hapart : (segments source).Pairwise fun s t => Apart s.span t.span :=
    (segmentsFrom_pairwise 0 .first source).imp .inl
  exact hapart.forall hs ht hne

theorem pairwise_before_of_spans {α : Type} {f : Segment → Option α} {range : α → Span}
    (h : ∀ s x, f s = some x → range x = s.span) (source : Bytes) :
    (((segments source).filterMap f).map range).Pairwise Span.Before := by
  rw [List.pairwise_map, List.pairwise_filterMap]
  apply (segmentsFrom_pairwise 0 .first source).imp
  intro s t hst x hx y hy
  rw [h s x hx, h t y hy]
  exact hst

/-- Merged by their starts, ranges that are apart and have something in them increase. -/
theorem merge_pairwise_before {xs ys : List Span} (hxs : xs.Pairwise Span.Before)
    (hys : ys.Pairwise Span.Before)
    (hne : ∀ a ∈ xs ++ ys, a.start.offset < a.stop.offset)
    (hapart : ∀ a ∈ xs, ∀ b ∈ ys, Apart a b) :
    (List.merge xs ys fun a b => a.start.offset ≤ b.start.offset).Pairwise Span.Before := by
  have hperm : (List.merge xs ys fun a b => a.start.offset ≤ b.start.offset).Perm (xs ++ ys) :=
    List.merge_perm_append _
  have starts {zs : List Span} (hzs : zs.Pairwise Span.Before) (hsub : zs ⊆ xs ++ ys) :
      zs.Pairwise fun a b => decide (a.start.offset ≤ b.start.offset) = true := by
    apply hzs.imp_of_mem
    intro a b ha _ hab
    have hlt := hne a (hsub ha)
    unfold Span.Before at hab
    simp only [decide_eq_true_eq]
    omega
  have hsorted := List.pairwise_merge (by grind) (by grind) xs ys
    (starts hxs (List.subset_append_left xs ys)) (starts hys (List.subset_append_right xs ys))
  have hall : (xs ++ ys).Pairwise Apart :=
    List.pairwise_append.mpr ⟨hxs.imp .inl, hys.imp .inl, hapart⟩
  have hmerged := (hperm.pairwise_iff fun h => h.symm).mpr hall
  apply (hsorted.and hmerged).imp_of_mem
  intro a b _ hb hab
  have hlt := hne b (hperm.mem_iff.mp hb)
  simp only [Apart, Span.Before, decide_eq_true_eq] at hab ⊢
  omega

theorem marked_pairwise_before (source : Bytes) :
    (marked (scan source).1 (scan source).2).Pairwise Span.Before := by
  unfold marked
  rw [filter_scan]
  apply merge_pairwise_before
  · exact pairwise_before_of_spans (fun _ _ h => (span_of_token? h).1) source
  · exact pairwise_before_of_spans (fun _ _ h => (span_of_diagnostic? h).1) source
  · intro a ha
    have hmarked : a ∈ marked (scan source).1 (scan source).2 := by
      rwa [marked, filter_scan, List.mem_merge, ← List.mem_append]
    obtain ⟨s, hs, -, rfl⟩ := mem_marked_scan.mp hmarked
    exact start_lt_stop_of_mem_segments hs
  · intro a ha b hb
    obtain ⟨t, ht, rfl⟩ := List.mem_map.mp ha
    obtain ⟨d, hd, rfl⟩ := List.mem_map.mp hb
    obtain ⟨u, hu, ht⟩ := List.mem_filterMap.mp ht
    obtain ⟨v, hv, hd⟩ := List.mem_filterMap.mp hd
    obtain ⟨htoken, -, -, kind, hkind⟩ := span_of_token? ht
    obtain ⟨hproblem, -, problem, hfault⟩ := span_of_diagnostic? hd
    rw [htoken, hproblem]
    apply apart_of_mem_segments hu hv
    rintro rfl
    simp [hkind] at hfault

theorem not_covers_of_skipped {source : Bytes} {s : Segment} (hs : s ∈ segments source)
    (hshape : s.shape.IsSkipped) {i : Nat} (hi : s.span.Covers i) :
    ∀ range ∈ marked (scan source).1 (scan source).2, ¬range.Covers i := by
  intro range hrange hcovers
  obtain ⟨t, ht, hmarked, rfl⟩ := mem_marked_scan.mp hrange
  have hapart : Apart s.span t.span := by
    apply apart_of_mem_segments hs ht
    rintro rfl
    exact hmarked hshape
  simp only [Apart, Span.Before, Span.Covers] at hapart hi hcovers
  omega

theorem skipped_of_not_covers {source : Bytes} {i : Nat} {b : UInt8} (hb : source[i]? = some b)
    (hi : ∀ range ∈ marked (scan source).1 (scan source).2, ¬range.Covers i) :
    b = 0x20 ∨ b = 0x09 ∨ b = 0x0d ∨ b = 0x0a ∨
      ∃ start stop, IsComment source start stop ∧ start ≤ i ∧ i < stop ∧
        ∀ j, start ≤ j → j < stop →
          ∀ range ∈ marked (scan source).1 (scan source).2, ¬range.Covers j := by
  obtain ⟨hlt, -⟩ := List.getElem?_eq_some_iff.mp hb
  obtain ⟨s, hs, hcovers⟩ := exists_mem_segmentsFrom .first (Nat.zero_le i) hlt
  simp only [Position.first, Int.zero_add] at hcovers
  have hshape : s.shape.IsSkipped := by
    by_contra hmarked
    exact hi s.span (mem_marked_scan.mpr ⟨s, hs, hmarked, rfl⟩) hcovers
  obtain ⟨start, stop, hstart, hstop, hcomment | ⟨hone, c, hc, hblank⟩⟩ :=
    skipped_of_mem_segments hs hshape
  · rw [hstart, hstop] at hcovers
    refine .inr (.inr (.inr (.inr ⟨start, stop, hcomment, by omega, by omega, ?_⟩)))
    intro j hj hj'
    apply not_covers_of_skipped hs hshape
    rw [Span.Covers, hstart, hstop]
    omega
  · rw [hstart, hstop] at hcovers
    obtain rfl : i = start := by omega
    obtain rfl : b = c := Option.some.inj (hb.symm.trans hc)
    simp only [isBlank, Bool.or_eq_true, beq_iff_eq] at hblank
    tauto

theorem endToken_span (source : Bytes) :
    (endToken source).span = ⟨.ofOffset source source.length, .ofOffset source source.length⟩ := by
  have hstop := Position.first_advanceBy source []
  rw [List.append_nil] at hstop
  simp only [endToken, hstop]

theorem position_of_mem_scan {source : Bytes} {range : Span}
    (h : range ∈ (scan source).1.map Token.span ++ (scan source).2.map Diagnostic.span)
    {p : Position} (hp : p ∈ [range.start, range.stop]) :
    p = .ofOffset source p.offset.toNat ∧ p.offset.toNat ≤ source.length := by
  rcases List.mem_append.mp h with h | h
  · obtain ⟨t, ht, rfl⟩ := List.mem_map.mp h
    rcases List.mem_append.mp ht with ht | ht
    · obtain ⟨s, hs, ht⟩ := List.mem_filterMap.mp ht
      rw [(span_of_token? ht).1] at hp
      exact position_of_mem_segments hs hp
    · obtain rfl := List.mem_singleton.mp ht
      rw [endToken_span] at hp
      obtain rfl : p = .ofOffset source source.length := by simpa using hp
      simp [Position.ofOffset]
  · obtain ⟨d, hd, rfl⟩ := List.mem_map.mp h
    obtain ⟨s, hs, hd⟩ := List.mem_filterMap.mp hd
    rw [(span_of_diagnostic? hd).1] at hp
    exact position_of_mem_segments hs hp

end Scan

/--
The tokens of a source, closed by one end, and its problems cover it without overlap; what
they leave out is blank or a comment, and they stand where they say.
-/
theorem scan_faithful (source : Bytes) :
    Scan.Faithful source (scan source).1 (scan source).2 := by
  constructor
  case closed =>
    obtain ⟨front, hscan, hkinds⟩ := scan_tokens source
    refine ⟨front, Scan.endToken source, hscan, hkinds, rfl, rfl, ?_⟩
    rw [Scan.endToken_span]
    exact ⟨rfl, rfl⟩
  case lexemes =>
    intro t ht
    rcases List.mem_append.mp ht with ht | ht
    · obtain ⟨s, hs, ht⟩ := List.mem_filterMap.mp ht
      obtain ⟨hspan, hlexeme, -⟩ := Scan.span_of_token? ht
      rw [hspan, hlexeme]
      exact Scan.text_of_mem_segments hs
    · obtain rfl := List.mem_singleton.mp ht
      rw [Scan.endToken_span]
      simp [Span.slice, Position.ofOffset, Scan.endToken]
  case nonempty =>
    intro range hrange
    obtain ⟨s, hs, -, rfl⟩ := Scan.mem_marked_scan.mp hrange
    exact Scan.start_lt_stop_of_mem_segments hs
  case disjoint => exact Scan.marked_pairwise_before source
  case skipped =>
    intro i b hb hi
    exact Scan.skipped_of_not_covers hb hi
  case positions =>
    intro range hrange p hp
    exact Scan.position_of_mem_scan hrange hp
  case lines =>
    constructor
    · intro t ht
      rcases List.mem_append.mp ht with ht | ht
      · obtain ⟨s, hs, ht⟩ := List.mem_filterMap.mp ht
        obtain ⟨hspan, -, hline, -⟩ := Scan.span_of_token? ht
        rw [hspan, hline]
      · obtain rfl := List.mem_singleton.mp ht
        rfl
    · intro d hd
      obtain ⟨s, hs, hd⟩ := List.mem_filterMap.mp hd
      obtain ⟨hspan, hline, -⟩ := Scan.span_of_diagnostic? hd
      rw [hspan, hline]

/-- A string over two lines, a comment, a stray byte and an unfinished string. -/
example :
    let (tokens, problems) := scan (utf8 "a\"\n\" // b\n" ++ 0xff :: utf8 " \"c")
    (tokens.map Token.span ++ problems.map Diagnostic.span).map
        (fun s => (s.start.offset, s.stop.offset, s.stop.line, s.stop.column)) =
      [(0, 1, 1, 2), (1, 4, 2, 2), (14, 14, 3, 5), (10, 11, 3, 2), (12, 14, 3, 5)] := by
  decide +kernel

end Lox
