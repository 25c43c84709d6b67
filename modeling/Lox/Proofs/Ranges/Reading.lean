import Lox.Proofs.Parser.Agreement
import Lox.Proofs.Parser.Ladder
import Lox.Proofs.Parser.Progress
import Lox.Proofs.Ranges.Nesting

/-!
What is read nests.

A cursor has reached the end of the token before it, and all tokens to come stand after that
offset.  Reading never goes back.  So what is read between two cursors stands between the
offsets they have reached, and the parts of a node, which are read one after the other, stand
one after the other.  Nothing of this depends on the absence of problems.
-/

namespace Lox

/-! ## Tokens of a source -/

theorem Scan.standsIn_of_mem_segments {source : Bytes} {s : Segment} (hs : s ∈ segments source) :
    s.span.StandsIn source := by
  have place {p : Position} (hp : p ∈ [s.span.start, s.span.stop]) : p.StandsIn source := by
    obtain ⟨hfaithful, hle⟩ := position_of_mem_segments hs hp
    have hoffset : p.offset = p.offset.toNat := congrArg Position.offset hfaithful
    exact ⟨by omega, by omega, hfaithful⟩
  exact ⟨place (by simp), place (by simp), Int.le_of_lt (start_lt_stop_of_mem_segments hs)⟩

theorem Scan.endToken_standsIn (source : Bytes) : (endToken source).span.StandsIn source := by
  have hend : (Position.ofOffset source source.length).StandsIn source :=
    ⟨by simp [Position.ofOffset], by simp [Position.ofOffset], by simp [Position.ofOffset]⟩
  rw [endToken_span]
  exact ⟨hend, hend, Int.le_refl _⟩

theorem standsIn_of_mem_scan {source : Bytes} {t : Token} (h : t ∈ (scan source).1) :
    t.span.StandsIn source := by
  rcases List.mem_append.mp h with h | h
  · obtain ⟨s, hs, ht⟩ := List.mem_filterMap.mp h
    rw [(Scan.span_of_token? ht).1]
    exact Scan.standsIn_of_mem_segments hs
  · obtain rfl := List.mem_singleton.mp h
    exact Scan.endToken_standsIn source

theorem start_lt_stop_of_mem_scan {source : Bytes} {t : Token} (h : t ∈ (scan source).1)
    (hkind : t.kind ≠ .eof) : t.span.start.offset < t.span.stop.offset := by
  rcases List.mem_append.mp h with h | h
  · obtain ⟨s, hs, ht⟩ := List.mem_filterMap.mp h
    rw [(Scan.span_of_token? ht).1]
    exact Scan.start_lt_stop_of_mem_segments hs
  · obtain rfl := List.mem_singleton.mp h
    exact absurd rfl hkind

theorem scan_row (source : Bytes) :
    Span.Row source 0 source.length ((scan source).1.map Token.span) where
  le := Int.natCast_nonneg _
  standing := by
    intro s hs
    obtain ⟨t, ht, rfl⟩ := List.mem_map.mp hs
    exact standsIn_of_mem_scan ht
  between := by
    intro s hs
    obtain ⟨t, ht, rfl⟩ := List.mem_map.mp hs
    have hstands := standsIn_of_mem_scan ht
    exact ⟨hstands.start.nonneg, hstands.stop.le⟩
  ordered := by
    have hscan : (scan source).1 =
        (Scan.segments source).filterMap Scan.Segment.token? ++ [Scan.endToken source] := rfl
    rw [hscan, List.map_append]
    refine List.pairwise_append.mpr ⟨?_, List.pairwise_singleton _ _, ?_⟩
    · exact Scan.pairwise_before_of_spans (fun _ _ h => (Scan.span_of_token? h).1) source
    · intro a ha b hb
      obtain ⟨t, ht, rfl⟩ := List.mem_map.mp ha
      obtain rfl : b = (Scan.endToken source).span := by simpa using hb
      rw [Scan.endToken_span]
      exact (standsIn_of_mem_scan (List.mem_append_left _ ht)).stop.le

namespace Parser

open Lox.Span (Row)

/-! ## Cursors in a source -/

def Cursor.reached (c : Cursor) : Int := (c.previous.map fun t => t.span.stop.offset).getD 0

/-- All tokens to come stand after what is reached, and all problems stand in the source. -/
structure Cursor.Placed (source : Bytes) (c : Cursor) : Prop where
  rest : c.rest ⊆ (scan source).1
  previous : ∀ t ∈ c.previous, t ∈ (scan source).1
  ahead : Row source c.reached source.length (c.rest.map Token.span)
  closed : c.Closed
  reported : ∀ d ∈ c.reported, d.span.StandsIn source

structure Takes (source : Bytes) (c : Cursor) (t : Token) (c' : Cursor) : Prop where
  mem : t ∈ (scan source).1
  nonempty : t.span.start.offset < t.span.stop.offset
  after : c.reached ≤ t.span.start.offset
  previous : c'.previous = some t

namespace Takes

variable {source : Bytes} {c c' : Cursor} {t : Token}

theorem standing (h : Takes source c t c') : t.span.StandsIn source :=
  standsIn_of_mem_scan h.mem

theorem reached (h : Takes source c t c') : c'.reached = t.span.stop.offset := by
  simp [Cursor.reached, h.previous]

theorem before (h : Takes source c t c') : c'.before = t := by
  simp [Cursor.before, h.previous]

theorem row (h : Takes source c t c') : Row source c.reached c'.reached [t.span] :=
  Span.row_singleton h.standing h.after (Int.le_of_eq h.reached.symm)

theorem le (h : Takes source c t c') : c.reached ≤ c'.reached := h.row.le

theorem start_lt (h : Takes source c t c') : t.span.start.offset < c'.reached := by
  rw [h.reached]
  exact h.nonempty

theorem start_le (h : Takes source c t c') : t.span.start.offset ≤ c'.reached :=
  Int.le_of_lt h.start_lt

theorem pos (h : Takes source c t c') : 0 < c'.reached :=
  Int.lt_of_le_of_lt h.standing.start.nonneg h.start_lt

end Takes

namespace Cursor.Placed

variable {source : Bytes} {c : Cursor}

theorem rest_eq (h : c.Placed source) : ∃ rest, c.rest = c.peek :: rest := by
  obtain ⟨e, he, -⟩ := h.closed
  obtain ⟨t, rest, hrest⟩ := List.exists_cons_of_ne_nil (List.ne_nil_of_mem he)
  exact ⟨rest, by simp [Cursor.peek, hrest]⟩

theorem peek_mem (h : c.Placed source) : c.peek ∈ (scan source).1 := by
  obtain ⟨rest, hrest⟩ := h.rest_eq
  exact h.rest (by rw [hrest]; exact List.mem_cons_self)

theorem reached_le_peek (h : c.Placed source) : c.reached ≤ c.peek.span.start.offset := by
  obtain ⟨rest, hrest⟩ := h.rest_eq
  exact (h.ahead.between c.peek.span (by rw [hrest]; exact List.mem_cons_self)).1

theorem advance (h : c.Placed source) (hkind : c.kind ≠ .eof) :
    c.advance.Placed source ∧ Takes source c c.peek c.advance := by
  obtain ⟨rest, hrest⟩ := h.rest_eq
  have hadvance : c.advance = { c with previous := some c.peek, rest } := by
    unfold Cursor.advance
    rw [hrest]
    exact if_neg hkind
  have htakes : Takes source c c.peek c.advance :=
    ⟨h.peek_mem, start_lt_stop_of_mem_scan h.peek_mem hkind, h.reached_le_peek, by rw [hadvance]⟩
  have hbound := h.ahead.between
  have hordered := h.ahead.ordered
  rw [hrest, List.map_cons, List.pairwise_cons] at hordered
  simp only [hrest, List.map_cons, List.mem_cons, forall_eq_or_imp] at hbound
  have hclosed := (Cursor.remaining_advance h.closed hkind).1
  have hreached := htakes.reached
  rw [hadvance] at hclosed hreached htakes ⊢
  refine ⟨⟨?_, ?_, ⟨?_, ?_, ?_, hordered.2⟩, hclosed, h.reported⟩, htakes⟩
  · exact fun t ht => h.rest (by rw [hrest]; exact List.mem_cons_of_mem _ ht)
  · rintro t ⟨⟩
    exact h.peek_mem
  · rw [hreached]
    exact hbound.1.2
  · exact fun s hs => h.ahead.standing s (by
      rw [hrest, List.map_cons]
      exact List.mem_cons_of_mem _ hs)
  · intro s hs
    rw [hreached]
    exact ⟨hordered.1 s hs, (hbound.2 s hs).2⟩

theorem advance_le (h : c.Placed source) :
    c.advance.Placed source ∧ c.reached ≤ c.advance.reached := by
  by_cases hkind : c.kind = .eof
  · rw [(Cursor.remaining_of_eof h.closed hkind).2]
    exact ⟨h, Int.le_refl _⟩
  · obtain ⟨hplaced, htakes⟩ := h.advance hkind
    exact ⟨hplaced, htakes.le⟩

theorem skipped (h : c.Placed source) :
    c.skipped.Placed source ∧ c.reached ≤ c.skipped.reached := by
  induction hlength : c.rest.length using Nat.strongRecOn generalizing c with
  | ind length ih =>
      by_cases hstops : c.Stops
      · rw [Cursor.skipped_of_stops hstops]
        exact ⟨h, Int.le_refl _⟩
      · obtain ⟨hplaced, hle⟩ := h.advance_le
        have hlt := Cursor.rest_advance_lt hstops
        obtain ⟨hskipped, hle'⟩ := ih _ (by omega) hplaced rfl
        rw [Cursor.skipped_of_not_stops hstops]
        exact ⟨hskipped, Int.le_trans hle hle'⟩

theorem synchronize (h : c.Placed source) :
    (synchronize c).Placed source ∧ c.reached ≤ (synchronize c).reached := by
  obtain ⟨hplaced, hle⟩ := h.advance_le
  obtain ⟨hskipped, hle'⟩ := hplaced.skipped
  exact ⟨hskipped, Int.le_trans hle hle'⟩

theorem report (h : c.Placed source) (problem : Problem) {t : Token} (ht : t ∈ (scan source).1) :
    (c.report problem t).Placed source := by
  refine ⟨h.rest, h.previous, h.ahead, h.closed, ?_⟩
  intro d hd
  rcases List.mem_append.mp hd with hd | hd
  · exact h.reported d hd
  · obtain rfl := List.mem_singleton.mp hd
    exact standsIn_of_mem_scan ht

theorem start (source : Bytes) : (Cursor.start (scan source).1).Placed source where
  rest := fun _ ht => ht
  previous := by simp [Cursor.start]
  ahead := scan_row source
  closed := by
    obtain ⟨tokens, hscan, -⟩ := scan_tokens source
    exact ⟨Scan.endToken source, by simp [Cursor.start, hscan], rfl⟩
  reported := by simp [Cursor.start]

end Cursor.Placed

/-! ## Steps -/

/-- From `c` the reading goes on in the source, and `Q` holds of what it gives and where it ends. -/
def Passes (source : Bytes) (c : Cursor) (p : Parse α) (Q : α → Cursor → Prop) : Prop :=
  c.Placed source → (p c).2.Placed source ∧ c.reached ≤ (p c).2.reached ∧
    ∀ v, (p c).1 = .ok v → Q v (p c).2

namespace Passes

variable {source : Bytes} {c : Cursor} {α β : Type} {p q : Parse α} {f : α → Parse β} {k : Kind}
variable {Q : α → Cursor → Prop} {R : β → Cursor → Prop}

theorem imp {Q' : α → Cursor → Prop} (h : Passes source c p Q) (hQ : ∀ v c', Q v c' → Q' v c') :
    Passes source c p Q' := by
  intro hc
  obtain ⟨hplaced, hle, hvalue⟩ := h hc
  exact ⟨hplaced, hle, fun v hv => hQ v _ (hvalue v hv)⟩

theorem placed (h : c.Placed source → Passes source c p Q) : Passes source c p Q :=
  fun hc => h hc hc

theorem pure {v : α} (h : Q v c) : Passes source c (Pure.pure v) Q := by
  intro hc
  refine ⟨hc, Int.le_refl _, ?_⟩
  rintro _ ⟨⟩
  exact h

theorem outOfFuel : Passes source c (Parser.outOfFuel : Parse α) Q :=
  fun hc => ⟨hc, Int.le_refl _, by simp [Parser.outOfFuel]⟩

theorem bind (hp : Passes source c p Q)
    (hf : ∀ v c', c.reached ≤ c'.reached → Q v c' → Passes source c' (f v) R) :
    Passes source c (p >>= f) R := by
  intro hc
  obtain ⟨hplaced, hle, hvalue⟩ := hp hc
  change (Parse.bind p f c).2.Placed source ∧ c.reached ≤ (Parse.bind p f c).2.reached ∧
    ∀ w, (Parse.bind p f c).1 = .ok w → R w (Parse.bind p f c).2
  unfold Parse.bind
  rcases hrun : p c with ⟨reply, c'⟩
  rw [hrun] at hplaced hle hvalue
  cases reply with
  | ok v =>
      obtain ⟨hplaced', hle', hvalue'⟩ := hf v c' hle (hvalue v rfl) hplaced
      exact ⟨hplaced', Int.le_trans hle hle', hvalue'⟩
  | failed | outOfFuel => exact ⟨hplaced, hle, by simp⟩

theorem map {g : α → β} (hp : Passes source c p fun v c' => R (g v) c') :
    Passes source c (g <$> p) R :=
  hp.bind fun _ _ _ hv => pure hv

theorem ite {b : Prop} [Decidable b] (hp : b → Passes source c p Q)
    (hq : ¬b → Passes source c q Q) : Passes source c (if b then p else q) Q := by
  split
  · exact hp ‹_›
  · exact hq ‹_›

theorem iteBind {b : Prop} [Decidable b] (hp : b → Passes source c p Q)
    (hq : ¬b → Passes source c q Q)
    (hf : ∀ v c', c.reached ≤ c'.reached → Q v c' → Passes source c' (f v) R) :
    Passes source c (if b then p >>= f else q >>= f) R :=
  .ite (fun hb => (hp hb).bind hf) fun hb => (hq hb).bind hf

theorem peek {f : Token → Parse β} (h : Passes source c (f c.peek) R) :
    Passes source c (Parser.peek >>= f) R := h

theorem before {f : Token → Parse β} {c₀ : Cursor} {t : Token} (ht : Takes source c₀ t c)
    (h : Passes source c (f t) R) : Passes source c (Parser.before >>= f) R := by
  rw [← ht.before] at h
  exact h

theorem at? {f : Bool → Parse β} (h : Passes source c (f (c.kind = k)) R) :
    Passes source c (Parser.at? k >>= f) R := h

theorem previousEnd {f : Position → Parse β} (hpos : 0 < c.reached)
    (h : ∀ stop : Position, stop.StandsIn source → stop.offset = c.reached →
      Passes source c (f stop) R) :
    Passes source c (Parser.previousEnd >>= f) R := by
  apply placed
  intro hc
  obtain ⟨t, ht⟩ : ∃ t, c.previous = some t := by
    rw [← Option.isSome_iff_exists]
    by_contra hnone
    simp [Cursor.reached, Option.not_isSome_iff_eq_none.mp hnone] at hpos
  have hend : c.previousEnd = t.span.stop := by simp [Cursor.previousEnd, ht]
  apply h
  · rw [hend]
    exact (standsIn_of_mem_scan (hc.previous t ht)).stop
  · rw [hend]
    simp [Cursor.reached, ht]

theorem next (hkind : c.kind ≠ .eof) :
    Passes source c Parser.next fun t c' => t = c.peek ∧ Takes source c t c' := by
  intro hc
  obtain ⟨hplaced, htakes⟩ := hc.advance hkind
  refine ⟨hplaced, htakes.le, ?_⟩
  rintro _ ⟨⟩
  exact ⟨rfl, htakes⟩

theorem accept {f : Bool → Parse β} (hk : k ≠ .eof)
    (hfound : ∀ t c', t.kind = k → Takes source c t c' → Passes source c' (f true) R)
    (hother : Passes source c (f false) R) : Passes source c (Parser.accept k >>= f) R := by
  apply placed
  intro hc
  by_cases hkind : c.kind = k
  · have hne : c.kind ≠ .eof := hkind ▸ hk
    obtain ⟨hplaced, htakes⟩ := hc.advance hne
    have haccept : Passes source c (Parser.accept k) fun found c' =>
        found = true ∧ Takes source c c.peek c' := by
      intro _
      simp only [Parser.accept, hkind, if_true]
      refine ⟨hplaced, htakes.le, ?_⟩
      rintro _ ⟨⟩
      exact ⟨rfl, htakes⟩
    apply haccept.bind
    rintro _ c' - ⟨rfl, htakes'⟩
    exact hfound c.peek c' hkind htakes'
  · have haccept : Parser.accept k c = (.ok false, c) := by simp [Parser.accept, hkind]
    intro hc
    rw [bind_of_ok haccept]
    exact hother hc

theorem acceptBind (hk : k ≠ .eof)
    (hp : ∀ t c', t.kind = k → Takes source c t c' → Passes source c' p Q)
    (hq : Passes source c q Q)
    (hf : ∀ v c', c.reached ≤ c'.reached → Q v c' → Passes source c' (f v) R) :
    Passes source c (Parser.accept k >>= fun found => if found then p >>= f else q >>= f) R := by
  apply accept hk
  · intro t c' ht htakes
    exact (hp t c' ht htakes).bind fun v c'' hle => hf v c'' (Int.le_trans htakes.le hle)
  · exact hq.bind hf

theorem expect {message : String} (hk : k ≠ .eof) :
    Passes source c (Parser.expect k message) fun t c' =>
      t = c.peek ∧ Takes source c t c' := by
  intro hc
  unfold Parser.expect
  split
  · next hkind =>
      obtain ⟨hplaced, htakes⟩ := hc.advance (hkind ▸ hk)
      refine ⟨hplaced, htakes.le, ?_⟩
      rintro _ ⟨⟩
      exact ⟨rfl, htakes⟩
  · exact ⟨hc.report _ hc.peek_mem, Int.le_refl _, by simp⟩

theorem report {problem : Problem} {t : Token} (ht : c.Placed source → t ∈ (scan source).1) :
    Passes source c (Parser.report problem t) fun _ c' =>
      c'.reached = c.reached ∧ c'.peek = c.peek ∧ c'.previous = c.previous :=
  fun hc => ⟨hc.report problem (ht hc), Int.le_refl _, fun _ _ => ⟨rfl, rfl, rfl⟩⟩

theorem fail {problem : Problem} : Passes source c (Parser.fail problem c.peek : Parse α) Q :=
  fun hc => ⟨hc.report problem hc.peek_mem, Int.le_refl _, by simp [Parser.fail]⟩

theorem recovering {p : Parse Stmt} {Q : Stmt → Cursor → Prop} (h : Passes source c p Q) :
    Passes source c (Parser.recovering p) fun s c' => ∀ x ∈ s, Q x c' := by
  intro hc
  obtain ⟨hplaced, hle, hvalue⟩ := h hc
  unfold Parser.recovering
  rcases hrun : p c with ⟨reply, c'⟩
  rw [hrun] at hplaced hle hvalue
  cases reply with
  | ok s =>
      refine ⟨hplaced, hle, ?_⟩
      rintro _ ⟨⟩ x ⟨⟩
      exact hvalue s rfl
  | failed =>
      obtain ⟨hplaced', hle'⟩ := hplaced.synchronize
      refine ⟨hplaced', Int.le_trans hle hle', ?_⟩
      rintro _ ⟨⟩
      simp
  | outOfFuel => exact ⟨hplaced, hle, by simp⟩

end Passes

end Parser

end Lox
