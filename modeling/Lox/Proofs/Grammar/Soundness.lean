import Lox.Proofs.Grammar.Rules
import Lox.Proofs.Parser.Locality

/-!
What is read without problems is in the grammar.

A reading takes tokens off the front of those before the cursor.  The judgement `Reads`
says of the tokens taken, and of the value they give, what the grammar says.  It is about
readings that end without a problem reported; since no step forgets a problem, each part
of such a reading is one, and the rules compose from the last part to the first.
-/

namespace Lox.Parser

open Grammar

/-! ## Taking tokens -/

/-- From the first cursor to the second exactly the tokens `xs` are passed. -/
structure Took (c : Cursor) (xs : List Token) (c' : Cursor) : Prop where
  rest : c.rest = xs ++ c'.rest
  previous : c'.previous = xs.getLast?.or c.previous
  last : c'.last = c.last
  reported : c'.reported = c.reported
  proper : ∀ t ∈ xs, t.kind ≠ .eof

namespace Took

variable {c c₁ c₂ : Cursor} {t : Token} {xs ys : List Token}

theorem nil : Took c [] c :=
  ⟨rfl, rfl, rfl, rfl, by simp⟩

theorem append (h : Took c xs c₁) (h' : Took c₁ ys c₂) : Took c (xs ++ ys) c₂ where
  rest := by rw [h.rest, h'.rest, List.append_assoc]
  previous := by rw [h'.previous, h.previous, List.getLast?_append, Option.or_assoc]
  last := h'.last.trans h.last
  reported := h'.reported.trans h.reported
  proper := by
    intro t ht
    rcases List.mem_append.mp ht with ht | ht
    · exact h.proper t ht
    · exact h'.proper t ht

theorem advance {rest : List Token} (hrest : c.rest = t :: rest) (hkind : t.kind ≠ .eof) :
    Took c [t] c.advance := by
  have hadvance : c.advance = { c with previous := some t, rest } := by
    simp [Cursor.advance, hrest, hkind]
  rw [hadvance]
  exact ⟨hrest, rfl, rfl, rfl, by simpa using hkind⟩

theorem uncons (h : Took c (t :: xs) c₁) :
    c.peek = t ∧ c.advance.before = t ∧ Took c.advance xs c₁ := by
  have hkind : t.kind ≠ .eof := h.proper t (by simp)
  have hrest : c.rest = t :: (xs ++ c₁.rest) := h.rest
  have hadvance : c.advance = { c with previous := some t, rest := xs ++ c₁.rest } := by
    simp [Cursor.advance, hrest, hkind]
  refine ⟨by simp [Cursor.peek, hrest], by rw [hadvance]; rfl, ?_⟩
  · rw [hadvance]
    refine ⟨rfl, ?_, h.last, h.reported, fun x hx => h.proper x (by simp [hx])⟩
    rw [h.previous, List.getLast?_cons]
    cases xs.getLast? <;> rfl

theorem split (h : Took c (xs ++ ys) c₂) : ∃ c₁, Took c xs c₁ ∧ Took c₁ ys c₂ := by
  induction xs generalizing c with
  | nil => exact ⟨c, nil, h⟩
  | cons t xs ih =>
      obtain ⟨-, -, htail⟩ := h.uncons
      obtain ⟨c₁, hxs, hys⟩ := ih htail
      have hkind : t.kind ≠ .eof := h.proper t (by simp)
      exact ⟨c₁, (advance h.rest hkind).append hxs, hys⟩

theorem previousEnd (h : Took c xs c₁) (hxs : xs ≠ []) : c₁.previousEnd = (covering xs).stop := by
  unfold Cursor.previousEnd covering
  rw [h.previous, List.getLast?_eq_some_getLast hxs]
  rfl

end Took

/-! ## Readings -/

structure Cursor.Clean (c : Cursor) : Prop where
  reported : c.reported = []
  last : c.last.kind = .eof

theorem Took.clean {c c' : Cursor} {xs : List Token} (h : Took c xs c') (hclean : c'.Clean) :
    c.Clean :=
  ⟨h.reported ▸ hclean.reported, h.last ▸ hclean.last⟩

theorem Took.next {c c' : Cursor} {ys : List Token} (h : Took c.advance ys c')
    (hclean : c'.Clean) (hkind : c.kind ≠ .eof) :
    c.advance.before = c.peek ∧ Took c (c.peek :: ys) c' := by
  cases hrest : c.rest with
  | nil =>
      have hstay : c.advance = c := by simp [Cursor.advance, hrest]
      rw [hstay] at h
      exact absurd (by simpa [Cursor.kind, Cursor.peek, hrest] using (h.clean hclean).last) hkind
  | cons t rest =>
      have hpeek : c.peek = t := by simp [Cursor.peek, hrest]
      have htook := Took.advance hrest (by rw [← hpeek]; exact hkind)
      rw [hpeek]
      constructor
      · simp [Cursor.before, htook.previous]
      · exact htook.append h

theorem choice_bind {α β : Type} (a : Parse Bool) (p q : Parse α) (f : α → Parse β) :
    (a >>= fun found => if found then p >>= f else q >>= f) =
      (a >>= fun found => if found then p else q) >>= f := by
  have hbranches : (fun found : Bool => if found then p >>= f else q >>= f) =
      fun found => (if found then p else q) >>= f := by
    funext found
    cases found <;> rfl
  funext c
  rw [bind_assoc, hbranches]

/-- `R` relates the start of a reading, the tokens taken, the value they give and the end. -/
def Reads (p : Parse α) (R : Cursor → List Token → α → Cursor → Prop) : Prop :=
  ∀ c v c', p c = (.ok v, c') → c'.Clean → ∃ xs, Took c xs c' ∧ R c xs v c'

namespace Reads

variable {α β : Type} {p q : Parse α} {f : α → Parse β} {k : Kind}
variable {Q : Cursor → List Token → α → Cursor → Prop}
variable {R : Cursor → List Token → β → Cursor → Prop}

theorem imp {Q' : Cursor → List Token → α → Cursor → Prop} (h : Reads p Q)
    (hQ : ∀ c xs v c', Q c xs v c' → Q' c xs v c') : Reads p Q' := by
  intro c v c' hrun hclean
  obtain ⟨xs, htook, hq⟩ := h c v c' hrun hclean
  exact ⟨xs, htook, hQ c xs v c' hq⟩

theorem and_took (h : Reads p Q) : Reads p fun c xs v c' => Took c xs c' ∧ Q c xs v c' := by
  intro c v c' hrun hclean
  obtain ⟨xs, htook, hq⟩ := h c v c' hrun hclean
  exact ⟨xs, htook, htook, hq⟩

/-- The whole of what was taken is at hand where the value is given. -/
theorem took (h : Reads p fun c xs v c' => Took c xs c' → Q c xs v c') : Reads p Q := by
  intro c v c' hrun hclean
  obtain ⟨xs, htook, hq⟩ := h c v c' hrun hclean
  exact ⟨xs, htook, hq htook⟩

theorem bind (hp : Reads p Q)
    (hf : ∀ v, Reads (f v) fun c₁ ys w c₂ => ∀ c xs, Q c xs v c₁ → R c (xs ++ ys) w c₂) :
    Reads (p >>= f) R := by
  intro c w c₂ hrun hclean
  obtain ⟨v, c₁, hp₁, hf₁⟩ := bind_eq_ok hrun
  obtain ⟨ys, hys, hr⟩ := hf v c₁ w c₂ hf₁ hclean
  obtain ⟨xs, hxs, hq⟩ := hp c v c₁ hp₁ (hys.clean hclean)
  exact ⟨xs ++ ys, hxs.append hys, hr c xs hq⟩

theorem pure {v : α} (h : ∀ c, Q c [] v c) : Reads (Pure.pure v) Q := by
  rintro c v c' ⟨⟩ -
  exact ⟨[], .nil, h c⟩

theorem given (hp : Reads p Q) :
    Reads (some <$> p) fun c xs v c' => ∃ e, v = some e ∧ Q c xs e c' := by
  intro c w c' hrun hclean
  obtain ⟨v, c₁, hp₁, ⟨⟩⟩ := bind_eq_ok (f := fun v => Pure.pure (some v)) hrun
  obtain ⟨xs, htook, hq⟩ := hp c v c' hp₁ hclean
  exact ⟨xs, htook, v, rfl, hq⟩

theorem ite {b : Prop} [Decidable b] (hp : b → Reads p Q) (hq : ¬b → Reads q Q) :
    Reads (if b then p else q) Q := by
  split
  · exact hp ‹_›
  · exact hq ‹_›

theorem outOfFuel : Reads (Parser.outOfFuel : Parse α) Q := by
  rintro c v c' ⟨⟩

theorem fail (problem : Problem) (t : Token) : Reads (Parser.fail problem t : Parse α) Q := by
  rintro c v c' ⟨⟩

theorem report {f : Unit → Parse β} {problem : Problem} {t : Token} {S : _}
    (hf : Reads (f ()) S) : Reads (Parser.report problem t >>= f) R := by
  intro c w c' hrun hclean
  obtain ⟨u, c₁, ⟨⟩, hf₁⟩ := bind_eq_ok hrun
  obtain ⟨ys, hys, -⟩ := hf _ w c' hf₁ hclean
  simpa [Cursor.report] using (hys.clean hclean).reported

theorem peek {f : Token → Parse β}
    (hf : ∀ t, Reads (f t) fun c ys w c' => c.peek = t → R c ys w c') :
    Reads (Parser.peek >>= f) R := by
  intro c w c' hrun hclean
  obtain ⟨t, c₁, ⟨⟩, hf₁⟩ := bind_eq_ok hrun
  obtain ⟨ys, hys, hr⟩ := hf _ c w c' hf₁ hclean
  exact ⟨ys, hys, hr rfl⟩

theorem before {f : Token → Parse β}
    (hf : ∀ t, Reads (f t) fun c ys w c' => c.before = t → R c ys w c') :
    Reads (Parser.before >>= f) R := by
  intro c w c' hrun hclean
  obtain ⟨t, c₁, ⟨⟩, hf₁⟩ := bind_eq_ok hrun
  obtain ⟨ys, hys, hr⟩ := hf _ c w c' hf₁ hclean
  exact ⟨ys, hys, hr rfl⟩

theorem previousEnd {f : Position → Parse β}
    (hf : ∀ stop, Reads (f stop) fun c ys w c' => c.previousEnd = stop → R c ys w c') :
    Reads (Parser.previousEnd >>= f) R := by
  intro c w c' hrun hclean
  obtain ⟨t, c₁, ⟨⟩, hf₁⟩ := bind_eq_ok hrun
  obtain ⟨ys, hys, hr⟩ := hf _ c w c' hf₁ hclean
  exact ⟨ys, hys, hr rfl⟩

theorem next {f : Token → Parse β} (hend : ∀ c ys w c', c.kind = .eof → R c ys w c')
    (hf : ∀ t, Reads (f t) fun _ ys w c₂ => ∀ c, c.peek = t → R c (t :: ys) w c₂) :
    Reads (Parser.next >>= f) R := by
  intro c w c' hrun hclean
  obtain ⟨t, c₁, ⟨⟩, hf₁⟩ := bind_eq_ok hrun
  obtain ⟨ys, hys, hr⟩ := hf _ c.advance w c' hf₁ hclean
  by_cases hkind : c.kind = .eof
  · have hstay : c.advance = c := by
      unfold Cursor.advance
      split
      · rfl
      · next t rest hrest =>
          have ht : t.kind = .eof := by simpa [Cursor.kind, Cursor.peek, hrest] using hkind
          simp [ht]
    rw [hstay] at hys
    exact ⟨ys, hys, hend c ys w c' hkind⟩
  · exact ⟨c.peek :: ys, (hys.next hclean hkind).2, hr c rfl⟩

theorem skip {p : Parse β} {t : Token} (hkind : t.kind ≠ .eof)
    (hp : Reads p fun _ ys w c₂ => ∀ c, R c (t :: ys) w c₂) :
    Reads (Parser.next >>= fun _ => p) fun c ys w c' => c.peek = t → R c ys w c' := by
  apply next
  · intro c ys w c' hend hpeek
    exact absurd (by rw [← hpeek]; exact hend) hkind
  · intro t'
    apply hp.imp
    intro _ ys w c₂ hr c hpeek' hpeek
    rw [← hpeek', hpeek]
    exact hr c

theorem expect {f : Token → Parse β} {message : String} (hk : k ≠ .eof)
    (hf : ∀ t, Reads (f t) fun _ ys w c₂ => ∀ c, t.kind = k → R c (t :: ys) w c₂) :
    Reads (Parser.expect k message >>= f) R := by
  intro c w c' hrun hclean
  obtain ⟨t, c₁, hexpect, hf₁⟩ := bind_eq_ok hrun
  unfold Parser.expect at hexpect
  split at hexpect
  · next hkind =>
      cases hexpect
      obtain ⟨ys, hys, hr⟩ := hf _ _ w c' hf₁ hclean
      exact ⟨c.peek :: ys, (hys.next hclean (hkind ▸ hk)).2, hr c hkind⟩
  · cases hexpect

theorem accept {p q : Parse β} (hk : k ≠ .eof)
    (hp : Reads p fun c₁ ys w c₂ => ∀ c t, c.peek = t → t.kind = k → c₁.before = t →
      R c (t :: ys) w c₂)
    (hq : Reads q fun c ys w c' => c.kind ≠ k → R c ys w c') :
    Reads (Parser.accept k >>= fun found => if found then p else q) R := by
  intro c w c' hrun hclean
  by_cases hkind : c.kind = k
  · have haccept : Parser.accept k c = (.ok true, c.advance) := by simp [Parser.accept, hkind]
    rw [bind_of_ok haccept] at hrun
    obtain ⟨ys, hys, hr⟩ := hp _ w c' hrun hclean
    obtain ⟨hbefore, htook⟩ := hys.next hclean (hkind ▸ hk)
    exact ⟨c.peek :: ys, htook, hr c c.peek rfl hkind hbefore⟩
  · have haccept : Parser.accept k c = (.ok false, c) := by simp [Parser.accept, hkind]
    rw [bind_of_ok haccept] at hrun
    obtain ⟨ys, hys, hr⟩ := hq c w c' hrun hclean
    exact ⟨ys, hys, hr hkind⟩

theorem look {f : Bool → Parse β}
    (hf : ∀ found, Reads (f found) fun c ys w c' => decide (c.kind = k) = found → R c ys w c') :
    Reads (Parser.at? k >>= f) R := by
  intro c w c' hrun hclean
  obtain ⟨found, c₁, ⟨⟩, hf₁⟩ := bind_eq_ok hrun
  obtain ⟨ys, hys, hr⟩ := hf _ c w c' hf₁ hclean
  exact ⟨ys, hys, hr rfl⟩

theorem at? {p q : Parse β} (hp : Reads p R) (hq : Reads q R) :
    Reads (Parser.at? k >>= fun found => if found then p else q) R := by
  apply look
  intro found
  exact ite (fun _ => hp.imp fun _ _ _ _ h _ => h) fun _ => hq.imp fun _ _ _ _ h _ => h

theorem choice {a : Parse Bool} (h : Reads (a >>= fun found => if found then p else q) Q)
    (hf : ∀ v, Reads (f v) fun c₁ ys w c₂ => ∀ c xs, Q c xs v c₁ → R c (xs ++ ys) w c₂) :
    Reads (a >>= fun found => if found then p >>= f else q >>= f) R := by
  rw [choice_bind]
  exact h.bind hf

theorem recovering {p : Parse Stmt} {Q : Cursor → List Token → Stmt → Cursor → Prop}
    (hp : Reads p Q) (hhonest : Honest p) :
    Reads (Parser.recovering p) fun c xs first c' => ∃ s, first = some s ∧ Q c xs s c' := by
  intro c first c' hrun hclean
  unfold Parser.recovering at hrun
  rcases hpc : p c with ⟨reply, c₁⟩
  rw [hpc] at hrun
  cases reply with
  | ok s =>
      cases hrun
      obtain ⟨xs, htook, hq⟩ := hp c s c' hpc hclean
      exact ⟨xs, htook, s, rfl, hq⟩
  | failed =>
      cases hrun
      have hfails := hhonest.fails c (by rw [hpc])
      rw [hpc] at hfails
      exact absurd (by simpa [synchronize] using hclean.reported) hfails
  | outOfFuel => cases hrun

theorem closing {g : Position → β} {message : String} (hk : k ≠ .eof)
    (h : ∀ c t c', t.kind = k → R c [t] (g t.span.stop) c') :
    Reads (Parser.expect k message >>= fun _ => Parser.previousEnd >>= fun stop =>
      Pure.pure (g stop)) R := by
  apply took
  apply expect hk
  intro t
  apply previousEnd
  intro stop
  apply pure
  intro c₁ hstop c hkind htook
  have hend : c₁.previousEnd = t.span.stop := htook.previousEnd (by simp)
  rw [← hstop, hend]
  exact h c t c₁ hkind

end Reads

/-! ## Operators -/

theorem bindingPower_le (k : Kind) : bindingPower k ≤ 80 := by
  cases k <;> decide

def joining (k : Kind) : Span → Token → Expr → Expr → Expr :=
  if k = .andKw ∨ k = .orKw then .logical else .binary

theorem exists_level {k : Kind} (hpos : 0 < bindingPower k) (hlt : bindingPower k < 80) :
    ∃ level next : Level, k ∈ level.operators ∧ level.tighter? = some next ∧
      level.power = bindingPower k ∧ level.power ≤ 60 ∧ level.node = joining k := by
  cases k with
  | orKw => exact ⟨.disjunction, .conjunction, by decide, rfl, rfl, by decide, rfl⟩
  | andKw => exact ⟨.conjunction, .equality, by decide, rfl, rfl, by decide, rfl⟩
  | equalEqual | bangEqual => exact ⟨.equality, .comparison, by decide, rfl, rfl, by decide, rfl⟩
  | less | lessEqual | greater | greaterEqual =>
      exact ⟨.comparison, .term, by decide, rfl, rfl, by decide, rfl⟩
  | plus | minus => exact ⟨.term, .factor, by decide, rfl, rfl, by decide, rfl⟩
  | star | slash => exact ⟨.factor, .unary, by decide, rfl, rfl, by decide, rfl⟩
  | leftParen | dot => simp [bindingPower] at hlt
  | _ => simp [bindingPower] at hpos

/-- An operand of operators that bind tighter than `power` may be a phrase of the level. -/
def Fits (power : Nat) (level : Level) : Prop := power < level.power ∨ 60 < level.power

def Operation (power : Nat) (xs : List Token) (e : Expr) (c : Cursor) : Prop :=
  ∃ level, Fits power level ∧ bindingPower c.kind ≤ power ∧ Phrase level xs e

/-- One operator takes the phrase before it and an operand to the level of the operator. -/
theorem join_operation {level : Level} {operator : Token} {xs ys : List Token}
    {left right : Expr} {c : Cursor} (hpos : 0 < bindingPower operator.kind)
    (hlt : bindingPower operator.kind < 80) (hle : bindingPower operator.kind ≤ level.power)
    (hleft : Phrase level xs left)
    (hright : Operation (bindingPower operator.kind) ys right c) :
    ∃ level' : Level, level'.power = bindingPower operator.kind ∧
      bindingPower c.kind ≤ level'.power ∧
      Phrase level' (xs ++ operator :: ys)
        (joining operator.kind ⟨left.span.start, right.span.stop⟩ operator left right) := by
  obtain ⟨level', next, hmem, htighter, hpower, hbound, hnode⟩ := exists_level hpos hlt
  obtain ⟨tight, hfits, hstops, hright⟩ := hright
  have htight : level'.power < tight.power := by
    rcases hfits with hfits | hfits <;> omega
  obtain ⟨next', hnext', hnext⟩ := Level.exists_tighter htight
  obtain rfl : next' = next := Option.some.inj (hnext'.symm.trans htighter)
  have hspan : covering (xs ++ operator :: ys) = ⟨left.span.start, right.span.stop⟩ := by
    simp [hleft.span, hright.span, hleft.ne_nil, hright.ne_nil]
  refine ⟨level', hpower, by omega, ?_⟩
  rw [← hspan, ← hnode]
  exact .join hmem htighter (hleft.loosen (by omega)) (hright.loosen hnext)

/-! ## Lists with commas -/

def Items {α : Type} (P : List Token → α → Prop) (count : Nat) (xs : List Token)
    (values : List α) : Prop :=
  ∃ pieces : List (List Token × α), pieces ≠ [] ∧ (∀ piece ∈ pieces, P piece.1 piece.2) ∧
    Separated (pieces.map Prod.fst) xs ∧ pieces.map Prod.snd = values ∧
    count + pieces.length ≤ limit

section

variable {α : Type} {P : List Token → α → Prop} {count : Nat}

theorem Reads.counted {problem : Problem} {items : Parse (List α)}
    (h : Reads items fun _ xs values _ => count < limit → Items P count xs values) :
    Reads (counted problem count items) fun _ xs values _ => Items P count xs values := by
  unfold Parser.counted
  apply Reads.ite
  · intro _
    exact Reads.peek fun _ => Reads.report h
  · intro hroom
    exact h.imp fun _ _ _ _ hitems => hitems (by simpa [argumentLimit, limit] using hroom)

theorem Reads.separated {item : Parse α} {more : Parse (List α)}
    (hitem : Reads item fun _ xs v _ => P xs v)
    (hmore : Reads more fun _ xs values _ => Items P (count + 1) xs values) :
    Reads (separated item more) fun _ xs values _ => count < limit → Items P count xs values := by
  unfold Parser.separated
  apply hitem.bind
  intro first
  apply Reads.accept (by decide)
  · apply hmore.bind
    intro rest
    apply Reads.pure
    intro _ c₁ zs hrest c comma _ hcomma _ c₀ ys hfirst _
    obtain ⟨pieces, hne, hpieces, hseparated, rfl, hlength⟩ := hrest
    obtain ⟨piece, pieces, rfl⟩ := List.exists_cons_of_ne_nil hne
    refine ⟨(ys, first) :: piece :: pieces, by simp, ?_, ?_, rfl, ?_⟩
    · simpa [hfirst] using hpieces
    · rw [List.append_nil]
      exact .more hcomma hseparated
    · simp only [List.length_cons] at hlength ⊢
      omega
  · apply Reads.pure
    intro c _ c₀ ys hfirst hcount
    refine ⟨[(ys, first)], by simp, by simpa using hfirst, ?_, rfl, hcount⟩
    rw [List.append_nil]
    exact .one ys

end

/-! ## Expressions -/

def Arguments (count : Nat) (xs : List Token) (values : List Expr) : Prop :=
  ∃ pieces : List (List Token × Expr), pieces ≠ [] ∧
    (∀ piece ∈ pieces, Phrase .assignment piece.1 piece.2) ∧
    Separated (pieces.map Prod.fst) xs ∧ pieces.map Prod.snd = values ∧
    count + pieces.length ≤ limit

def Listed (xs : List Token) (values : List Expr) : Prop :=
  xs = [] ∧ values = [] ∨ Arguments 0 xs values

theorem Listed.exists_pieces {xs : List Token} {values : List Expr} (h : Listed xs values) :
    ∃ pieces : List (List Token × Expr),
      (∀ piece ∈ pieces, Phrase .assignment piece.1 piece.2) ∧
      Separated (pieces.map Prod.fst) xs ∧ pieces.map Prod.snd = values ∧
      pieces.length ≤ limit := by
  rcases h with ⟨rfl, rfl⟩ | ⟨pieces, -, hpieces, hseparated, hvalues, hlength⟩
  · exact ⟨[], by simp, .none, rfl, by decide⟩
  · exact ⟨pieces, hpieces, hseparated, hvalues, by omega⟩

theorem join_sound {p : Parse Expr} {t : Token} {left : Expr}
    {node : Span → Token → Expr → Expr → Expr}
    (hp : Reads p fun _ ys e c' => Operation (bindingPower t.kind) ys e c')
    (hlt : bindingPower t.kind < 80) (hnode : joining t.kind = node) :
    Reads (p >>= fun right => pure (node ⟨left.span.start, right.span.stop⟩ t left right))
      fun _ ys e c' => ∀ c : Cursor, c.peek = t → ∀ (level : Level) xs,
        0 < bindingPower c.kind → bindingPower c.kind ≤ level.power → Phrase level xs left →
        ∃ level' : Level, level'.power = bindingPower c.kind ∧
          bindingPower c'.kind ≤ level'.power ∧ Phrase level' (xs ++ t :: ys) e := by
  apply hp.bind
  intro right
  apply Reads.pure
  intro c' _ ys hright c hpeek level xs hpos hle hleft
  rw [Cursor.kind, hpeek] at hpos hle ⊢
  rw [List.append_nil, ← hnode]
  exact join_operation hpos hlt hle hleft hright

theorem token_sound {t : Token} {e : Expr} (hkind : t.kind ≠ .eof)
    (h : Phrase .primary [t] e) :
    Reads (next >>= fun _ => pure e) fun c xs e c' => c.peek = t →
      ∃ level : Level, 60 < level.power ∧ bindingPower c'.kind ≤ level.power ∧
        Phrase level xs e := by
  apply Reads.skip hkind
  apply Reads.pure
  intro c' c
  exact ⟨.primary, by decide, Nat.le_trans (bindingPower_le _) (by decide), h⟩

mutual

theorem expression_sound (n : Nat) :
    Reads (expression n) fun _ xs e _ => Phrase .assignment xs e := by
  match n with
  | 0 => exact .outOfFuel
  | n + 1 =>
      unfold expression
      apply (operation_sound n 0).bind
      intro left
      apply Reads.accept (by decide)
      · apply Reads.before
        intro equals
        apply (expression_sound n).bind
        intro value
        dsimp only
        split
        · apply Reads.pure
          intro _ c₁ ys hvalue _ c t _ ht _ c₀ xs hleft
          obtain ⟨level, -, -, hleft⟩ := hleft
          obtain ⟨hname, rfl⟩ := hleft.eq_of_var
          have hassign := Phrase.assign hname ht hvalue
          simpa [hleft.span, hvalue.span, hvalue.ne_nil] using hassign
        · apply Reads.pure
          intro _ c₁ ys hvalue _ c t _ ht _ c₀ xs hleft
          obtain ⟨level, -, -, hleft⟩ := hleft
          have hspan := hleft.span
          obtain ⟨dot, object, rfl, hdot, hname, hobject⟩ := hleft.eq_of_get
          have hset := Phrase.set hobject hdot hname ht hvalue
          simpa [hspan, hvalue.span, hobject.ne_nil, hvalue.ne_nil] using hset
        · -- a target of another form is reported
          apply Reads.report (S := fun _ _ _ _ => True)
          exact Reads.pure fun _ => trivial
      · apply Reads.pure
        intro c _ c xs hleft
        obtain ⟨level, -, -, hleft⟩ := hleft
        rw [List.append_nil]
        exact hleft.loosen (Nat.zero_le _)

theorem operation_sound (n power : Nat) :
    Reads (operation n power) fun _ xs e c' => Operation power xs e c' := by
  match n with
  | 0 => exact .outOfFuel
  | n + 1 =>
      unfold operation
      apply (operand_sound n).bind
      intro left
      apply (operations_sound n power left).imp
      intro c₁ ys e c' hrest c xs hleft
      obtain ⟨level, htight, hstops, hleft⟩ := hleft
      exact hrest level xs (.inr htight) hstops hleft

theorem operations_sound (n power : Nat) (left : Expr) :
    Reads (operations n power left) fun c ys e c' => ∀ level xs, Fits power level →
      bindingPower c.kind ≤ level.power → Phrase level xs left →
      Operation power (xs ++ ys) e c' := by
  match n with
  | 0 => exact .outOfFuel
  | n + 1 =>
      unfold operations
      apply Reads.peek
      intro t
      apply Reads.ite
      · intro hlt
        apply (operator_sound n left).bind
        intro left'
        apply (operations_sound n power left').imp
        intro c₁ zs e c' hrest c ys hoperator hpeek level xs hfits hstops hleft
        have hpower : power < bindingPower c.kind := by
          rw [Cursor.kind, hpeek]
          exact hlt
        obtain ⟨level', hlevel, hstops', hleft'⟩ :=
          hoperator level xs (by omega) hstops hleft
        rw [← List.append_assoc]
        exact hrest level' (xs ++ ys) (.inl (by omega)) hstops' hleft'
      · intro hge
        apply Reads.pure
        intro c hpeek level xs hfits hstops hleft
        rw [List.append_nil]
        exact ⟨level, hfits, by rw [Cursor.kind, hpeek]; omega, hleft⟩

theorem operand_sound (n : Nat) :
    Reads (operand n) fun _ xs e c' => ∃ level : Level, 60 < level.power ∧
      bindingPower c'.kind ≤ level.power ∧ Phrase level xs e := by
  match n with
  | 0 => exact .outOfFuel
  | n + 1 =>
      unfold operand
      apply Reads.peek
      intro t
      split
      iterate 5
        next hkind =>
          apply token_sound (by simp [hkind]) (.constant _)
          simp [constant?, hkind]
      · next hkind => exact token_sound (by simp [hkind]) (.thisRef hkind)
      · next hkind =>
          apply Reads.skip (by simp [hkind])
          apply Reads.expect (by decide)
          intro dot
          apply Reads.expect (by decide)
          intro method
          apply Reads.pure
          intro c₃ c₂ hmethod c₁ hdot c
          exact ⟨.primary, by decide, Nat.le_trans (bindingPower_le _) (by decide),
            .superRef hkind hdot hmethod⟩
      · next hkind => exact token_sound (by simp [hkind]) (.var hkind)
      · next hkind =>
          apply Reads.skip (by simp [hkind])
          apply (expression_sound n).bind
          intro inner
          apply Reads.expect (by decide)
          intro close
          apply Reads.pure
          intro c₃ c₂ hclose c₁ xs hinner c
          have hgrouping := Phrase.grouping hkind hinner hclose
          refine ⟨.primary, by decide, Nat.le_trans (bindingPower_le _) (by decide), ?_⟩
          simpa [hinner.ne_nil] using hgrouping
      iterate 2
        next hkind =>
          apply Reads.skip (by simp [hkind])
          apply (operation_sound n unaryPower).bind
          intro operand
          apply Reads.pure
          intro c₂ c₁ xs hoperand c
          obtain ⟨level, hfits, hstops, hoperand⟩ := hoperand
          have hlevel : Level.unary.power ≤ level.power := by
            cases level <;> simp_all [Fits, unaryPower, Level.power]
          have hkind' : t.kind = .bang ∨ t.kind = .minus := by simp [hkind]
          have hunary := Phrase.unary hkind' (hoperand.loosen hlevel)
          refine ⟨.unary, by decide, hstops, ?_⟩
          simpa [hoperand.span, hoperand.ne_nil] using hunary
      · exact Reads.fail _ _

theorem operator_sound (n : Nat) (left : Expr) :
    Reads (operator n left) fun c ys e c' => ∀ level xs, 0 < bindingPower c.kind →
      bindingPower c.kind ≤ level.power → Phrase level xs left →
      ∃ level' : Level, level'.power = bindingPower c.kind ∧
        bindingPower c'.kind ≤ level'.power ∧ Phrase level' (xs ++ ys) e := by
  match n with
  | 0 => exact .outOfFuel
  | n + 1 =>
      unfold operator
      apply Reads.next
      · intro c ys e c' hend level xs hpos
        simp [hend, bindingPower] at hpos
      intro t
      split
      · next hkind =>
          have hlisted : Reads (do if ← at? .rightParen then pure [] else arguments n 0)
              fun _ xs values _ => Listed xs values := by
            apply Reads.at?
            · exact Reads.pure fun _ => .inl ⟨rfl, rfl⟩
            · exact (arguments_sound n 0).imp fun _ _ _ _ => .inr
          apply hlisted.choice
          intro values
          apply Reads.expect (by decide)
          intro paren
          apply Reads.pure
          intro c₃ c₂ hparen c₁ ys hvalues c hpeek level xs hpos hle hleft
          rw [Cursor.kind, hpeek, hkind] at hle ⊢
          obtain ⟨pieces, hpieces, hseparated, rfl, hlength⟩ := hvalues.exists_pieces
          have hcall := Phrase.call (hleft.loosen hle) hkind hpieces hseparated hlength hparen
          refine ⟨.call, rfl, bindingPower_le _, ?_⟩
          simpa [hleft.span, hleft.ne_nil] using hcall
      · next hkind =>
          apply Reads.expect (by decide)
          intro name
          apply Reads.pure
          intro c₂ c₁ hname c hpeek level xs hpos hle hleft
          rw [Cursor.kind, hpeek, hkind] at hle ⊢
          have hget := Phrase.get (hleft.loosen hle) hkind hname
          refine ⟨.call, rfl, bindingPower_le _, ?_⟩
          simpa [hleft.span, hleft.ne_nil] using hget
      iterate 2
        next hkind =>
          exact join_sound (operation_sound n _) (by simp [hkind, bindingPower])
            (by simp [joining, hkind])
      · next hparen hdot hand hor =>
          apply join_sound (operation_sound n _)
          · generalize t.kind = k at *
            cases k <;> simp_all [bindingPower]
          · exact if_neg (fun h => h.elim hand hor)

theorem arguments_sound (n count : Nat) :
    Reads (arguments n count) fun _ xs values _ => Arguments count xs values := by
  match n with
  | 0 => exact .outOfFuel
  | n + 1 =>
      rw [arguments_succ]
      exact .counted (.separated (expression_sound n) (arguments_sound n (count + 1)))

end

/-! ## Statements -/

structure Parameters (count : Nat) (xs ps : List Token) : Prop where
  ne_nil : ps ≠ []
  names : ∀ p ∈ ps, p.kind = .identifier
  separated : Separated (ps.map fun p => [p]) xs
  few : count + ps.length ≤ limit

def Name (xs : List Token) (t : Token) : Prop := xs = [t] ∧ t.kind = .identifier

theorem Parameters.of_items {count : Nat} {xs ps : List Token} (h : Items Name count xs ps) :
    Parameters count xs ps := by
  obtain ⟨pieces, hne, hnames, hseparated, rfl, hlength⟩ := h
  have hfirsts : pieces.map Prod.fst = (pieces.map Prod.snd).map fun p => [p] := by
    rw [List.map_map]
    exact List.map_congr_left fun piece hpiece => (hnames piece hpiece).1
  rw [hfirsts] at hseparated
  refine ⟨by simpa using hne, ?_, hseparated, by simpa using hlength⟩
  intro p hp
  obtain ⟨piece, hpiece, rfl⟩ := List.mem_map.mp hp
  exact (hnames piece hpiece).2

theorem parameters_items (n count : Nat) :
    Reads (parameters n count) fun _ xs ps _ => Items Name count xs ps := by
  induction n generalizing count with
  | zero => exact .outOfFuel
  | succ n ih =>
      have hname : Reads (expect .identifier "Expect parameter name.")
          fun _ xs t _ => Name xs t := by
        rw [← funext (map_id (p := expect .identifier "Expect parameter name."))]
        apply Reads.expect (by decide)
        intro t
        exact .pure fun _ _ hkind => ⟨rfl, hkind⟩
      rw [parameters_succ]
      exact .counted (.separated hname (ih (count + 1)))

theorem parameters_sound (n count : Nat) :
    Reads (parameters n count) fun _ xs ps _ => Parameters count xs ps :=
  (parameters_items n count).imp fun _ _ _ _ => Parameters.of_items

theorem variableDeclaration_sound (n : Nat) :
    Reads (variableDeclaration n) fun c xs s _ => c.before.kind = .varKw →
      Variable (c.before :: xs) s := by
  unfold variableDeclaration
  apply Reads.before
  intro keyword
  apply Reads.expect (by decide)
  intro name
  apply Reads.accept (by decide)
  · apply (expression_sound n).given.bind
    intro initial
    apply Reads.closing (by decide)
    intro c₃ semicolon c' hsemicolon c₂ xs hinitial c₁ equals _ hequals _ c₀ hname rfl hkeyword
    obtain ⟨e, rfl, he⟩ := hinitial
    have hvariable := Variable.initialized hkeyword hname hequals he hsemicolon
    simpa [he.ne_nil] using hvariable
  · have hnone : Reads (pure none) fun _ xs (initial : Option Expr) _ =>
        xs = [] ∧ initial = none := Reads.pure fun _ => ⟨rfl, rfl⟩
    apply hnone.bind
    intro initial
    apply Reads.closing (by decide)
    rintro c₃ semicolon c' hsemicolon c₂ xs ⟨rfl, rfl⟩ _ c₀ hname rfl hkeyword
    exact .plain hkeyword hname hsemicolon

theorem expressionStatement_sound (n : Nat) :
    Reads (expressionStatement n) fun _ xs s _ => Effect xs s := by
  unfold expressionStatement
  apply (expression_sound n).bind
  intro e
  apply Reads.closing (by decide)
  intro c t c' hkind c₀ xs he
  have heffect := Effect.mk he hkind
  simpa [he.span, he.ne_nil] using heffect

theorem forInitial_sound (n : Nat) :
    Reads (forInitial n) fun _ xs initial _ => Initial xs initial := by
  unfold forInitial
  apply Reads.accept (by decide)
  · apply Reads.pure
    intro c₁ c t _ ht _
    exact .none ht
  · apply Reads.accept (by decide)
    · apply (variableDeclaration_sound n).bind
      intro s
      apply Reads.pure
      intro c₂ c₁ xs hvariable c t _ ht hbefore _
      rw [hbefore] at hvariable
      rw [List.append_nil]
      exact .var (hvariable ht)
    · apply (expressionStatement_sound n).bind
      intro s
      apply Reads.pure
      intro c₂ c₁ xs heffect _ _
      rw [List.append_nil]
      exact .effect heffect

theorem optional_sound (n : Nat) (k : Kind) :
    Reads (do if ← at? k then pure none else some <$> expression n)
      fun _ xs value _ => Optional xs value := by
  apply Reads.at?
  · exact Reads.pure fun _ => .none
  · apply (expression_sound n).given.imp
    rintro _ xs _ _ ⟨e, rfl, he⟩
    exact .some he

/-- A statement, with no `else` after it that it could take. -/
def Stands (xs : List Token) (s : Stmt) (c : Cursor) : Prop :=
  ∃ dangling, Statement dangling xs s ∧ (dangling = true → c.kind ≠ .elseKw)

theorem Stands.of_statement {xs : List Token} {s : Stmt} {c : Cursor}
    (h : Statement false xs s) : Stands xs s c :=
  ⟨false, h, by simp⟩

theorem forLoop_eq {keyword semicolon : Token} {xs : List Token} {initial : Option Stmt}
    {condition increment : Option Expr} {body : Stmt} (hxs : xs ≠ [])
    (hbody : body.span.stop = (covering xs).stop) :
    forLoop keyword.span.start (covering xs).stop initial condition semicolon.span.start
        increment body =
      withInitial initial (.loop (covering (keyword :: xs)) (conditionOr semicolon condition)
        (withIncrement body increment)) := by
  unfold forLoop
  rw [covering_cons hxs, ← hbody]
  cases initial <;> cases increment <;> rfl

mutual

theorem declarations_sound (n : Nat) (inBlock : Bool) :
    Reads (declarations n inBlock) fun _ xs body c' => Declarations xs body ∧
      (inBlock = false → c'.kind = .eof) := by
  match n with
  | 0 => exact .outOfFuel
  | n + 1 =>
      unfold declarations
      apply Reads.look
      intro atEnd
      apply Reads.look
      intro atBrace
      apply Reads.ite
      · intro hend
        apply Reads.pure
        rintro c - hatEnd
        refine ⟨.nil, ?_⟩
        rintro rfl
        simpa [← hatEnd] using hend
      · intro _
        apply ((declaration_sound n).recovering (declaration_honest n)).bind
        intro first
        apply (declarations_sound n inBlock).bind
        intro rest
        apply Reads.pure
        rintro c₃ c₂ ys ⟨hrest, hend⟩ c₁ xs ⟨s, rfl, hfirst⟩ - -
        rw [List.append_nil]
        exact ⟨.cons hfirst hrest, hend⟩

theorem block_sound (n : Nat) :
    Reads (block n) fun _ xs body _ => ∃ ys closing, xs = ys ++ [closing] ∧
      Declarations ys body ∧ closing.kind = .rightBrace := by
  match n with
  | 0 => exact .outOfFuel
  | n + 1 =>
      unfold block
      apply (declarations_sound n true).bind
      intro body
      apply Reads.expect (by decide)
      intro closing
      apply Reads.pure
      rintro c₂ c₁ hclosing c xs ⟨hbody, -⟩
      exact ⟨xs, closing, rfl, hbody, hclosing⟩

theorem declaration_sound (n : Nat) :
    Reads (declaration n) fun _ xs s _ => Declaration xs s := by
  match n with
  | 0 => exact .outOfFuel
  | n + 1 =>
      unfold declaration
      apply Reads.accept (by decide)
      · apply (classDeclaration_sound n).imp
        intro c₁ xs s c' hclass c t _ ht hbefore
        rw [hbefore] at hclass
        exact hclass ht
      apply Reads.accept (by decide)
      · apply Reads.before
        intro keyword
        apply (function_sound n "function" _).bind
        intro d
        apply Reads.pure
        rintro c₃ c₂ xs ⟨name, ps, body, hfunction, rfl⟩ rfl c t - ht hbefore -
        rw [hbefore, List.append_nil, ← covering_cons hfunction.ne_nil]
        exact .function ht hfunction
      apply Reads.accept (by decide)
      · apply (variableDeclaration_sound n).imp
        intro c₁ xs s c' hvariable c t _ ht hbefore _ _
        rw [hbefore] at hvariable
        exact .var (hvariable ht)
      · apply (statement_sound n).imp
        rintro c xs s c' ⟨dangling, hstatement, -⟩ - - -
        exact .statement hstatement

theorem classDeclaration_sound (n : Nat) :
    Reads (classDeclaration n) fun c xs s _ => c.before.kind = .classKw →
      Declaration (c.before :: xs) s := by
  match n with
  | 0 => exact .outOfFuel
  | n + 1 =>
      unfold classDeclaration
      apply Reads.before
      intro keyword
      apply Reads.expect (by decide)
      intro name
      have hbody (superclass : Option Reference) : Reads (do
          let _ ← expect .leftBrace "Expect '\x7b' before class body."
          let methods ← methods n
          let _ ← expect .rightBrace "Expect '\x7d' after class body."
          return Stmt.classDecl ⟨keyword.span.start, ← previousEnd⟩ name superclass methods)
          fun _ ys s _ => ∃ opening xs closing methods, ys = opening :: (xs ++ [closing]) ∧
            opening.kind = .leftBrace ∧ Methods xs methods ∧ closing.kind = .rightBrace ∧
            s = Stmt.classDecl ⟨keyword.span.start, closing.span.stop⟩ name superclass methods := by
        apply Reads.expect (by decide)
        intro opening
        apply (methods_sound n).bind
        intro methods
        apply Reads.closing (by decide)
        intro c₂ closing c' hclosing c₁ xs hmethods c hopening
        exact ⟨opening, xs, closing, methods, rfl, hopening, hmethods, hclosing, rfl⟩
      apply Reads.accept (by decide)
      · apply Reads.expect (by decide)
        intro parent
        apply (hbody (some { span := parent.span, name := parent })).imp
        rintro c₃ _ _ c' ⟨opening, xs, closing, methods, rfl, hopening, hmethods, hclosing, rfl⟩
          c₂ hparent c₁ less - hless - c hname rfl hkind
        have hclass :=
          Declaration.classDecl hkind hname (.some hless hparent) hopening hmethods hclosing
        simpa using hclass
      · apply (hbody none).imp
        rintro c₁ _ _ c' ⟨opening, xs, closing, methods, rfl, hopening, hmethods, hclosing, rfl⟩
          - c hname rfl hkind
        have hclass := Declaration.classDecl hkind hname .none hopening hmethods hclosing
        simpa using hclass

theorem methods_sound (n : Nat) :
    Reads (methods n) fun _ xs ds _ => Methods xs ds := by
  match n with
  | 0 => exact .outOfFuel
  | n + 1 =>
      unfold methods
      apply Reads.look
      intro atBrace
      apply Reads.look
      intro atEnd
      apply Reads.ite
      · intro _
        exact Reads.pure fun _ _ _ => .nil
      · intro _
        apply Reads.peek
        intro t
        apply (function_sound n "method" _).and_took.bind
        intro first
        apply (methods_sound n).bind
        intro rest
        apply Reads.pure
        rintro c₃ c₂ ys hrest c xs ⟨htook, name, ps, body, hfunction, rfl⟩ hpeek - -
        obtain ⟨-, zs, rfl⟩ := hfunction.begins
        obtain ⟨hname, -⟩ := htook.uncons
        obtain rfl : name = t := hname.symm.trans hpeek
        rw [List.append_nil]
        exact .cons hfunction hrest

theorem function_sound (n : Nat) (role : String) (start : Position) :
    Reads (function n role start) fun _ xs d _ => ∃ name ps body, Function xs name ps body ∧
      d = .mk ⟨start, (covering xs).stop⟩ name ps body := by
  match n with
  | 0 => exact .outOfFuel
  | n + 1 =>
      unfold function
      apply Reads.took
      apply Reads.expect (by decide)
      intro name
      apply Reads.expect (by decide)
      intro opening
      have hparameters : Reads (do if ← at? .rightParen then pure [] else parameters n 0)
          fun _ xs ps _ => xs = [] ∧ ps = [] ∨ Parameters 0 xs ps := by
        apply Reads.at?
        · exact Reads.pure fun _ => .inl ⟨rfl, rfl⟩
        · exact (parameters_sound n 0).imp fun _ _ _ _ => .inr
      apply hparameters.choice
      intro ps
      apply Reads.expect (by decide)
      intro closing
      apply Reads.expect (by decide)
      intro brace
      apply (block_sound n).bind
      intro body
      apply Reads.previousEnd
      intro stop
      apply Reads.pure
      rintro c₇ hstop c₆ zs ⟨ys, last, rfl, hbody, hlast⟩ c₅ hbrace c₄ hclosing c₃ xs hps
        c₂ hopening c₁ hname htook
      have hend := htook.previousEnd (by simp)
      rw [hstop] at hend
      rw [hend]
      obtain ⟨hnames, hseparated, hfew⟩ :
          (∀ p ∈ ps, p.kind = .identifier) ∧ Separated (ps.map fun p => [p]) xs ∧
            ps.length ≤ limit := by
        rcases hps with ⟨rfl, rfl⟩ | hps
        · exact ⟨by simp, .none, by decide⟩
        · exact ⟨hps.names, hps.separated, by simpa using hps.few⟩
      have hfunction :=
        Function.mk hname hopening hnames hseparated hfew hclosing hbrace hbody hlast
      rw [List.append_nil]
      exact ⟨name, ps, body, hfunction, rfl⟩

theorem statement_sound (n : Nat) :
    Reads (statement n) fun _ xs s c' => Stands xs s c' := by
  match n with
  | 0 => exact .outOfFuel
  | n + 1 =>
      unfold statement
      apply Reads.accept (by decide)
      · apply (forStatement_sound n).imp
        intro c₁ xs s c' hfor c t _ ht hbefore
        rw [hbefore] at hfor
        exact hfor ht
      apply Reads.accept (by decide)
      · apply (ifStatement_sound n).imp
        intro c₁ xs s c' hif c t _ ht hbefore _
        rw [hbefore] at hif
        exact hif ht
      apply Reads.accept (by decide)
      · apply Reads.before
        intro keyword
        apply (expression_sound n).bind
        intro value
        apply Reads.closing (by decide)
        intro c₂ semicolon c' hsemicolon c₁ xs hvalue hkeyword c t _ ht hbefore _ _
        obtain rfl : keyword = t := hkeyword.symm.trans hbefore
        have hprint := Statement.print ht hvalue hsemicolon
        exact .of_statement (by simpa using hprint)
      apply Reads.accept (by decide)
      · apply Reads.before
        intro keyword
        apply (optional_sound n .semicolon).choice
        intro value
        apply Reads.closing (by decide)
        intro c₂ semicolon c' hsemicolon c₁ xs hvalue hkeyword c t _ ht hbefore _ _ _
        obtain rfl : keyword = t := hkeyword.symm.trans hbefore
        have hret := Statement.ret ht hvalue hsemicolon
        exact .of_statement (by simpa using hret)
      apply Reads.accept (by decide)
      · apply Reads.took
        apply Reads.before
        intro keyword
        apply Reads.expect (by decide)
        intro opening
        apply (expression_sound n).bind
        intro condition
        apply Reads.expect (by decide)
        intro closing
        apply (statement_sound n).bind
        intro body
        apply Reads.previousEnd
        intro stop
        apply Reads.pure
        rintro c₅ hstop c₄ ys ⟨dangling, hbody, hnext⟩ c₃ hclosing c₂ xs hcondition c₁ hopening
          hkeyword htook c t - ht hbefore - - - -
        obtain rfl : keyword = t := hkeyword.symm.trans hbefore
        have hend := htook.previousEnd (by simp)
        rw [hstop] at hend
        have hloop := Statement.loop ht hopening hcondition hclosing hbody
        refine ⟨dangling, ?_, hnext⟩
        rw [hend]
        simpa [hbody.ne_nil] using hloop
      apply Reads.accept (by decide)
      · apply Reads.took
        apply Reads.before
        intro brace
        apply (block_sound n).bind
        intro body
        apply Reads.previousEnd
        intro stop
        apply Reads.pure
        rintro c₂ hstop c₁ zs ⟨ys, closing, rfl, hbody, hclosing⟩ hbrace htook c t - ht hbefore
          - - - - -
        obtain rfl : brace = t := hbrace.symm.trans hbefore
        have hend := htook.previousEnd (by simp)
        rw [hstop] at hend
        have hblock := Statement.block ht hbody hclosing
        rw [hend]
        exact .of_statement (by simpa using hblock)
      · apply (expressionStatement_sound n).imp
        intro c xs s c' heffect _ _ _ _ _ _
        exact .of_statement (.effect heffect)

theorem forStatement_sound (n : Nat) :
    Reads (forStatement n) fun c xs s c' => c.before.kind = .forKw →
      Stands (c.before :: xs) s c' := by
  match n with
  | 0 => exact .outOfFuel
  | n + 1 =>
      unfold forStatement
      apply Reads.took
      apply Reads.before
      intro keyword
      apply Reads.expect (by decide)
      intro opening
      apply (forInitial_sound n).bind
      intro initial
      apply (optional_sound n .semicolon).choice
      intro condition
      apply Reads.expect (by decide)
      intro semicolon
      apply (optional_sound n .rightParen).choice
      intro increment
      apply Reads.expect (by decide)
      intro closing
      apply (statement_sound n).bind
      intro body
      apply Reads.previousEnd
      intro stop
      apply Reads.pure
      rintro c₈ hstop c₇ ws ⟨dangling, hbody, hnext⟩ c₆ hclosing c₅ zs hincrement c₄ hsemicolon
        c₃ ys hcondition c₂ xs hinitial c₁ hopening rfl htook hkind
      have hfor := Statement.forLoop hkind hopening hinitial hcondition hsemicolon hincrement
        hclosing hbody
      refine ⟨dangling, ?_, hnext⟩
      have hend := htook.previousEnd (by simp)
      rw [hstop] at hend
      rw [hend, forLoop_eq (by simp) (by simp [hbody.span, hbody.ne_nil])]
      simpa using hfor

theorem ifStatement_sound (n : Nat) :
    Reads (ifStatement n) fun c xs s c' => c.before.kind = .ifKw →
      Stands (c.before :: xs) s c' := by
  match n with
  | 0 => exact .outOfFuel
  | n + 1 =>
      unfold ifStatement
      apply Reads.took
      apply Reads.before
      intro keyword
      apply Reads.expect (by decide)
      intro opening
      apply (expression_sound n).bind
      intro condition
      apply Reads.expect (by decide)
      intro closing
      apply (statement_sound n).bind
      intro onTrue
      have helse : Reads (do if ← accept .elseKw then some <$> statement n else pure none)
          fun c xs onFalse c' => (c = c' ∧ c.kind ≠ .elseKw ∧ xs = [] ∧ onFalse = none) ∨
            ∃ word ys s, c.kind = .elseKw ∧ word.kind = .elseKw ∧ xs = word :: ys ∧
              onFalse = some s ∧ Stands ys s c' := by
        apply Reads.accept (by decide)
        · apply (statement_sound n).given.imp
          rintro c₁ ys _ c' ⟨s, rfl, hs⟩ c word hpeek hword -
          exact .inr ⟨word, ys, s, by rw [Cursor.kind, hpeek, hword], hword, rfl, rfl, hs⟩
        · exact Reads.pure fun c hkind => .inl ⟨rfl, hkind, rfl, rfl⟩
      apply helse.choice
      intro onFalse
      apply Reads.previousEnd
      intro stop
      apply Reads.pure
      rintro c₆ hstop c₅ zs helse c₄ ys ⟨dangling, honTrue, hnext⟩ c₃ hclosing c₂ xs hcondition
        c₁ hopening rfl htook hkind
      have hend := htook.previousEnd (by simp)
      rw [hstop] at hend
      rw [hend]
      rcases helse with ⟨rfl, helse, rfl, rfl⟩ |
        ⟨word, zs, s, helse, hword, rfl, rfl, last, hs, hlast⟩
      · have hbranch := Statement.branch hkind hopening hcondition hclosing honTrue
        refine ⟨true, ?_, fun _ => helse⟩
        simpa [honTrue.ne_nil] using hbranch
      · -- an `else` follows, so that the statement before it ends in no `if` that is open
        obtain rfl : dangling = false := by
          cases dangling with
          | false => rfl
          | true => exact absurd helse (hnext rfl)
        have hbranch :=
          Statement.branchElse hkind hopening hcondition hclosing honTrue hword hs
        refine ⟨last, ?_, hlast⟩
        simpa [hs.ne_nil] using hbranch

end

end Lox.Parser
