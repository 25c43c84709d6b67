import Lox.Proofs.Parser.Lists

/-!
What a parser keeps and what it gives.

A parser keeps a property of cursors when it holds after every run that started with
it, also after one that gave up.  The rules follow the combinators, so that the
property of a long parser comes from those of its steps.
-/

namespace Lox.Parser

/-- From a cursor with `I` to a cursor with `I`, and every value given satisfies `Q`. -/
def Yields (I : Cursor → Prop) (p : Parse α) (Q : α → Prop) : Prop :=
  ∀ c, I c → I (p c).2 ∧ ∀ v, (p c).1 = .ok v → Q v

theorem bind_yields {I : Cursor → Prop} {α β : Type} {p : Parse α} {f : α → Parse β}
    {Q : α → Prop} {R : β → Prop} {c : Cursor} (hkept : I (p c).2)
    (hvalue : ∀ v, (p c).1 = .ok v → Q v) (hf : ∀ v, Q v → Yields I (f v) R) :
    I ((p >>= f) c).2 ∧ ∀ w, ((p >>= f) c).1 = .ok w → R w := by
  change I (Parse.bind p f c).2 ∧ ∀ w, (Parse.bind p f c).1 = .ok w → R w
  unfold Parse.bind
  rcases hrun : p c with ⟨reply, c'⟩
  rw [hrun] at hkept hvalue
  cases reply with
  | ok v => exact hf v (hvalue v rfl) c' hkept
  | failed | outOfFuel => exact ⟨hkept, by simp⟩

namespace Yields

variable {I : Cursor → Prop} {α β : Type} {p : Parse α} {Q : α → Prop} {R : β → Prop}

theorem imp {Q' : α → Prop} (h : Yields I p Q) (hQ : ∀ v, Q v → Q' v) : Yields I p Q' :=
  fun c hc => ⟨(h c hc).1, fun v hv => hQ v ((h c hc).2 v hv)⟩

theorem pure {v : α} (h : Q v) : Yields I (Pure.pure v : Parse α) Q := by
  intro c hc
  refine ⟨hc, fun w hw => ?_⟩
  cases hw
  exact h

theorem bind {f : α → Parse β} (hp : Yields I p Q) (hf : ∀ v, Q v → Yields I (f v) R) :
    Yields I (p >>= f) R :=
  fun c hc => bind_yields (hp c hc).1 (hp c hc).2 hf

theorem map {f : α → β} (hp : Yields I p Q) (hf : ∀ v, Q v → R (f v)) :
    Yields I (f <$> p) R :=
  hp.bind fun v hv => .pure (hf v hv)

theorem ite {c : Prop} [Decidable c] {q : Parse α} (hp : c → Yields I p Q)
    (hq : ¬c → Yields I q Q) : Yields I (if c then p else q) Q := by
  split
  · exact hp ‹_›
  · exact hq ‹_›

theorem iteBind {c : Prop} [Decidable c] {q : Parse α} {f : α → Parse β}
    (hp : c → Yields I p Q) (hq : ¬c → Yields I q Q) (hf : ∀ v, Q v → Yields I (f v) R) :
    Yields I (if c then p >>= f else q >>= f) R :=
  .ite (fun hc => (hp hc).bind hf) fun hc => (hq hc).bind hf

theorem outOfFuel : Yields I (Parser.outOfFuel : Parse α) Q :=
  fun _ hc => ⟨hc, by simp [Parser.outOfFuel]⟩

end Yields

/-! ## Steps -/

class Kept (I : Cursor → Prop) : Prop where
  advance {c : Cursor} : I c → I c.advance
  report {c : Cursor} (p : Problem) (t : Token) : I c → I (c.report p t)
  synchronize {c : Cursor} : I c → I (synchronize c)

namespace Yields

variable {I : Cursor → Prop} {α : Type} {P : Token → Prop} {Q : α → Prop}

theorem peek (h : ∀ {c}, I c → P c.peek) : Yields I Parser.peek P := by
  intro c hc
  refine ⟨hc, ?_⟩
  rintro t ⟨⟩
  exact h hc

theorem before : Yields I Parser.before fun _ => True :=
  fun _ hc => ⟨hc, fun _ _ => trivial⟩

theorem previousEnd : Yields I Parser.previousEnd fun _ => True :=
  fun _ hc => ⟨hc, fun _ _ => trivial⟩

theorem at? (k : Kind) : Yields I (Parser.at? k) fun _ => True :=
  fun _ hc => ⟨hc, fun _ _ => trivial⟩

variable [Kept I]

theorem next : Yields I Parser.next fun _ => True :=
  fun _ hc => ⟨Kept.advance hc, fun _ _ => trivial⟩

theorem accept (k : Kind) : Yields I (Parser.accept k) fun _ => True := by
  intro c hc
  unfold Parser.accept
  split
  · exact ⟨Kept.advance hc, fun _ _ => trivial⟩
  · exact ⟨hc, fun _ _ => trivial⟩

theorem report (p : Problem) (t : Token) : Yields I (Parser.report p t) fun _ => True :=
  fun _ hc => ⟨Kept.report p t hc, fun _ _ => trivial⟩

theorem fail (p : Problem) (t : Token) : Yields I (Parser.fail p t) Q :=
  fun _ hc => ⟨Kept.report p t hc, by simp [Parser.fail]⟩

theorem expect {k : Kind} (message : String) (h : ∀ {c}, I c → c.kind = k → P c.peek) :
    Yields I (Parser.expect k message) P := by
  intro c hc
  unfold Parser.expect
  split
  · next hkind =>
      refine ⟨Kept.advance hc, ?_⟩
      rintro t ⟨⟩
      exact h hc hkind
  · exact ⟨Kept.report _ _ hc, by simp⟩

theorem counted {p : Problem} {count : Nat} {items : Parse (List α)} {Q : List α → Prop}
    (h : Yields I items Q) : Yields I (Parser.counted p count items) Q := by
  unfold Parser.counted
  refine .ite (fun _ => ?_) fun _ => h
  exact (peek (P := fun _ => True) fun _ => trivial).bind fun _ _ => (report _ _).bind fun _ _ => h

theorem separated {item : Parse α} {more : Parse (List α)} (hitem : Yields I item Q)
    (hmore : Yields I more fun xs => ∀ x ∈ xs, Q x) :
    Yields I (Parser.separated item more) fun xs => ∀ x ∈ xs, Q x := by
  unfold Parser.separated
  refine hitem.bind fun first hfirst => ?_
  refine (accept _).bind fun _ _ => .ite (fun _ => ?_) fun _ => .pure (by simpa using hfirst)
  exact hmore.bind fun rest hrest => .pure (List.forall_mem_cons.mpr ⟨hfirst, hrest⟩)

theorem recovering {p : Parse Stmt} {Q : Stmt → Prop} (h : Yields I p Q) :
    Yields I (Parser.recovering p) fun s => ∀ x ∈ s, Q x := by
  intro c hc
  obtain ⟨hkept, hvalue⟩ := h c hc
  unfold Parser.recovering
  rcases hrun : p c with ⟨reply, c'⟩
  rw [hrun] at hkept hvalue
  cases reply with
  | ok s =>
      refine ⟨hkept, ?_⟩
      rintro _ ⟨⟩ x ⟨⟩
      exact hvalue s rfl
  | failed =>
      refine ⟨Kept.synchronize hkept, ?_⟩
      rintro _ ⟨⟩
      simp
  | outOfFuel => exact ⟨hkept, by simp⟩

end Yields

end Lox.Parser
