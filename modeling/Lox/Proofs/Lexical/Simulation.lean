import Lox.Proofs.Lexical.Update

/-!
Runs that correspond step by step.

Two runs from corresponding states both end with corresponding values, or both stop with
the same fault, in corresponding states.  The rules follow the sequencing of steps; one
lemma follows for every step that is not itself recursive.
-/

namespace Lox.Lexical

open Resolution (Context)

inductive Ends (F : Nat → Prop) (i : Nat) (w : World) (R : World → α → β → Prop) :
    Lox.Outcome α → Outcome β → Prop where
  | done {w' : World} {v : α} {v' : β} {m : Machine} {s : State} (hw : Grows F w w')
      (h : Related w' m s) (hi : m.current = i) (hv : R w' v v') :
      Ends F i w R (.done v m) (.done v' s)
  | fault {w' : World} {cause : Fault} {m : Machine} {s : State} (hw : Grows F w w')
      (h : Related w' m s) (hi : m.current = i) :
      Ends F i w R (.fault cause m) (.fault cause s)

/--
From corresponding states in the world `w`, the machine being in the scope `i`, the two
runs end alike.  The scopes in `F`, which exist already, get no further names.
-/
def Sim (F : Nat → Prop) (i : Nat) (w : World) (p : Lox.Run α) (q : Run β)
    (R : World → α → β → Prop) : Prop :=
  ∀ m s, Related w m s → m.current = i → (∀ j, F j → j < w.scopes.size) →
    Ends F i w R (p m) (q s)

theorem lift_bind (p : Lox.Run α) (f : α → Lox.Run β) :
    lift (p >>= f) = lift p >>= fun v => lift (f v) := by
  funext s
  change lift (Lox.Run.bind p f) s = Run.bind (lift p) (fun v => lift (f v)) s
  simp only [lift, Run.bind, Lox.Run.bind]
  cases p s.machine <;> rfl

namespace Sim

variable {F : Nat → Prop} {i : Nat} {w : World} {α β γ δ : Type}
  {p : Lox.Run α} {q : Run β} {R : World → α → β → Prop}

theorem pure {v : α} {v' : β} (h : R w v v') : Sim F i w (Pure.pure v) (Pure.pure v') R :=
  fun _ _ hrel hi _ => .done (.refl w) hrel hi h

theorem stop (cause : Fault) : Sim F i w (Machine.stop cause) (lift (Machine.stop cause)) R :=
  fun _ _ hrel hi _ => .fault (.refl w) hrel hi

theorem raise (cause : Cause) (t : Token) :
    Sim F i w (Machine.raise cause t) (Lexical.raise cause t) R :=
  stop _

theorem imp {S : World → α → β → Prop} (h : Sim F i w p q R)
    (hRS : ∀ w' v v', Grows F w w' → R w' v v' → S w' v v') : Sim F i w p q S := by
  intro m s hrel hi hF
  generalize hpm : p m = out
  generalize hqs : q s = out'
  cases hpm ▸ hqs ▸ h m s hrel hi hF with
  | done hw h hi hv => exact .done hw h hi (hRS _ _ _ hw hv)
  | fault hw h hi => exact .fault hw h hi

theorem bind {f : α → Lox.Run γ} {g : β → Run δ} {T : World → γ → δ → Prop}
    (hp : Sim F i w p q R)
    (hf : ∀ w' v v', Grows F w w' → R w' v v' → Sim F i w' (f v) (g v') T) :
    Sim F i w (p >>= f) (q >>= g) T := by
  intro m s hrel hi hF
  change Ends F i w T (Lox.Run.bind p f m) (Run.bind q g s)
  unfold Lox.Run.bind Run.bind
  generalize hpm : p m = out
  generalize hqs : q s = out'
  cases hpm ▸ hqs ▸ hp m s hrel hi hF with
  | fault hw h hi => exact .fault hw h hi
  | @done w' v v' m' s' hw h hi hv =>
      have hF' : ∀ j, F j → j < w'.scopes.size := fun j hj =>
        Nat.lt_of_lt_of_le (hF j hj) hw.size_le
      dsimp only
      generalize hfm : f v m' = out
      generalize hgs : g v' s' = out'
      cases hfm ▸ hgs ▸ hf w' v v' hw hv m' s' h hi hF' with
      | done hw' h' hi' hv' => exact .done (hw.trans hw') h' hi' hv'
      | fault hw' h' hi' => exact .fault (hw.trans hw') h' hi'

theorem bindRight {p : Lox.Run γ} {g : β → Run δ} {R : World → Unit → β → Prop}
    {T : World → γ → δ → Prop} (hq : Sim F i w (Pure.pure ()) q R)
    (hp : ∀ w' v', Grows F w w' → R w' () v' → Sim F i w' p (g v') T) :
    Sim F i w p (q >>= g) T :=
  bind (f := fun _ => p) hq fun w' _ v' => hp w' v'

theorem bindLeft {f : α → Lox.Run γ} {q : Run δ} {R : World → α → Unit → Prop}
    {T : World → γ → δ → Prop} (hp : Sim F i w p (Pure.pure ()) R)
    (hq : ∀ w' v, Grows F w w' → R w' v () → Sim F i w' (f v) q T) :
    Sim F i w (p >>= f) q T :=
  bind (g := fun _ => q) hp fun w' v _ => hq w' v

theorem mapRight {g : β → δ} {T : World → α → δ → Prop} (h : Sim F i w p q R)
    (hg : ∀ w' v v', Grows F w w' → R w' v v' → T w' v (g v')) :
    Sim F i w p (q >>= fun v' => Pure.pure (g v')) T := by
  intro m s hrel hi hF
  change Ends F i w T (p m) (Run.bind q (fun v' => Run.pure (g v')) s)
  unfold Run.bind
  generalize hpm : p m = out
  generalize hqs : q s = out'
  cases hpm ▸ hqs ▸ h m s hrel hi hF with
  | done hw h hi hv => exact .done hw h hi (hg _ _ _ hw hv)
  | fault hw h hi => exact .fault hw h hi

theorem ite {c : Prop} [Decidable c] {p' : Lox.Run α} {q' : Run β}
    (hthen : c → Sim F i w p q R) (helse : ¬c → Sim F i w p' q' R) :
    Sim F i w (if c then p else p') (if c then q else q') R := by
  by_cases h : c
  · simpa [h] using hthen h
  · simpa [h] using helse h

theorem deeper (h : Sim F i w p q R) : Sim F i w (Machine.deeper p) (Lexical.deeper q) R := by
  intro m s hrel hi hF
  have hrel' : Related w { m with depth := m.depth + 1 }
      { s with machine := { s.machine with depth := s.machine.depth + 1 } } :=
    { hrel with depth := by simp [hrel.depth] }
  unfold Machine.deeper Lexical.deeper
  generalize hpm : p { m with depth := m.depth + 1 } = out
  generalize hqs : q { s with machine := { s.machine with depth := s.machine.depth + 1 } } = out'
  cases hpm ▸ hqs ▸ h _ _ hrel' hi hF with
  | done hw h hi hv => exact .done hw { h with depth := by simp [h.depth] } hi hv
  | fault hw h hi => exact .fault hw { h with depth := by simp [h.depth] } hi

/-- Another scope for the machine alone: environments need not be put back. -/
theorem inScope {k : Nat} (h : Sim F k w p q R) : Sim F i w (Machine.inScope k p) q R := by
  intro m s hrel hi hF
  have hrel' : Related w { m with current := k } s := { hrel with }
  unfold Machine.inScope
  generalize hpm : p { m with current := k } = out
  generalize hqs : q s = out'
  cases hpm ▸ hqs ▸ h _ _ hrel' rfl hF with
  | done hw h _ hv => exact .done hw { h with } hi hv
  | fault hw h _ => exact .fault hw { h with } hi

end Sim

end Lox.Lexical
