import Lox.Proofs.Calls.Events
import Lox.Proofs.Calls.Lenient

/-!
What the log says about the calls of a run.

A call is refused exactly at the limit, a refusal ends the whole run, and the value of a
function body is that of the first `return` in it.  Each of these follows for a run from
its parts, so there is one rule for every way in which the evaluator puts parts together.
-/

namespace Lox.Calls

open Machine (raise deeper isFull)
open Recorded (Log Note Quiet Traced)
open Run (Steady Lenient)

/-! ## Returns -/

def Returnless (log : List Event) : Prop := ∀ e ∈ log, ¬e.IsReturn

/--
The only `return` in the log is the last statement there.  After it nothing but the calls
for its value are made; without an expression the value is `nil`.
-/
def Returns (v : Value) (log : List Event) : Prop :=
  ∃ front span keyword value operand,
    log = front ++ .statement (.ret span keyword value) :: (operand ++ [.returned v]) ∧
      Returnless front ∧ (∀ e ∈ operand, e.call?.isSome) ∧
      (value = none → operand = [] ∧ v = .nil)

/-- The value of a function body, if it has one, is that of its first `return`, or `nil`. -/
def Lands (inside : List Event) : Option Value → Prop
  | some v => Returns v inside ∨ Returnless inside ∧ v = .nil
  | none => ∀ v, .returned v ∉ inside

def Settles : Option Signal → List Event → Prop
  | some (.returned v), log => Returns v log
  | some .normal, log => Returnless log
  | none, log => ∀ v, .returned v ∉ log

def OnlyCalls (_ : Option α) (log : List Event) : Prop := ∀ e ∈ log, e.call?.isSome

theorem Event.not_isReturn_of_call {e : Event} (h : e.call?.isSome) : ¬e.IsReturn := by
  cases e <;> simp_all [call?, IsReturn]

theorem OnlyCalls.returnless {r : Option α} {log : List Event} (h : OnlyCalls r log) :
    Returnless log :=
  fun e he => e.not_isReturn_of_call (h e he)

theorem Returnless.append {front log : List Event} (hf : Returnless front)
    (h : Returnless log) : Returnless (front ++ log) := by
  intro e he
  rcases List.mem_append.mp he with he | he
  · exact hf e he
  · exact h e he

theorem Settles.append {front log : List Event} {r : Option Signal} (hf : Returnless front)
    (h : Settles r log) : Settles r (front ++ log) := by
  match r, h with
  | none, h =>
      intro v hv
      rcases List.mem_append.mp hv with hv | hv
      · exact hf _ hv trivial
      · exact h v hv
  | some .normal, h => exact hf.append h
  | some (.returned v), ⟨before, span, keyword, value, operand, hlog, hbefore, hrest⟩ =>
      exact ⟨front ++ before, span, keyword, value, operand, by simp [hlog], hf.append hbefore,
        hrest⟩

/-! ## Occurrences -/

def Refuses (log : List Event) : Prop :=
  ∃ active callee arguments, Occurs active (.refused callee arguments) log

theorem Occurs.of_nil {active : Nat} {e : Event} : ¬Occurs active e [] := by
  intro h
  cases h with
  | here h => cases h
  | inside h => cases h

theorem occurs_append {active : Nat} {e : Event} {front log : List Event} :
    Occurs active e (front ++ log) ↔ Occurs active e front ∨ Occurs active e log := by
  constructor
  · intro h
    cases h with
    | here h => exact (List.mem_append.mp h).imp .here .here
    | inside h deeper =>
        exact (List.mem_append.mp h).imp (.inside · deeper) (.inside · deeper)
  · rintro (h | h)
    · cases h with
      | here h => exact .here (List.mem_append_left log h)
      | inside h deeper => exact .inside (List.mem_append_left log h) deeper
    · cases h with
      | here h => exact .here (List.mem_append_right front h)
      | inside h deeper => exact .inside (List.mem_append_right front h) deeper

theorem refuses_append {front log : List Event} :
    Refuses (front ++ log) ↔ Refuses front ∨ Refuses log := by
  simp [Refuses, occurs_append, exists_or]

/-- What an event says about the calls under way when it happens, `active` in number. -/
def Event.Fits (limit active : Nat) : Event → Prop
  | .statement _ | .returned _ => True
  | .passed callee arguments => ¬Activates callee arguments
  | .refused callee arguments => Activates callee arguments ∧ 0 < limit ∧ active = limit
  | .activation callee arguments inside answer =>
      Activates callee arguments ∧ (limit = 0 ∨ active < limit) ∧
        ∀ id code, callee = .function id code → code.isInitializer = false → Lands inside answer

def Regular (limit depth : Nat) (log : List Event) : Prop :=
  ∀ active e, Occurs active e log → e.Fits limit (depth + active)

theorem Regular.append {limit depth : Nat} {front log : List Event}
    (hf : Regular limit depth front) (h : Regular limit depth log) :
    Regular limit depth (front ++ log) := by
  intro active e he
  rcases occurs_append.mp he with he | he
  · exact hf active e he
  · exact h active e he

theorem Regular.activation {limit depth : Nat} {callee : Value} {arguments : List Value}
    {inside : List Event} {answer : Option Value} (h : Regular limit (depth + 1) inside)
    (hfits : Event.Fits limit depth (.activation callee arguments inside answer)) :
    Regular limit depth [.activation callee arguments inside answer] := by
  intro active e he
  cases he with
  | here he =>
      rw [List.mem_singleton.mp he]
      exact hfits
  | @inside active _ _ _ _ _ _ he deeper =>
      cases List.mem_singleton.mp he
      have hinner := h active e deeper
      rwa [Nat.add_assoc, Nat.add_comm 1] at hinner

def Event.Quiet : Event → Prop
  | .statement _ | .returned _ => True
  | .passed callee arguments => ¬Activates callee arguments
  | .refused _ _ | .activation _ _ _ _ => False

theorem Event.Quiet.occurs {e e' : Event} {active : Nat} (h : e.Quiet)
    (hoccurs : Occurs active e' [e]) : e' = e := by
  cases hoccurs with
  | here he => exact List.mem_singleton.mp he
  | inside he =>
      cases List.mem_singleton.mp he
      exact h.elim

theorem Event.Quiet.fits {e : Event} (h : e.Quiet) (limit active : Nat) :
    e.Fits limit active := by
  cases e with
  | statement | returned => trivial
  | passed => exact h
  | refused | activation => exact h.elim

theorem Event.Quiet.not_refuses {e : Event} (h : e.Quiet) : ¬Refuses [e] := by
  rintro ⟨active, callee, arguments, hoccurs⟩
  rw [← h.occurs hoccurs] at h
  exact h

theorem refuses_activation {callee : Value} {arguments : List Value} {inside : List Event}
    {answer : Option Value} :
    Refuses [.activation callee arguments inside answer] ↔ Refuses inside := by
  constructor
  · rintro ⟨active, callee', arguments', hoccurs⟩
    cases hoccurs with
    | here he => cases List.mem_singleton.mp he
    | inside he deeper =>
        cases List.mem_singleton.mp he
        exact ⟨_, _, _, deeper⟩
  · rintro ⟨active, callee', arguments', hoccurs⟩
    exact ⟨active + 1, _, _, .inside (List.mem_singleton_self _) hoccurs⟩

/-! ## Runs and their logs -/

/--
The log belongs to the run and is true about its calls; `Q` holds of the value, if there is
one, and the log.
-/
structure Accounted (Q : Option α → List Event → Prop) (t : Traced Event α)
    (p : Run α) : Prop where
  run : ∀ m, (t m).1 = p m
  lenient : Lenient p
  refusal : ∀ m, (p m).Overflows ↔ Refuses (t m).2
  regular : ∀ m : Machine, (m.limit = 0 ∨ m.depth ≤ m.limit) →
    Regular m.limit m.depth (t m).2
  result : ∀ m, Q (p m).value? (t m).2

namespace Accounted

variable {α β : Type} {P Q : Option α → List Event → Prop} {R : Option β → List Event → Prop}
  {t : Traced Event α} {p : Run α}

theorem imp (h : ∀ r log, P r log → Q r log) (hp : Accounted P t p) : Accounted Q t p where
  run := hp.run
  lenient := hp.lenient
  refusal := hp.refusal
  regular := hp.regular
  result m := h _ _ (hp.result m)

theorem silent (h : Steady p) (hq : ∀ m, Q (p m).value? []) : Accounted Q (.silent p) p where
  run _ := rfl
  lenient := h.lenient
  refusal m := ⟨fun hover => (h.calm m hover).elim, fun ⟨_, _, _, hoccurs⟩ =>
    (Occurs.of_nil hoccurs).elim⟩
  regular _ _ _ _ hoccurs := (Occurs.of_nil hoccurs).elim
  result := hq

theorem pure {v : α} (hq : Q (some v) []) : Accounted Q (Pure.pure v) (Pure.pure v) :=
  silent (.pure v) fun _ => hq

theorem bind {t' : α → Traced Event β} {p' : α → Run β} (hp : Accounted P t p)
    (hnone : ∀ log, P none log → R none log)
    (hrest : ∀ v front, P (some v) front →
      Accounted (fun r log => R r (front ++ log)) (t' v) (p' v)) :
    Accounted R (t >>= t') (p >>= p') := by
  have hnext {m m₁ v} (hpm : p m = .done v m₁) :
      Accounted (fun r log => R r ((t m).2 ++ log)) (t' v) (p' v) := by
    have hresult := hp.result m
    rw [hpm] at hresult
    exact hrest v _ hresult
  have hdone {m m₁ v} (hpm : p m = .done v m₁) :
      (t >>= t') m = ((t' v m₁).1, (t m).2 ++ (t' v m₁).2) ∧ (p >>= p') m = p' v m₁ :=
    ⟨Traced.bind_of_done ((hp.run m).trans hpm), Run.bind_of_done hpm⟩
  have hfault {m m₁ cause} (hpm : p m = .fault cause m₁) :
      (t >>= t') m = (.fault cause m₁, (t m).2) ∧ (p >>= p') m = .fault cause m₁ :=
    ⟨Traced.bind_of_fault ((hp.run m).trans hpm), Run.bind_of_fault hpm⟩
  constructor
  case run =>
    intro m
    cases hpm : p m with
    | done v m₁ =>
        rw [(hdone hpm).1, (hdone hpm).2]
        exact (hnext hpm).run m₁
    | fault cause m₁ => rw [(hfault hpm).1, (hfault hpm).2]
  case lenient => exact hp.lenient.bind fun hpm => (hnext hpm).lenient
  case refusal =>
    intro m
    have hfirst := hp.refusal m
    cases hpm : p m with
    | done v m₁ =>
        rw [hpm] at hfirst
        rw [(hdone hpm).1, (hdone hpm).2, refuses_append, ← hfirst, (hnext hpm).refusal m₁]
        simp [Outcome.Overflows]
    | fault cause m₁ =>
        rw [hpm] at hfirst
        rw [(hfault hpm).1, (hfault hpm).2]
        exact hfirst
  case regular =>
    intro m hm
    have hfirst := hp.regular m hm
    cases hpm : p m with
    | done v m₁ =>
        have honward := hp.lenient.onward m
        rw [hpm] at honward
        have hlater := (hnext hpm).regular m₁
        simp only [Outcome.machine] at honward
        rw [honward.limit, honward.depth] at hlater
        rw [(hdone hpm).1]
        exact hfirst.append (hlater hm)
    | fault cause m₁ =>
        rw [(hfault hpm).1]
        exact hfirst
  case result =>
    intro m
    have hresult := hp.result m
    cases hpm : p m with
    | done v m₁ =>
        rw [(hdone hpm).1, (hdone hpm).2]
        exact (hnext hpm).result m₁
    | fault cause m₁ =>
        rw [hpm] at hresult
        rw [(hfault hpm).1, (hfault hpm).2]
        exact hnone _ hresult

theorem noting {note : Note} {e : Event} (hnote : ∀ m, Log.note note m = [e]) (he : e.Quiet)
    (hp : Accounted (fun r log => Q r (e :: log)) t p) : Accounted Q (.noting note t) p := by
  have hlog (m : Machine) : (Traced.noting note t m).2 = [e] ++ (t m).2 := by
    simp only [Traced.noting, hnote]
  constructor
  case run => exact hp.run
  case lenient => exact hp.lenient
  case refusal =>
    intro m
    rw [hlog, refuses_append, hp.refusal]
    simp [he.not_refuses]
  case regular =>
    intro m hm
    have hfirst : Regular m.limit m.depth [e] := by
      intro active e' hoccurs
      rw [he.occurs hoccurs]
      exact he.fits _ _
    rw [hlog]
    exact hfirst.append (hp.regular m hm)
  case result =>
    intro m
    rw [hlog]
    exact hp.result m

theorem unnoted {note : Note} (hnote : ∀ m, (Log.note note m : List Event) = [])
    (hp : Accounted Q t p) : Accounted Q (.noting note t) p := by
  have hsame : Traced.noting note t = t := by
    funext m
    simp [Traced.noting, hnote]
  rwa [hsame]

theorem asking {t : Machine → Traced Event α} (hp : ∀ m, Accounted Q (t m) p) :
    Accounted Q (.asking t) p where
  run m := (hp m).run m
  lenient := (hp { scopes := #[] }).lenient
  refusal m := (hp m).refusal m
  regular m hm := (hp m).regular m hm
  result m := (hp m).result m

theorem inScope (id : Nat) (hp : Accounted Q t p) :
    Accounted Q (.inScope id t) (Machine.inScope id p) := by
  have hrun : t.run = p := funext hp.run
  have hlog (m : Machine) : (Traced.inScope id t m).2 = (t { m with current := id }).2 :=
    List.append_nil _
  have hinner (m : Machine) : (Machine.inScope id p m).value? =
        (p { m with current := id }).value? ∧
      ((Machine.inScope id p m).Overflows ↔ (p { m with current := id }).Overflows) := by
    unfold Machine.inScope
    cases p { m with current := id } <;> exact ⟨rfl, Iff.rfl⟩
  constructor
  case run =>
    intro m
    change Machine.inScope id t.run m = _
    rw [hrun]
  case lenient => exact hp.lenient.inScope id
  case refusal =>
    intro m
    rw [(hinner m).2, hlog]
    exact hp.refusal _
  case regular =>
    intro m hm
    rw [hlog]
    exact hp.regular { m with current := id } hm
  case result =>
    intro m
    rw [(hinner m).1, hlog]
    exact hp.result _

end Accounted

def entering (callee : Value) (arguments : List Value) (paren : Token)
    (body : Traced Event Value) : Traced Event Value := do
  if ← .silent isFull then
    .noting (.refused callee arguments) (.silent (raise .stackOverflow paren))
  else .activation callee arguments body

section

variable {callee : Value} {arguments : List Value} {paren : Token} {body : Traced Event Value}
  {m : Machine}

theorem entering_of_full (h : m.Full) : entering callee arguments paren body m =
    (.fault (.runtime ⟨.stackOverflow, paren⟩) m, [.refused callee arguments]) := by
  unfold entering
  rw [Traced.silent_bind_of_done (Machine.isFull_of_full h)]
  rfl

theorem entering_of_not_full (h : ¬m.Full) :
    entering callee arguments paren body m = Traced.activation callee arguments body m := by
  unfold entering
  rw [Traced.silent_bind_of_done (Machine.isFull_of_not_full h)]
  rfl

end

theorem Accounted.enter {callee : Value} {arguments : List Value} {t : Traced Event Value}
    {p : Run Value} (paren : Token) (hcall : Activates callee arguments)
    (hbody : Accounted (fun r log => ∀ id code, callee = .function id code →
      code.isInitializer = false → Lands log r) t p) :
    Accounted OnlyCalls (entering callee arguments paren t)
      (do if ← isFull then raise .stackOverflow paren else deeper p) := by
  have hrun : t.run = p := funext hbody.run
  have hinner (m : Machine) :
      (deeper p m).Overflows ↔ (p { m with depth := m.depth + 1 }).Overflows := by
    unfold deeper
    cases p { m with depth := m.depth + 1 } <;> rfl
  constructor
  case run =>
    intro m
    by_cases hfull : m.Full
    · rw [entering_of_full hfull, Run.bind_of_done (Machine.isFull_of_full hfull)]
      rfl
    · rw [entering_of_not_full hfull, Run.bind_of_done (Machine.isFull_of_not_full hfull), ← hrun]
      rfl
  case lenient => exact hbody.lenient.enter paren
  case refusal =>
    intro m
    by_cases hfull : m.Full
    · rw [entering_of_full hfull, Run.bind_of_done (Machine.isFull_of_full hfull)]
      exact ⟨fun _ => ⟨0, _, _, .here (List.mem_singleton_self _)⟩, fun _ => rfl⟩
    · rw [entering_of_not_full hfull, Run.bind_of_done (Machine.isFull_of_not_full hfull)]
      exact (hinner m).trans ((hbody.refusal _).trans refuses_activation.symm)
  case regular =>
    intro m hm
    by_cases hfull : m.Full
    · rw [entering_of_full hfull]
      have hat : m.depth = m.limit := by
        unfold Machine.Full at hfull
        omega
      intro active e hoccurs
      cases hoccurs with
      | here he =>
          cases List.mem_singleton.mp he
          exact ⟨hcall, hfull.1, hat⟩
      | inside he => cases List.mem_singleton.mp he
    · rw [entering_of_not_full hfull]
      have hroom : m.limit = 0 ∨ m.depth < m.limit := by
        unfold Machine.Full at hfull
        omega
      have hinside := hbody.regular { m with depth := m.depth + 1 } hroom
      have hlands := hbody.result { m with depth := m.depth + 1 }
      rw [← hbody.run] at hlands
      exact hinside.activation ⟨hcall, hroom, hlands⟩
  case result =>
    intro m e he
    by_cases hfull : m.Full
    · rw [entering_of_full hfull] at he
      cases List.mem_singleton.mp he
      rfl
    · rw [entering_of_not_full hfull] at he
      cases List.mem_singleton.mp he
      rfl

end Lox.Calls
