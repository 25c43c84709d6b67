import Lox.Proofs.Calls.Sessions

/-!
The limit on calls is exact and otherwise invisible.

Never are more function bodies under way than the limit says, and a call is refused
exactly when it would start one more.  A step that is not ended by the limit goes the same
way under any higher limit and under none.
-/

namespace Lox.Calls

open Session (Step Answer)

/-! ## The calls under way -/

theorem Regular.inside {limit depth : Nat} {log inside : List Event} {callee : Value}
    {arguments : List Value} {answer : Option Value} (h : Regular limit depth log)
    (hmem : .activation callee arguments inside answer ∈ log) :
    Regular limit (depth + 1) inside := by
  intro active e he
  have houter := h (active + 1) e (.inside hmem he)
  rwa [← Nat.add_assoc, Nat.add_right_comm] at houter

theorem Regular.active_le {limit depth active : Nat} {e : Event} {log : List Event}
    (hpositive : 0 < limit) (h : Regular limit depth log) (hdepth : depth ≤ limit)
    (hoccurs : Occurs active e log) : depth + active ≤ limit := by
  induction hoccurs generalizing depth with
  | here => exact hdepth
  | @inside active _ _ _ _ _ _ hmem _ ih =>
      have houter := (h 0 _ (.here hmem)).2.1
      have hinner := ih (h.inside hmem) (by omega)
      omega

/-- An event is a refusal exactly if it calls a function at the limit. -/
theorem Event.Fits.isRefusal_iff {limit active : Nat} {e : Event} (h : e.Fits limit active)
    (hpositive : 0 < limit) {callee : Value} {arguments : List Value}
    (hcall : e.call? = some (callee, arguments)) :
    e.IsRefusal ↔ Activates callee arguments ∧ active = limit := by
  cases e with
  | statement s => cases hcall
  | returned v => cases hcall
  | passed callee' arguments' =>
      cases hcall
      exact ⟨False.elim, fun hactivates => h hactivates.1⟩
  | refused callee' arguments' =>
      cases hcall
      exact ⟨fun _ => ⟨h.1, h.2.2⟩, fun _ => trivial⟩
  | activation callee' arguments' inside answer =>
      cases hcall
      have hroom := h.2.1
      refine ⟨False.elim, fun hat => ?_⟩
      omega

theorem Event.Fits.active_lt {limit active : Nat} {e : Event} (h : e.Fits limit active)
    (hpositive : 0 < limit) (hactivation : e.IsActivation) : active < limit := by
  cases e with
  | activation callee arguments inside answer =>
      have hroom := h.2.1
      omega
  | _ => exact hactivation.elim

/-! ## Other limits -/

theorem Machine.output_prefix {m m' : Machine} (h : m.printed <:+ m'.printed) :
    m.output <+: m'.output := by
  obtain ⟨later, hlater⟩ := h
  rw [Machine.output, Machine.output, ← hlater, List.reverse_append]
  simp [Bytes.lines]

section

variable {s : Session} {limit : Nat}

theorem answer_withLimit (hrelaxes : Relaxes s.machine.limit limit) (step : Step)
    (hcalm : ¬(s.answer step).1.Overflows) :
    (s.withLimit limit).answer step = ((s.answer step).1, (s.answer step).2.withLimit limit) := by
  obtain ⟨α, t, p, finish, h⟩ := exists_conduct s step
  rw [h.answer.1, h.concludes.overflow] at hcalm
  have hsame := h.accounted.lenient.within s.machine limit hrelaxes hcalm
  have hother := h.plain (s.machine.withLimit limit)
  rw [hsame, h.concludes.withLimit, ← h.answer.1] at hother
  exact hother

theorem printed_prefix (hrelaxes : Relaxes s.machine.limit limit) (step : Step)
    (hover : (s.answer step).1.Overflows) :
    (s.answer step).1.printed <+: ((s.withLimit limit).answer step).1.printed := by
  obtain ⟨α, t, p, finish, h⟩ := exists_conduct s step
  rw [h.answer.1, h.concludes.overflow] at hover
  have hbeyond := h.accounted.lenient.beyond s.machine limit hrelaxes hover
  have hother : (s.withLimit limit).answer step = finish (p (s.machine.withLimit limit)) :=
    h.plain (s.machine.withLimit limit)
  rw [h.answer.1, hother, h.concludes.printed, h.concludes.printed]
  exact Machine.output_prefix hbeyond

theorem after_withLimit {n : Nat} (h : Resting n s) (hrelaxes : Relaxes n limit)
    (steps : List Step) (hcalm : ∀ a ∈ s.answers steps, ¬a.Overflows) :
    (s.withLimit limit).answers steps = s.answers steps ∧
      (s.withLimit limit).after steps = (s.after steps).withLimit limit := by
  induction steps generalizing s with
  | nil => exact ⟨rfl, rfl⟩
  | cons step rest ih =>
      have hfirst := hcalm _ (List.mem_cons_self ..)
      have hlater := ih (h.answer step) fun a ha => hcalm a (List.mem_cons_of_mem _ ha)
      rw [← h.limit] at hrelaxes
      have hsame := answer_withLimit hrelaxes step hfirst
      simp only [Session.answers, Session.after_cons, hsame, hlater]
      exact ⟨trivial, trivial⟩

end

/--
Whatever was run before under the positive limit `n`, every call of a step is refused
exactly if it would run a function body inside `n` others, and the step overflows exactly if
a call is refused.  Under a higher limit, or none, an answer without overflow is the same,
and so is the session after it; one with overflow has printed a beginning of the other.
-/
theorem limit_exact_and_invisible (natives : List Native) (clock : List Int) (n : Nat)
    (hpositive : 0 < n) (earlier : List Step) (step : Step) :
    let s := (Session.fresh natives n clock).after earlier
    (answer s step).1 = s.answer step ∧
    (∀ active e, Occurs active e (answer s step).2 →
      active ≤ n ∧ (e.IsActivation → active < n) ∧
        ∀ callee arguments, e.call? = some (callee, arguments) →
          (e.IsRefusal ↔ Activates callee arguments ∧ active = n)) ∧
    ((s.answer step).1.Overflows ↔
      ∃ active e, Occurs active e (answer s step).2 ∧ e.IsRefusal) ∧
    ∀ limit, limit = 0 ∨ n ≤ limit →
      (¬(s.answer step).1.Overflows →
        (s.withLimit limit).answer step =
          ((s.answer step).1, (s.answer step).2.withLimit limit)) ∧
      ((s.answer step).1.Overflows →
        (s.answer step).1.printed <+: ((s.withLimit limit).answer step).1.printed) ∧
      ((∀ a ∈ (Session.fresh natives n clock).answers earlier, ¬a.Overflows) →
        (Session.fresh natives limit clock).answers earlier =
            (Session.fresh natives n clock).answers earlier ∧
          (Session.fresh natives limit clock).after earlier = s.withLimit limit) := by
  intro s
  have hfresh := resting_fresh natives n clock
  have hrest : Resting n s := hfresh.after earlier
  have hregular := hrest.regular step
  refine ⟨answer_eq s step, ?_, ?_, ?_⟩
  · intro active e hoccurs
    have hfits := hregular active e hoccurs
    have hle := hregular.active_le hpositive (Nat.zero_le n) hoccurs
    rw [Nat.zero_add] at hfits hle
    exact ⟨hle, hfits.active_lt hpositive, fun _ _ => hfits.isRefusal_iff hpositive⟩
  · rw [overflows_iff_refuses]
    constructor
    · rintro ⟨active, callee, arguments, hoccurs⟩
      exact ⟨active, _, hoccurs, trivial⟩
    · rintro ⟨active, e, hoccurs, hrefusal⟩
      cases e with
      | refused callee arguments => exact ⟨active, callee, arguments, hoccurs⟩
      | _ => exact hrefusal.elim
  · intro limit hlimit
    have hrelaxes : Relaxes n limit := ⟨hpositive, hlimit⟩
    have hhere : Relaxes s.machine.limit limit := by rwa [hrest.limit]
    exact ⟨answer_withLimit hhere step, printed_prefix hhere step,
      after_withLimit hfresh hrelaxes earlier⟩

def chainSource : Bytes :=
  utf8 "fun f() \x7b print \"f\"; g(); \x7d fun g() \x7b print \"g\"; C(); \x7d
    class C \x7b init() \x7b print \"init\"; \x7d \x7d"

theorem limit_exact_and_invisible_chain :
    let s := (Session.fresh Machine.standardNatives 2 []).after [.run chainSource]
    0 < 2 ∧ ¬(s.answer (.run (utf8 "g();"))).1.Overflows ∧
      (s.withLimit 0).answer (.run (utf8 "g();")) =
        ((s.answer (.run (utf8 "g();"))).1, (s.answer (.run (utf8 "g();"))).2.withLimit 0) ∧
      (s.answer (.run (utf8 "f();"))).1.Overflows ∧
      (s.answer (.run (utf8 "f();"))).1.printed <+:
        ((s.withLimit 3).answer (.run (utf8 "f();"))).1.printed := by
  have hpositive : 0 < 2 := by decide
  have hcalm : ¬(((Session.fresh Machine.standardNatives 2 []).after
      [.run chainSource]).answer (.run (utf8 "g();"))).1.Overflows := by
    rw [Answer.overflows_iff]
    decide +kernel
  have hover : (((Session.fresh Machine.standardNatives 2 []).after
      [.run chainSource]).answer (.run (utf8 "f();"))).1.Overflows := by
    rw [Answer.overflows_iff]
    decide +kernel
  have hg := limit_exact_and_invisible Machine.standardNatives [] 2 hpositive
    [.run chainSource] (.run (utf8 "g();"))
  have hf := limit_exact_and_invisible Machine.standardNatives [] 2 hpositive
    [.run chainSource] (.run (utf8 "f();"))
  exact ⟨hpositive, hcalm, (hg.2.2.2 0 (.inl rfl)).1 hcalm, hover,
    (hf.2.2.2 3 (.inr (by decide))).2.1 hover⟩

/-- The class is refused inside `f` and `g`, and its initializer runs under a higher limit. -/
example :
    let s := (Session.fresh Machine.standardNatives 2 []).after [.run chainSource]
    [s, s.withLimit 3].map (fun s => (s.answer (.run (utf8 "f();"))).1.printed) =
      [utf8 "f\ng\n", utf8 "f\ng\ninit\n"] := by decide +kernel

end Lox.Calls
