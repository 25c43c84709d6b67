import Lox.Proofs.Calls.Steady

/-!
What a higher limit on calls changes.

A run that the limit does not end goes the same way under any higher limit and without
one.  A run that the limit ends has printed the beginning of what the other prints.
-/

namespace Lox

/-- `limit` lets at least as many calls nest as the positive limit `n`; zero is no limit. -/
def Relaxes (n limit : Nat) : Prop := 0 < n ∧ (limit = 0 ∨ n ≤ limit)

namespace Machine

def Full (m : Machine) : Prop := 0 < m.limit ∧ m.limit ≤ m.depth

theorem Full.of_relaxes {m : Machine} {limit : Nat} (hrelaxes : Relaxes m.limit limit)
    (hfull : (m.withLimit limit).Full) : m.Full := by
  obtain ⟨hpositive, hnone | hle⟩ := hrelaxes
  · have hzero := hfull.1
    simp [withLimit, hnone] at hzero
  · exact ⟨hpositive, Nat.le_trans hle hfull.2⟩

theorem isFull_of_full {m : Machine} (h : m.Full) : isFull m = .done true m := by
  simp [isFull, h.1, h.2]

theorem isFull_of_not_full {m : Machine} (h : ¬m.Full) : isFull m = .done false m := by
  have hfalse : (decide (0 < m.limit) && decide (m.limit ≤ m.depth)) = false := by
    simpa [Full] using h
  rw [isFull, hfalse]

end Machine

namespace Run

structure Lenient (p : Run α) : Prop where
  onward : ∀ m : Machine, m.Onward (p m).machine
  within : ∀ (m : Machine) (limit : Nat), Relaxes m.limit limit → ¬(p m).Overflows →
    p (m.withLimit limit) = (p m).withLimit limit
  beyond : ∀ (m : Machine) (limit : Nat), Relaxes m.limit limit → (p m).Overflows →
    (p m).machine.printed <:+ (p (m.withLimit limit)).machine.printed

theorem Steady.lenient {p : Run α} (h : Steady p) : Lenient p where
  onward := h.onward
  within m limit _ _ := h.blind limit m
  beyond m _ _ hover := (h.calm m hover).elim

namespace Lenient

open Machine

variable {α β : Type} {p : Run α}

theorem bind {f : α → Run β} (hp : Lenient p)
    (hf : ∀ {m v m₁}, p m = .done v m₁ → Lenient (f v)) : Lenient (p >>= f) := by
  have honward (m : Machine) : (p m).machine.Onward ((p >>= f) m).machine := by
    cases hpm : p m with
    | done v m₁ =>
        rw [bind_of_done hpm]
        exact (hf hpm).onward m₁
    | fault cause m₁ =>
        rw [bind_of_fault hpm]
        exact .refl m₁
  constructor
  case onward =>
    intro m
    exact (hp.onward m).trans (honward m)
  case within =>
    intro m limit hrelaxes hcalm
    have hfirst := hp.onward m
    have hwithin := hp.within m limit hrelaxes
    cases hpm : p m with
    | done v m₁ =>
        rw [hpm] at hfirst hwithin
        rw [bind_of_done hpm] at hcalm
        rw [bind_of_done hpm, bind_of_done (hwithin id)]
        rw [← hfirst.limit] at hrelaxes
        exact (hf hpm).within m₁ limit hrelaxes hcalm
    | fault cause m₁ =>
        rw [hpm] at hwithin
        rw [bind_of_fault hpm] at hcalm
        rw [bind_of_fault hpm, bind_of_fault (hwithin hcalm)]
        rfl
  case beyond =>
    intro m limit hrelaxes hover
    have hfirst := hp.onward m
    have hwithin := hp.within m limit hrelaxes
    have hbeyond := hp.beyond m limit hrelaxes
    cases hpm : p m with
    | done v m₁ =>
        rw [hpm] at hfirst hwithin
        rw [bind_of_done hpm] at hover
        rw [bind_of_done hpm, bind_of_done (hwithin id)]
        rw [← hfirst.limit] at hrelaxes
        exact (hf hpm).beyond m₁ limit hrelaxes hover
    | fault cause m₁ =>
        -- the first part printed a beginning of what it prints under the other limit
        rw [hpm] at hbeyond
        rw [bind_of_fault hpm] at hover
        rw [bind_of_fault hpm]
        exact (hbeyond hover).trans (honward (m.withLimit limit)).printed

theorem framed {q : Run α} (start : Machine → Machine) (finish : Machine → Machine → Machine)
    (hq : ∀ m, q m = (p (start m)).onMachine (finish m))
    (hstart : ∀ limit m, start (m.withLimit limit) = (start m).withLimit limit)
    (hlimit : ∀ m, (start m).limit = m.limit)
    (hfinish : ∀ (limit : Nat) (m m' : Machine),
      finish (m.withLimit limit) (m'.withLimit limit) = (finish m m').withLimit limit)
    (hprinted : ∀ m m' : Machine, (finish m m').printed = m'.printed)
    (honward : ∀ m m' : Machine, (start m).Onward m' → m.Onward (finish m m'))
    (hp : Lenient p) : Lenient q := by
  constructor
  case onward =>
    intro m
    rw [hq, Outcome.onMachine_machine]
    exact honward m _ (hp.onward (start m))
  case within =>
    intro m limit hrelaxes hcalm
    rw [hq, Outcome.onMachine_overflows] at hcalm
    rw [← hlimit] at hrelaxes
    rw [hq, hq, hstart, hp.within _ limit hrelaxes hcalm]
    cases p (start m) <;> exact congrArg _ (hfinish limit m _)
  case beyond =>
    intro m limit hrelaxes hover
    rw [hq, Outcome.onMachine_overflows] at hover
    rw [← hlimit] at hrelaxes
    rw [hq, hq, hstart, Outcome.onMachine_machine, Outcome.onMachine_machine, hprinted, hprinted]
    exact hp.beyond _ limit hrelaxes hover

theorem inScope (id : Nat) (hp : Lenient p) : Lenient (inScope id p) := by
  apply framed (fun m => { m with current := id })
    (fun m m' => { m' with current := m.current }) _ _ _ _ _ _ hp
  · intro m
    unfold Machine.inScope
    cases p { m with current := id } <;> rfl
  · exact fun _ _ => rfl
  · exact fun _ => rfl
  · exact fun _ _ _ => rfl
  · exact fun _ _ => rfl
  · exact fun m m' h => ⟨rfl, h.depth, h.limit, h.printed⟩

theorem deeper (hp : Lenient p) : Lenient (deeper p) := by
  apply framed (fun m => { m with depth := m.depth + 1 })
    (fun _ m' => { m' with depth := m'.depth - 1 }) _ _ _ _ _ _ hp
  · intro m
    unfold Machine.deeper
    cases p { m with depth := m.depth + 1 } <;> rfl
  · exact fun _ _ => rfl
  · exact fun _ => rfl
  · exact fun _ _ _ => rfl
  · exact fun _ _ => rfl
  · intro m m' h
    have hdepth : m'.depth - 1 = m.depth := by
      rw [h.depth]
      rfl
    exact ⟨h.current, hdepth, h.limit, h.printed⟩

theorem enter (hp : Lenient p) (paren : Token) :
    Lenient (do if ← isFull then raise .stackOverflow paren else Machine.deeper p) := by
  have honward : ∀ m : Machine, m.Onward
      ((do if ← isFull then raise .stackOverflow paren else Machine.deeper p) m).machine := by
    intro m
    by_cases hfull : m.Full
    · rw [bind_of_done (isFull_of_full hfull)]
      exact .refl m
    · rw [bind_of_done (isFull_of_not_full hfull)]
      exact hp.deeper.onward m
  constructor
  case onward => exact honward
  case within =>
    intro m limit hrelaxes hcalm
    by_cases hfull : m.Full
    · rw [bind_of_done (isFull_of_full hfull)] at hcalm
      exact (hcalm rfl).elim
    · have hroom := mt (Full.of_relaxes hrelaxes) hfull
      rw [bind_of_done (isFull_of_not_full hfull)] at hcalm
      rw [bind_of_done (isFull_of_not_full hfull), bind_of_done (isFull_of_not_full hroom)]
      exact hp.deeper.within m limit hrelaxes hcalm
  case beyond =>
    intro m limit hrelaxes hover
    by_cases hfull : m.Full
    · have hafter := (honward (m.withLimit limit)).printed
      rw [bind_of_done (isFull_of_full hfull)]
      exact hafter
    · have hroom := mt (Full.of_relaxes hrelaxes) hfull
      rw [bind_of_done (isFull_of_not_full hfull)] at hover
      rw [bind_of_done (isFull_of_not_full hfull), bind_of_done (isFull_of_not_full hroom)]
      exact hp.deeper.beyond m limit hrelaxes hover

end Lenient

end Run

end Lox
