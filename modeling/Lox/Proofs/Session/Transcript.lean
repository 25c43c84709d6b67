import Lox.Proofs.Check
import Lox.Proofs.Resolution.Incremental
import Lox.Session

/-!
Sequences of session steps and the answers to them.

Every step is answered with what it printed, which is then forgotten.  Between two steps
the resolver is outside all scopes; what it keeps of earlier sources, its list of
references, has no influence on later answers.
-/

namespace Lox

namespace Session

inductive Step where
  | run (source : Bytes)
  | evaluate (source : Bytes)
  | globals
  deriving DecidableEq, Repr

structure Answer where
  printed : Bytes
  value : Option Value := none
  report : Report := {}
  globals : List Bytes := []

def fresh (natives : List Native) (limit : Nat) (clock : List Int) : Session where
  machine := .start natives limit clock

def answer (s : Session) : Step → Answer × Session
  | .run source =>
      let (report, s) := s.run source
      let (printed, s) := s.takeOutput
      ({ printed, report }, s)
  | .evaluate source =>
      let (value, report, s) := s.evaluate source
      let (printed, s) := s.takeOutput
      ({ printed, value, report }, s)
  | .globals =>
      let globals := s.globals
      let (printed, s) := s.takeOutput
      ({ printed, globals }, s)

def answers (s : Session) : List Step → List Answer
  | [] => []
  | step :: rest => (s.answer step).1 :: answers (s.answer step).2 rest

def after (s : Session) (steps : List Step) : Session :=
  steps.foldl (fun s step => (s.answer step).2) s

@[simp] theorem after_nil (s : Session) : s.after [] = s := rfl

@[simp] theorem after_cons (s : Session) (step : Step) (rest : List Step) :
    s.after (step :: rest) = (s.answer step).2.after rest := rfl

@[simp] theorem length_answers (s : Session) (steps : List Step) :
    (s.answers steps).length = steps.length := by
  induction steps generalizing s with
  | nil => rfl
  | cons step rest ih => simp [answers, ih]

/-! ## Between steps -/

/-- Outside all scopes, and nothing printed that was not answered. -/
structure Ready (s : Session) : Prop where
  atTop : s.resolution.AtTop
  printed : s.machine.printed = []

theorem ready_fresh (natives : List Native) (limit : Nat) (clock : List Int) :
    (fresh natives limit clock).Ready :=
  ⟨⟨rfl, rfl, rfl⟩, rfl⟩

theorem run_atTop {s : Session} (h : s.resolution.AtTop) (source : Bytes) :
    (s.run source).2.resolution.AtTop := by
  have htop := checkFrom_atTop h source
  unfold run
  dsimp only
  split
  · exact htop
  · split <;> exact htop

theorem evaluate_resolution (s : Session) (source : Bytes) :
    (s.evaluate source).2.2.resolution = s.resolution := by
  unfold evaluate
  dsimp only
  split
  · rfl
  · split <;> rfl

theorem Ready.answer {s : Session} (h : s.Ready) (step : Step) : (s.answer step).2.Ready := by
  cases step with
  | run source => exact ⟨run_atTop h.atTop source, rfl⟩
  | evaluate source =>
      refine ⟨?_, rfl⟩
      have htop := h.atTop
      rw [← evaluate_resolution s source] at htop
      exact htop
  | globals => exact ⟨h.atTop, rfl⟩

theorem Ready.after {s : Session} (h : s.Ready) (steps : List Step) : (s.after steps).Ready := by
  induction steps generalizing s with
  | nil => exact h
  | cons step rest ih => exact ih (h.answer step)

/-! ## The log of the resolver has no influence -/

end Session

theorem checkFrom_eq_check {s : Resolution.State} (h : s.AtTop) (source : Bytes) :
    (checkFrom s source).1.program = (check source).program ∧
      (checkFrom s source).1.report = (check source).report := by
  unfold check
  by_cases hparse : (parse source).2.diagnostics = []
  · have hresolved := Resolution.resolveFrom_eq_of_atTop h (parse source).1
    rw [checkFrom_eq_of_parse_clean hparse, checkFrom_eq_of_parse_clean hparse]
    dsimp only
    rw [hresolved]
    exact ⟨rfl, rfl⟩
  · rw [checkFrom_eq_of_parse_failed hparse, checkFrom_eq_of_parse_failed hparse]
    exact ⟨rfl, rfl⟩

namespace Session

structure Like (s t : Session) : Prop where
  machine : s.machine = t.machine
  left : s.Ready
  right : t.Ready

theorem run_eq_of_atTop {s : Session} (h : s.resolution.AtTop) (source : Bytes) :
    (s.run source).1 = (run { machine := s.machine } source).1 ∧
      (s.run source).2.machine = (run { machine := s.machine } source).2.machine := by
  obtain ⟨hprogram, hreport⟩ := checkFrom_eq_check h source
  unfold run
  dsimp only
  rw [hprogram, hreport]
  unfold check
  split
  · exact ⟨rfl, rfl⟩
  · split <;> exact ⟨rfl, rfl⟩

theorem evaluate_eq (s : Session) (source : Bytes) :
    (s.evaluate source).1 = (evaluate { machine := s.machine } source).1 ∧
      (s.evaluate source).2.1 = (evaluate { machine := s.machine } source).2.1 ∧
      (s.evaluate source).2.2.machine =
        (evaluate { machine := s.machine } source).2.2.machine := by
  unfold evaluate
  dsimp only
  split
  · exact ⟨rfl, rfl, rfl⟩
  · split <;> exact ⟨rfl, rfl, rfl⟩

/-- An answer, and the machine after it, depend on the machine before it only. -/
theorem Like.answer {s t : Session} (h : Like s t) (step : Step) :
    (s.answer step).1 = (t.answer step).1 ∧ Like (s.answer step).2 (t.answer step).2 := by
  have hstep : (s.answer step).1 = (t.answer step).1 ∧
      (s.answer step).2.machine = (t.answer step).2.machine := by
    cases step with
    | run source =>
        obtain ⟨hs, hms⟩ := run_eq_of_atTop h.left.atTop source
        obtain ⟨ht, hmt⟩ := run_eq_of_atTop h.right.atTop source
        simp only [Session.answer, takeOutput, hs, ht, hms, hmt, h.machine]
        exact ⟨trivial, trivial⟩
    | evaluate source =>
        obtain ⟨hs, hrs, hms⟩ := evaluate_eq s source
        obtain ⟨ht, hrt, hmt⟩ := evaluate_eq t source
        simp only [Session.answer, takeOutput, hs, ht, hrs, hrt, hms, hmt, h.machine]
        exact ⟨trivial, trivial⟩
    | globals =>
        simp only [Session.answer, takeOutput, globals, h.machine]
        exact ⟨trivial, trivial⟩
  exact ⟨hstep.1, hstep.2, h.left.answer step, h.right.answer step⟩

theorem Like.answers {s t : Session} (h : Like s t) (steps : List Step) :
    s.answers steps = t.answers steps := by
  induction steps generalizing s t with
  | nil => rfl
  | cons step rest ih =>
      obtain ⟨hanswer, hlike⟩ := h.answer step
      simp only [Session.answers, hanswer, ih hlike]

end Session

end Lox
