import Lox.Proofs.Calls.Evaluation
import Lox.Proofs.Instances.Points

/-!
The calls in a log are made at points.

The log of a run tells of every call that is made in it, also of those that do not get to run
a body.  Each of them is made at a point that the run reaches, so what holds at all points holds
of all calls of a session.
-/

namespace Lox.Instances

open Calls (Event Occurs occurs_append)
open Recorded (Place Quiet Traced eval evalList callValue callClosure exec execList execLoop
  execProgram)

/-- Every call in the log is made at a point. -/
def Placed (log : List Event) : Prop :=
  ∀ active e f vs, Occurs active e log → e.call? = some (f, vs) →
    ∃ n paren m hand, Reached ⟨.call n f vs paren, m, hand⟩

namespace Placed

variable {α β : Type} {m : Machine} {f : Value} {vs : List Value}

theorem nil : Placed [] := fun _ _ _ _ hoccurs => absurd hoccurs Calls.Occurs.of_nil

theorem quiet {t : Traced Event α} {p : Run α} (h : Quiet t p) : Placed (t m).2 := by
  rw [h m]
  exact nil

theorem append {front log : List Event} (hfront : Placed front) (hlog : Placed log) :
    Placed (front ++ log) := by
  intro active e f vs hoccurs hcall
  rcases occurs_append.mp hoccurs with hoccurs | hoccurs
  · exact hfront active e f vs hoccurs hcall
  · exact hlog active e f vs hoccurs hcall

theorem cons {e : Event} {log : List Event} (he : Placed [e]) (hlog : Placed log) :
    Placed (e :: log) :=
  he.append hlog

/-! ### Events -/

theorem single {e : Event} (hflat : ¬e.IsActivation)
    (h : ∀ f vs, e.call? = some (f, vs) →
      ∃ n paren m hand, Reached ⟨.call n f vs paren, m, hand⟩) : Placed [e] := by
  intro active e' f vs hoccurs hcall
  cases hoccurs with
  | here he =>
      cases List.mem_singleton.mp he
      exact h f vs hcall
  | inside he =>
      cases List.mem_singleton.mp he
      exact absurd trivial hflat

theorem activation {n : Nat} {paren : Token} {hand : List Value} {inside : List Event}
    {answer : Option Value} (h : Reached ⟨.call n f vs paren, m, hand⟩)
    (hinside : Placed inside) : Placed [.activation f vs inside answer] := by
  intro active e f' vs' hoccurs hcall
  cases hoccurs with
  | here he =>
      cases List.mem_singleton.mp he
      cases hcall
      exact ⟨n, paren, m, hand, h⟩
  | inside he hdeeper =>
      cases List.mem_singleton.mp he
      exact hinside _ e f' vs' hdeeper hcall

theorem entering {n : Nat} {paren paren' : Token} {m' : Machine} {hand : List Value}
    {body : Traced Event Value} (h : Reached ⟨.call n f vs paren, m, hand⟩)
    (hbody : ¬m'.Full → Placed (body { m' with depth := m'.depth + 1 }).2) :
    Placed (Calls.entering f vs paren' body m').2 := by
  by_cases hfull : m'.Full
  · rw [Calls.entering_of_full hfull]
    refine single id fun g ws hcall => ?_
    cases hcall
    exact ⟨n, paren, m, hand, h⟩
  · rw [Calls.entering_of_not_full hfull]
    exact activation h (hbody hfull)

theorem passed {n : Nat} {paren : Token} {hand : List Value} {run : Traced Event α}
    (h : Reached ⟨.call n f vs paren, m, hand⟩) {m' : Machine} (hrun : Placed (run m').2) :
    Placed (Traced.noting (.passed f vs) run m').2 := by
  refine cons (single id fun g ws hcall => ?_) hrun
  cases hcall
  exact ⟨n, paren, m, hand, h⟩

theorem statement {s : Stmt} {run : Traced Event α} (hrun : Placed (run m).2) :
    Placed (Traced.noting (.statement s) run m).2 :=
  cons (single id fun _ _ hcall => by cases hcall) hrun

theorem returned {v : Value} {run : Traced Event α} (hrun : Placed (run m).2) :
    Placed (Traced.noting (.returned v) run m).2 :=
  cons (single id fun _ _ hcall => by cases hcall) hrun

/-! ### Parts of a run -/

theorem bind {first : Traced Event α} {rest : α → Traced Event β} (hfirst : Placed (first m).2)
    (hrest : ∀ v m₁, (first m).1 = .done v m₁ → Placed (rest v m₁).2) :
    Placed ((first >>= rest) m).2 := by
  change Placed ((first m).2 ++ Traced.next rest (first m).1)
  refine hfirst.append ?_
  cases hrun : (first m).1 with
  | done v m₁ => exact hrest v m₁ hrun
  | fault cause m₁ => exact nil

theorem ite {c : Prop} [Decidable c] {run run' : Traced Event α} (h : c → Placed (run m).2)
    (h' : ¬c → Placed (run' m).2) : Placed ((if c then run else run') m).2 := by
  split
  · exact h ‹_›
  · exact h' ‹_›

theorem inScope {id : Nat} {t : Traced Event α} (h : Placed (t { m with current := id }).2) :
    Placed (Traced.inScope id t m).2 := by
  have hlog : (Traced.inScope id t m).2 = (t { m with current := id }).2 := List.append_nil _
  rwa [hlog]

end Placed

/-! ## Evaluation -/

mutual

theorem eval_placed {m : Machine} {hand : List Value} (n : Nat) (place : Place) (e : Expr)
    (h : Reached ⟨.eval n e, m, hand⟩) : Placed ((eval n place e : Traced Event Value) m).2 := by
  match n with
  | 0 => exact .nil
  | n + 1 =>
      cases e with
      | absent | literal | var | thisRef => exact .nil
      | superRef r method => exact .quiet (.getSuper r method)
      | grouping span inner => exact eval_placed n place inner (h.goes .grouping)
      | unary span operator operand =>
          refine .bind (eval_placed n place operand (h.goes .operand)) fun v m₁ hv => ?_
          exact .nil
      | binary span operator left right =>
          refine .bind (eval_placed n place left (h.goes .left)) fun v m₁ hv => ?_
          rw [(Calls.eval_accounted n place left).run] at hv
          refine .bind (eval_placed n place right (h.goes (.right hv))) fun w m₂ hw => ?_
          exact .nil
      | logical span operator left right =>
          refine .bind (eval_placed n place left (h.goes .decider)) fun v m₁ hv => ?_
          rw [(Calls.eval_accounted n place left).run] at hv
          refine .ite (fun _ => .nil) fun hopen => ?_
          exact eval_placed n place right (h.goes (.undecided hv (Bool.eq_false_iff.mpr hopen)))
      | assign target value =>
          refine .bind (eval_placed n place value (h.goes .assigned)) fun v m₁ hv => ?_
          exact .bind .nil fun _ _ _ => .nil
      | call span callee paren arguments =>
          refine .bind (eval_placed n place callee (h.goes .callee)) fun f m₁ hf => ?_
          rw [(Calls.eval_accounted n place callee).run] at hf
          refine .bind (evalList_placed n place arguments (h.goes (.arguments hf)))
            fun vs m₂ hvs => ?_
          rw [(Calls.evalList_accounted n place arguments).run] at hvs
          exact callValue_placed n f vs paren (h.goes (.call hf hvs))
      | get span object name =>
          refine .bind (eval_placed n place object (h.goes .owner)) fun v m₁ hv => ?_
          cases v with
          | object id c => exact .quiet (.getProperty id c name)
          | _ => exact .nil
      | set span object name value =>
          refine .bind (eval_placed n place object (h.goes .receiver)) fun u m₁ hu => ?_
          rw [(Calls.eval_accounted n place object).run] at hu
          cases u with
          | object id c =>
              refine .bind (eval_placed n place value (h.goes (.stored hu))) fun v m₂ hv => ?_
              exact .bind .nil fun _ _ _ => .nil
          | _ => exact .nil
termination_by structural n

theorem evalList_placed {m : Machine} {hand : List Value} (n : Nat) (place : Place)
    (es : List Expr) (h : Reached ⟨.evalList n es, m, hand⟩) :
    Placed ((evalList n place es : Traced Event (List Value)) m).2 := by
  match n with
  | 0 => exact .nil
  | n + 1 =>
      cases es with
      | nil => exact .nil
      | cons e rest =>
          refine .bind (eval_placed n place e (h.goes .first)) fun v m₁ hv => ?_
          rw [(Calls.eval_accounted n place e).run] at hv
          refine .bind (evalList_placed n place rest (h.goes (.others hv))) fun vs m₂ hvs => ?_
          exact .nil
termination_by structural n

theorem callValue_placed {m : Machine} {hand : List Value} (n : Nat) (f : Value)
    (vs : List Value) (paren : Token) (h : Reached ⟨.call n f vs paren, m, hand⟩) :
    Placed ((callValue n f vs paren : Traced Event Value) m).2 := by
  match n with
  | 0 => exact .nil
  | n + 1 =>
      cases f with
      | native g => exact .passed h (.ite (fun _ => .nil) fun _ => .nil)
      | function id code =>
          refine .ite (fun _ => .passed h .nil) fun harity => ?_
          exact callClosure_placed n none code paren h (h.goes (.function (not_not.mp harity)))
      | classObject c =>
          refine .ite (fun _ => .passed h .nil) fun harity => ?_
          refine .bind (.quiet (.newObject c)) fun object m₁ hobject => ?_
          rw [Quiet.newObject c m] at hobject
          cases hinit : c.initializer? with
          | none => exact .passed h .nil
          | some method =>
              refine .bind (.quiet (.bindThis method object)) fun code m₂ hcode => ?_
              rw [Quiet.bindThis method object m₁] at hcode
              have hbody := h.goes (.construction (not_not.mp harity) hinit hobject hcode)
              exact .bind (callClosure_placed n _ code paren h hbody) fun _ _ _ => .nil
      | _ => exact .passed h .nil
termination_by structural n

theorem callClosure_placed {m m₀ : Machine} {hand hand₀ : List Value} {n₀ : Nat} {f : Value}
    {vs : List Value} (n : Nat) (home : Option Home) (code : Closure) (paren : Token)
    (hcall : Reached ⟨.call n₀ f vs paren, m₀, hand₀⟩)
    (h : Reached ⟨.body n code vs paren, m, hand⟩) :
    Placed ((callClosure n home f code vs paren : Traced Event Value) m).2 := by
  match n with
  | 0 => exact .nil
  | n + 1 =>
      rw [callClosure]
      refine .entering hcall fun hroom => .bind .nil fun bindings m₁ hbind => ?_
      refine .bind .nil fun scope m₂ hscope => ?_
      have hbody := h.goes (.activation (Machine.isFull_of_not_full hroom) hbind hscope)
      refine .bind (.inScope (execList_placed n home code.declaration.body hbody))
        fun signal m₃ _ => ?_
      refine .ite (fun _ => .nil) fun _ => ?_
      cases signal <;> exact .nil
termination_by structural n

theorem exec_placed {m : Machine} {hand : List Value} (n : Nat) (home : Option Home) (s : Stmt)
    (h : Reached ⟨.exec n s, m, hand⟩) : Placed ((exec n home s : Traced Event Signal) m).2 := by
  match n with
  | 0 => exact .nil
  | n + 1 =>
      refine .statement ?_
      cases s with
      | expression span e =>
          exact .bind (eval_placed n _ e (h.goes .expression)) fun _ _ _ => .nil
      | print span e =>
          refine .bind (eval_placed n _ e (h.goes .print)) fun v m₁ _ => ?_
          exact .bind .nil fun _ _ _ => .nil
      | var span name initial =>
          cases initial with
          | none => exact .bind .nil fun _ _ _ => .nil
          | some e =>
              refine .bind (eval_placed n _ e (h.goes .initial)) fun v m₁ _ => ?_
              exact .bind .nil fun _ _ _ => .nil
      | block span body =>
          refine .bind .nil fun outer m₁ houter => ?_
          cases houter
          refine .bind .nil fun scope m₂ hscope => ?_
          exact .inScope (execList_placed n home body (h.goes (.block hscope)))
      | branch span condition onTrue onFalse =>
          refine .bind (eval_placed n _ condition (h.goes .condition)) fun v m₁ hv => ?_
          rw [(Calls.eval_accounted n _ condition).run] at hv
          refine .ite (fun htrue => ?_) fun hfalse => ?_
          · exact exec_placed n home onTrue (h.goes (.onTrue hv htrue))
          cases onFalse with
          | none => exact .nil
          | some s =>
              exact exec_placed n home s (h.goes (.onFalse hv (Bool.eq_false_iff.mpr hfalse)))
      | loop span condition body => exact execLoop_placed n home condition body (h.goes .loop)
      | function f =>
          refine .bind .nil fun _ _ _ => .bind (.quiet (.functionOf _ _)) fun _ _ _ => ?_
          exact .bind .nil fun _ _ _ => .nil
      | ret span keyword value =>
          cases value with
          | none => exact .returned .nil
          | some e =>
              exact .bind (eval_placed n _ e (h.goes .returned)) fun v m₁ _ => .returned .nil
      | classDecl span name superclass methods =>
          cases superclass with
          | none => exact .bind (.quiet (.declareClass _ _ _ _ _)) fun _ _ _ => .nil
          | some r =>
              refine .bind .nil fun v m₁ _ => ?_
              cases v with
              | classObject c => exact .bind (.quiet (.declareClass _ _ _ _ _)) fun _ _ _ => .nil
              | _ => exact .nil
termination_by structural n

theorem execList_placed {m : Machine} {hand : List Value} (n : Nat) (home : Option Home)
    (body : List Stmt) (h : Reached ⟨.execList n body, m, hand⟩) :
    Placed ((execList n home body : Traced Event Signal) m).2 := by
  match n with
  | 0 => exact .nil
  | n + 1 =>
      cases body with
      | nil => exact .nil
      | cons s rest =>
          refine .bind (exec_placed n home s (h.goes .statement)) fun signal m₁ hs => ?_
          rw [(Calls.exec_accounted n home s).run] at hs
          cases signal with
          | returned v => exact .nil
          | normal => exact execList_placed n home rest (h.goes (.statements hs))
termination_by structural n

theorem execLoop_placed {m : Machine} {hand : List Value} (n : Nat) (home : Option Home)
    (condition : Expr) (body : Stmt) (h : Reached ⟨.loop n condition body, m, hand⟩) :
    Placed ((execLoop n home condition body : Traced Event Signal) m).2 := by
  match n with
  | 0 => exact .nil
  | n + 1 =>
      refine .bind (eval_placed n _ condition (h.goes .test)) fun v m₁ hv => ?_
      rw [(Calls.eval_accounted n _ condition).run] at hv
      refine .ite (fun htrue => ?_) fun _ => .nil
      refine .bind (exec_placed n home body (h.goes (.round hv htrue))) fun signal m₂ hs => ?_
      rw [(Calls.exec_accounted n home body).run] at hs
      cases signal with
      | returned v => exact .nil
      | normal => exact execLoop_placed n home condition body (h.goes (.rounds hv htrue hs))
termination_by structural n

end

theorem execProgram_placed {m : Machine} {hand : List Value} (n : Nat) (program : List Stmt)
    (h : Reached ⟨.program n program, m, hand⟩) :
    Placed ((execProgram n program : Traced Event Unit) m).2 := by
  induction program generalizing m with
  | nil => exact .nil
  | cons s rest ih =>
      refine .bind (exec_placed n none s (h.goes .declaration)) fun signal m₁ hs => ?_
      rw [(Calls.exec_accounted n none s).run] at hs
      exact ih (h.goes (.declarations hs))

/-! ## Sessions -/

theorem run_placed {s : Session} (h : Idle s.machine) (source : Bytes) :
    Placed (Recorded.run s source).2 := by
  have hprogram := Reached.program h (isProgram_checked s.resolution source) Machine.ample
  have hplaced := execProgram_placed _ _ hprogram
  unfold Recorded.run
  dsimp only
  split
  · exact .nil
  · split <;> next heq => rwa [heq] at hplaced

theorem evaluate_placed {s : Session} (h : Idle s.machine) (source : Bytes) :
    Placed (Recorded.evaluate s source).2 := by
  unfold Recorded.evaluate
  dsimp only
  split
  · exact .nil
  next hread =>
    obtain ⟨e, he⟩ := exists_parseExpression_eq (Bool.eq_false_iff.mpr hread)
    have hplaced := eval_placed _ { checked := false } _
      (.expression h (isExpression_parse he) Machine.ample)
    rw [he, Option.getD_some]
    split <;> next heq => rwa [heq] at hplaced

/-- Every call of a session is made at a point. -/
theorem calls_placed {s : Session} (h : Idle s.machine) (steps : List Session.Step)
    (step : Session.Step) : Placed (Calls.answer (s.after steps) step).2 := by
  have hidle := idle_after h steps
  cases step with
  | run source => exact run_placed hidle source
  | evaluate source => exact evaluate_placed hidle source
  | globals => exact .nil

end Lox.Instances
