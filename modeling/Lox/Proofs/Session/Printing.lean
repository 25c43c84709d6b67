import Lox.Proofs.Objects.Classes
import Lox.Proofs.Prompt.Opening
import Lox.Proofs.Termination.MoreFuel

/-!
Evaluating an expression and printing it in a program.

An expression is evaluated as it was read, a program is resolved first.  Between the steps of
a session that makes no difference to an expression without `this` and `super`: the resolver
stands outside all scopes, so it reports nothing, lists nothing and changes nothing.  The
statement then does what the expression does, and prints the value that it has.
-/

namespace Lox

/-! ## Resolving an expression outside all scopes -/

namespace Resolution

variable {s : State}

theorem State.resolve_state_of_scopes (h : s.scopes = []) (kind : ReferenceKind)
    (key name : Bytes) (r : Reference) : (s.resolve kind key name r).2 = s := by
  unfold State.resolve
  rw [hops?_of_scopes h]

theorem State.use_state_of_scopes (h : s.scopes = []) (r : Reference) : (s.use r).2 = s := by
  have hready : s.isInitializing r.name.lexeme = false := by simp [State.isInitializing, h]
  unfold State.use
  rw [hready]
  exact resolve_state_of_scopes h _ _ _ r

mutual

/-- An expression leaves no trace, unless `this` or `super` is reported as misplaced. -/
theorem expr_state_of_atTop (e : Expr) (h : s.AtTop) (hselves : e.selves = []) :
    (expr s e).2 = s := by
  cases e with
  | absent | literal => rfl
  | grouping span inner | unary span operator inner | get span inner name =>
      exact expr_state_of_atTop inner h hselves
  | binary span operator left right | logical span operator left right =>
      obtain ⟨hleft, hright⟩ := List.append_eq_nil_iff.mp hselves
      simp only [expr_binary, expr_logical, expr_state_of_atTop left h hleft,
        expr_state_of_atTop right h hright]
  | var r => exact State.use_state_of_scopes h.1 r
  | assign target value =>
      rw [expr_assign, expr_state_of_atTop value h hselves]
      exact State.resolve_state_of_scopes h.1 _ _ _ target
  | call span callee paren arguments =>
      obtain ⟨hcallee, harguments⟩ := List.append_eq_nil_iff.mp hselves
      simp only [expr_call, expr_state_of_atTop callee h hcallee,
        exprs_state_of_atTop arguments h harguments]
  | set span object name value =>
      obtain ⟨hobject, hvalue⟩ := List.append_eq_nil_iff.mp hselves
      simp only [expr_set, expr_state_of_atTop value h hvalue,
        expr_state_of_atTop object h hobject]
  | thisRef | superRef => cases hselves

theorem exprs_state_of_atTop (es : List Expr) (h : s.AtTop) (hselves : Expr.selvesList es = []) :
    (exprs s es).2 = s := by
  cases es with
  | nil => rfl
  | cons e rest =>
      obtain ⟨hfirst, hrest⟩ := List.append_eq_nil_iff.mp hselves
      simp only [exprs_cons, expr_state_of_atTop e h hfirst, exprs_state_of_atTop rest h hrest]

end

theorem resolveFrom_print (h : s.AtTop) {e : Expr} (hwf : e.WellFormed) (hselves : e.selves = [])
    (span : Span) :
    (resolveFrom s [.print span e]).1 = ⟨[.print span e], s.entries, []⟩ := by
  have hclear : State.AtTop { s with reported := [] } := h
  simp only [resolveFrom, stmts_cons, stmts_nil, stmt_print, expr_of_atTop e hclear hwf,
    expr_state_of_atTop e hclear hselves]

end Resolution

/-! ## Running the statement -/

/-- The outcome once the value is printed; where there is none, nothing is. -/
def Outcome.printed : Outcome Value → Outcome Unit
  | .done v m => .done () { m with printed := v.display :: m.printed }
  | .fault cause m => .fault cause m

namespace Outcome

variable {out : Outcome Value} {m : Machine}

theorem fault?_printed (out : Outcome Value) : out.printed.fault? = out.fault? := by
  cases out <;> rfl

theorem printed_eq_done_iff : out.printed = .done () m ↔
    ∃ v st, out = .done v st ∧ m = { st with printed := v.display :: st.printed } := by
  cases out with
  | done v st => simp [printed, eq_comm]
  | fault cause st => simp [printed]

theorem printed_eq_fault_iff {cause : Fault} :
    out.printed = .fault cause m ↔ out = .fault cause m := by
  cases out <;> simp [printed]

end Outcome

namespace Machine

open Run (Refines)

theorem output_printed (m : Machine) (line : Bytes) :
    ({ m with printed := line :: m.printed } : Machine).output = m.output ++ line ++ utf8 "\n" := by
  have hnewline : utf8 "\n" = [0x0a] := rfl
  simp [output, Bytes.lines, hnewline]

theorem execProgram_print (n : Nat) (span : Span) (e : Expr) (m : Machine) :
    execProgram (n + 1) [.print span e] m = (eval n e m).printed := by
  change Run.bind (Run.bind (eval n e) _) _ m = _
  unfold Run.bind
  cases eval n e m <;> rfl

/-- Apart from fuel, the outcomes of the statement are those of its expression, printed. -/
theorem exists_execProgram_print_iff (span : Span) (e : Expr) (m : Machine) (out : Outcome Unit)
    (hout : out.fault? ≠ some .outOfFuel) :
    (∃ n, execProgram n [.print span e] m = out) ↔ ∃ n, (eval n e m).printed = out := by
  refine Refines.exists_iff (q := fun n m => (eval n e m).printed) (fun n => ⟨n, ?_⟩)
    (fun n => ⟨n + 1, ?_⟩) m out hout
  · intro m hm
    exact (execProgram_print n span e m).symm.trans (execProgram_refines n _ m hm)
  · intro m _
    exact execProgram_print n span e m

theorem interpret_print {span : Span} {e : Expr} {m : Machine}
    (hfuel : (interpret [.print span e] m).fault? ≠ some .outOfFuel) :
    interpret [.print span e] m = (evaluate e m).printed := by
  obtain ⟨n, hn, hevaluate⟩ := exists_evaluate_eq
  unfold interpret at hfuel ⊢
  rw [hn, execProgram_print] at hfuel ⊢
  rw [hevaluate e m (by rwa [Outcome.fault?_printed] at hfuel)]

end Machine

open Machine in
/--
At every point of a session, printing an expression that was just read, and that has no `this`
or `super` in it, needs nothing of the resolver.  As a program it ends if and only if evaluating
the expression does: without an error in the same state, with the value printed on a line of its
own after what was printed before, and with an error in the same one and in the same state.
-/
theorem print_as_evaluated (natives : List Native) (limit : Nat) (clock : List Int)
    (steps : List Session.Step) {source : Bytes} {e : Expr}
    (hparse : (parseExpression source).1 = some e) (hselves : e.selves = []) (span : Span) :
    let s := (Session.fresh natives limit clock).after steps
    let resolved := (Resolution.resolveFrom s.resolution [.print span e]).1
    (resolved.diagnostics = [] ∧ resolved.entries = s.resolution.entries) ∧
      (∀ st' : Machine, (∃ n, execProgram n resolved.program s.machine = .done () st') ↔
        ∃ (v : Value) (st : Machine), (∃ n, eval n e s.machine = .done v st) ∧
          st' = { st with printed := v.display :: st.printed } ∧
          st'.output = st.output ++ v.display ++ utf8 "\n") ∧
      (∀ (cause : Fault) (st : Machine), cause ≠ .outOfFuel →
        ((∃ n, execProgram n resolved.program s.machine = .fault cause st) ↔
          ∃ n, eval n e s.machine = .fault cause st)) ∧
      ((interpret resolved.program s.machine).fault? ≠ some .outOfFuel →
        interpret resolved.program s.machine = (evaluate e s.machine).printed) := by
  intro s resolved
  have htop : s.resolution.AtTop := ((Session.ready_fresh natives limit clock).after steps).atTop
  have hresolved : resolved = ⟨[.print span e], s.resolution.entries, []⟩ :=
    Resolution.resolveFrom_print htop (parseExpression_wellFormed source e hparse) hselves span
  rw [hresolved]
  refine ⟨⟨rfl, rfl⟩, fun st' => ?_, fun cause st hcause => ?_, interpret_print⟩
  · rw [exists_execProgram_print_iff span e s.machine _ (by simp [Outcome.fault?])]
    simp only [Outcome.printed_eq_done_iff]
    constructor
    · rintro ⟨n, v, st, heval, rfl⟩
      exact ⟨v, st, ⟨n, heval⟩, rfl, output_printed st v.display⟩
    · rintro ⟨v, st, ⟨n, heval⟩, rfl, -⟩
      exact ⟨n, v, st, heval, rfl⟩
  · rw [exists_execProgram_print_iff span e s.machine _ (by simpa [Outcome.fault?] using hcause)]
    simp only [Outcome.printed_eq_fault_iff]

/-- A function that keeps a local variable of the one that makes it. -/
def keepingSteps : List Session.Step :=
  [.run (utf8 "fun f(x) \x7b var s = \"hi \" + x; fun g() \x7b return s; \x7d return g; \x7d")]

def keptExpr : Expr := (parseExpression (utf8 "f(\"you\")()")).1.get (by decide +kernel)

open Machine in
theorem print_as_evaluated_kept :
    let s := (Session.fresh standardNatives 4 []).after keepingSteps
    let resolved := (Resolution.resolveFrom s.resolution [.print {} keptExpr]).1
    (parseExpression (utf8 "f(\"you\")()")).1 = some keptExpr ∧ keptExpr.selves = [] ∧
      ∃ st' : Machine, (∃ n, execProgram n resolved.program s.machine = .done () st') ∧
        st'.output = utf8 "hi you\n" := by
  intro s resolved
  have hparse : (parseExpression (utf8 "f(\"you\")()")).1 = some keptExpr :=
    (Option.some_get _).symm
  have hselves : keptExpr.selves = [] := by decide +kernel
  have hvalue : (match eval 12 keptExpr s.machine with
      | .done v st => v.display == utf8 "hi you" && st.output == []
      | .fault _ _ => false) = true := by decide +kernel
  have hprint := print_as_evaluated standardNatives 4 [] keepingSteps hparse hselves {}
  cases heval : eval 12 keptExpr s.machine with
  | done v st =>
      simp only [heval, Bool.and_eq_true, beq_iff_eq] at hvalue
      obtain ⟨hdisplay, houtput⟩ := hvalue
      refine ⟨hparse, hselves, { st with printed := v.display :: st.printed }, ?_, ?_⟩
      · exact (hprint.2.1 _).mpr ⟨v, st, ⟨12, heval⟩, rfl, output_printed st v.display⟩
      · rw [output_printed, houtput, hdisplay]
        rfl
  | fault cause st => simp [heval] at hvalue

end Lox
