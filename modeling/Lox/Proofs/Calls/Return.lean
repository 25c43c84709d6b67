import Lox.Proofs.Calls.Sessions

/-!
A `return` ends the nearest call and nothing else.

The resolver lets no `return` stand outside of functions, so no statement of a checked
program ends by one.  Inside a function the log of the body shows that the first `return`
is the last statement and that its value is the value of the call.
-/

namespace Lox

/-! ## Statements without `return` -/

mutual

/-- No `return` stands in the statement, but for those inside of functions. -/
def Stmt.ReturnFree : Stmt → Prop
  | .ret _ _ _ => False
  | .block _ body => Stmt.ReturnFreeList body
  | .branch _ _ onTrue none => onTrue.ReturnFree
  | .branch _ _ onTrue (some onFalse) => onTrue.ReturnFree ∧ onFalse.ReturnFree
  | .loop _ _ body => body.ReturnFree
  | .expression _ _ | .print _ _ | .var _ _ _ | .function _ | .classDecl _ _ _ _ => True

def Stmt.ReturnFreeList : List Stmt → Prop
  | [] => True
  | s :: rest => s.ReturnFree ∧ Stmt.ReturnFreeList rest

end

theorem Stmt.ReturnFreeList.of_mem {body : List Stmt} (h : Stmt.ReturnFreeList body) {s : Stmt}
    (hs : s ∈ body) : s.ReturnFree := by
  induction body with
  | nil => cases hs
  | cons first rest ih =>
      simp only [Stmt.ReturnFreeList] at h
      rcases List.mem_cons.mp hs with rfl | hs
      · exact h.1
      · exact ih h.2 hs

namespace Resolution

theorem beforeReturn_reports {s : State} (hrole : s.function = .none) (keyword : Token)
    (value : Option Expr) : (s.beforeReturn keyword value).reported ≠ s.reported := by
  simp [State.beforeReturn, hrole, State.report]

mutual

theorem stmt_returnFree (s : State) (st : Stmt) (hrole : s.function = .none)
    (hclean : (stmt s st).2.reported = s.reported) : (stmt s st).1.ReturnFree := by
  cases st with
  | expression | print | var | function => trivial
  | block span body => exact stmts_returnFree s.openScope body hrole hclean
  | branch span condition onTrue onFalse =>
      have hcondition : (expr s condition).2.function = .none :=
        (State.function_of_core (expr_core s condition)).trans hrole
      cases onFalse with
      | none =>
          obtain ⟨-, htrue⟩ := clean_split (expr_reported s condition)
            (stmt_reported (expr s condition).2 onTrue) hclean
          exact stmt_returnFree _ onTrue hcondition htrue
      | some onFalse =>
          have hpre := (expr_reported s condition).trans
            (stmt_reported (expr s condition).2 onTrue)
          obtain ⟨hfirst, hfalse⟩ := clean_split hpre (stmt_reported _ onFalse) hclean
          obtain ⟨-, htrue⟩ := clean_split (expr_reported s condition)
            (stmt_reported (expr s condition).2 onTrue) hfirst
          have hafter := (stmt_sameFrame (expr s condition).2 onTrue).function.trans hcondition
          exact ⟨stmt_returnFree _ onTrue hcondition htrue,
            stmt_returnFree _ onFalse hafter hfalse⟩
  | loop span condition body =>
      obtain ⟨-, hbody⟩ := clean_split (expr_reported s condition)
        (stmt_reported (expr s condition).2 body) hclean
      have hcondition := (State.function_of_core (expr_core s condition)).trans hrole
      exact stmt_returnFree _ body hcondition hbody
  | ret span keyword value =>
      obtain ⟨hkeyword, -⟩ := clean_split (beforeReturn_reported s keyword value)
        (expr?_reported _ value) hclean
      exact (beforeReturn_reports hrole keyword value hkeyword).elim
  | classDecl span name parent methods => cases parent <;> trivial

theorem stmts_returnFree (s : State) (body : List Stmt) (hrole : s.function = .none)
    (hclean : (stmts s body).2.reported = s.reported) :
    Stmt.ReturnFreeList (stmts s body).1 := by
  cases body with
  | nil => trivial
  | cons st rest =>
      obtain ⟨hfirst, hrest⟩ :=
        clean_split (stmt_reported s st) (stmts_reported (stmt s st).2 rest) hclean
      have hafter := (stmt_sameFrame s st).function.trans hrole
      exact ⟨stmt_returnFree s st hrole hfirst, stmts_returnFree _ rest hafter hrest⟩

end

end Resolution

theorem checkFrom_returnFree {s : Resolution.State} (h : s.AtTop) {source : Bytes}
    (hclean : (checkFrom s source).1.report.diagnostics = []) :
    Stmt.ReturnFreeList (checkFrom s source).1.program := by
  by_cases hparse : (parse source).2.diagnostics = []
  · rw [checkFrom_eq_of_parse_clean hparse] at hclean ⊢
    exact Resolution.stmts_returnFree { s with reported := [] } _ h.2.1 hclean
  · rw [checkFrom_eq_of_parse_failed hparse] at hclean
    exact absurd hclean hparse

/-! ## Running them -/

def Run.Normal (p : Run Signal) : Prop := ∀ m v m', p m ≠ .done (.returned v) m'

namespace Run.Normal

variable {α : Type}

theorem normal : Normal (pure .normal) := fun _ _ _ h => nomatch h

theorem stop (cause : Fault) : Normal (Machine.stop cause) := fun _ _ _ h => nomatch h

theorem bind {p : Run α} {f : α → Run Signal} (hf : ∀ v, Normal (f v)) : Normal (p >>= f) := by
  intro m v m' h
  cases hpm : p m with
  | done u m₁ =>
      rw [bind_of_done hpm] at h
      exact hf u m₁ v m' h
  | fault cause m₁ =>
      rw [bind_of_fault hpm] at h
      cases h

theorem unlessReturned {p p' : Run Signal} (hp : Normal p) (hrest : Normal p') :
    Normal (do
      match ← p with
      | .returned v => return .returned v
      | .normal => p') := by
  intro m v m' h
  cases hpm : p m with
  | done signal m₁ =>
      rw [bind_of_done hpm] at h
      cases signal with
      | normal => exact hrest m₁ v m' h
      | returned u => exact hp m u m₁ hpm
  | fault cause m₁ =>
      rw [bind_of_fault hpm] at h
      cases h

theorem inScope {p : Run Signal} (id : Nat) (hp : Normal p) : Normal (Machine.inScope id p) := by
  intro m v m' h
  unfold Machine.inScope at h
  cases hpm : p { m with current := id } with
  | done signal m₁ =>
      rw [hpm] at h
      cases h
      exact hp _ v m₁ hpm
  | fault cause m₁ =>
      rw [hpm] at h
      cases h

end Run.Normal

namespace Machine

open Run (Normal)

mutual

theorem exec_normal (n : Nat) (s : Stmt) (h : s.ReturnFree) : Normal (exec n s) := by
  match n with
  | 0 => exact .stop _
  | n + 1 =>
      cases s with
      | expression span e => exact .bind fun _ => .normal
      | print span e => exact .bind fun _ => .bind fun _ => .normal
      | var span name initial =>
          cases initial with
          | none => exact .bind fun _ => .normal
          | some e => exact .bind fun _ => .bind fun _ => .normal
      | block span body =>
          exact .bind fun _ => .bind fun scope => .inScope scope (execList_normal n body h)
      | branch span condition onTrue onFalse =>
          apply Normal.bind
          intro v
          cases onFalse with
          | none =>
              split
              · exact exec_normal n onTrue h
              · exact .normal
          | some onFalse =>
              split
              · exact exec_normal n onTrue h.1
              · exact exec_normal n onFalse h.2
      | loop span condition body => exact execLoop_normal n condition body h
      | function declaration => exact .bind fun _ => .bind fun _ => .bind fun _ => .normal
      | ret span keyword value => exact h.elim
      | classDecl span name parent methods =>
          cases parent with
          | none => exact .bind fun _ => .normal
          | some parent =>
              apply Normal.bind
              intro v
              cases v with
              | classObject c => exact .bind fun _ => .normal
              | _ => exact .stop _

theorem execList_normal (n : Nat) (body : List Stmt) (h : Stmt.ReturnFreeList body) :
    Normal (execList n body) := by
  match n with
  | 0 => exact .stop _
  | n + 1 =>
      cases body with
      | nil => exact .normal
      | cons s rest => exact .unlessReturned (exec_normal n s h.1) (execList_normal n rest h.2)

theorem execLoop_normal (n : Nat) (condition : Expr) (body : Stmt) (h : body.ReturnFree) :
    Normal (execLoop n condition body) := by
  match n with
  | 0 => exact .stop _
  | n + 1 =>
      apply Normal.bind
      intro v
      split
      · exact .unlessReturned (exec_normal n body h) (execLoop_normal n condition body h)
      · exact .normal

end

end Machine

/-! ## Checked sources -/

namespace Calls

/--
In every run of a source without problems, no statement outside of functions ends by
`return`.  Every call of a function other than an initializer has the value of the first
`return` that the call itself reaches, which is the last statement it runs, or else `nil`.
-/
theorem return_lands_in_nearest_call (source : Bytes)
    (hclean : (check source).report.diagnostics = []) (natives : List Native) (limit : Nat)
    (clock : List Int) (earlier : List Session.Step) :
    let s := (Session.fresh natives limit clock).after earlier
    (∀ st ∈ (checkFrom s.resolution source).1.program, ∀ n m v m',
      Machine.exec n st m ≠ .done (.returned v) m') ∧
    (answer s (.run source)).1 = s.answer (.run source) ∧
    ∀ active id code arguments inside value,
      Occurs active (.activation (.function id code) arguments inside value)
          (answer s (.run source)).2 →
        code.isInitializer = false → Lands inside value := by
  intro s
  have hready : s.Ready := (Session.ready_fresh natives limit clock).after earlier
  have hrest : Resting limit s := (resting_fresh natives limit clock).after earlier
  rw [← (checkFrom_eq_check hready.atTop source).2] at hclean
  have hfree := checkFrom_returnFree hready.atTop hclean
  refine ⟨?_, answer_eq s _, ?_⟩
  · intro st hst n
    exact Machine.exec_normal n st (hfree.of_mem hst)
  · intro active id code arguments inside value hoccurs hplain
    have hfits := hrest.regular (.run source) active _ hoccurs
    exact hfits.2.2 id code rfl hplain

def returnSource : Bytes :=
  utf8 "fun g() \x7b \x7b return nil; \x7d print g; \x7d
    fun f(a) \x7b while (g) \x7b if (a) return \"yes\"; g(); a = g; \x7d \x7d
    print f(g());"

theorem return_lands_in_nearest_call_loop :
    let s := (Session.fresh Machine.standardNatives 0 []).after []
    (check returnSource).report.diagnostics = [] ∧
    (∀ st ∈ (checkFrom s.resolution returnSource).1.program, ∀ n m v m',
      Machine.exec n st m ≠ .done (.returned v) m') ∧
    ∀ active id code arguments inside value,
      Occurs active (.activation (.function id code) arguments inside value)
          (answer s (.run returnSource)).2 →
        code.isInitializer = false → Lands inside value := by
  have hclean : (check returnSource).report.diagnostics = [] := by decide +kernel
  have h := return_lands_in_nearest_call returnSource hclean Machine.standardNatives 0 [] []
  exact ⟨hclean, h.1, h.2.2⟩

/-- Three events inside the call of `g`, ten inside that of `f` in two rounds of its loop. -/
example :
    (answer (.fresh Machine.standardNatives 0 []) (.run returnSource)).2.filterMap
        (fun e => match e with
          | .activation _ _ inside value => some (inside.length, value.map Value.display)
          | _ => none) =
      [(3, some (utf8 "nil")), (10, some (utf8 "yes"))] := by decide +kernel

end Calls

end Lox
