import Lox.Proofs.Operations
import Lox.Proofs.Resolution.Walk

/-!
Trees that can be run.

A tree fits `k` scopes when no distance in it leads out of them, every operator is one
that the machine knows, no operand is absent, and every token that may be blamed for an
error is one of those given.  Resolving the names of a tree keeps this, whatever problems
it reports: distances are counted in the scopes around a use.
-/

namespace Lox

section

variable (T : Token → Prop)

def Reference.Fit (k : Nat) (r : Reference) : Prop := T r.name ∧ ∀ d ∈ r.hops, d < k

mutual

def Expr.Fit (k : Nat) : Expr → Prop
  | .absent => False
  | .literal _ _ => True
  | .grouping _ inner => inner.Fit k
  | .unary _ operator operand => T operator ∧ operator.kind.signs = true ∧ operand.Fit k
  | .binary _ operator left right =>
      T operator ∧ operator.kind.joins = true ∧ left.Fit k ∧ right.Fit k
  | .logical _ _ left right => left.Fit k ∧ right.Fit k
  | .var r | .thisRef r => r.Fit T k
  | .assign target value => target.Fit T k ∧ value.Fit k
  | .call _ callee paren arguments => callee.Fit k ∧ T paren ∧ Expr.FitList k arguments
  | .get _ object name => object.Fit k ∧ T name
  | .set _ object name value => object.Fit k ∧ T name ∧ value.Fit k
  | .superRef r method => r.Fit T k ∧ T method

def Expr.FitList (k : Nat) : List Expr → Prop
  | [] => True
  | e :: rest => e.Fit k ∧ Expr.FitList k rest

end

mutual

/-- A block and a function have a scope of their own, a method also one for `this`. -/
def Stmt.Fit (k : Nat) : Stmt → Prop
  | .expression _ e | .print _ e => e.Fit T k
  | .var _ _ initial | .ret _ _ initial => ∀ e ∈ initial, e.Fit T k
  | .block _ body => Stmt.FitList (k + 1) body
  | .branch _ condition onTrue none => condition.Fit T k ∧ onTrue.Fit k
  | .branch _ condition onTrue (some onFalse) =>
      condition.Fit T k ∧ onTrue.Fit k ∧ onFalse.Fit k
  | .loop _ condition body => condition.Fit T k ∧ body.Fit k
  | .function f => f.Fit k
  | .classDecl _ _ none methods => FunctionDecl.FitList (k + 1) methods
  | .classDecl _ _ (some parent) methods =>
      parent.Fit T k ∧ FunctionDecl.FitList (k + 2) methods

def Stmt.FitList (k : Nat) : List Stmt → Prop
  | [] => True
  | s :: rest => s.Fit k ∧ Stmt.FitList k rest

def FunctionDecl.Fit (k : Nat) : FunctionDecl → Prop
  | .mk _ _ _ body => Stmt.FitList (k + 1) body

def FunctionDecl.FitList (k : Nat) : List FunctionDecl → Prop
  | [] => True
  | f :: rest => f.Fit k ∧ FunctionDecl.FitList k rest

end

end

variable {T : Token → Prop}

theorem Expr.FitList.of_forall {k : Nat} {es : List Expr} (h : ∀ e ∈ es, e.Fit T k) :
    Expr.FitList T k es := by
  induction es with
  | nil => simp [Expr.FitList]
  | cons e rest ih =>
      rw [List.forall_mem_cons] at h
      simpa [Expr.FitList] using ⟨h.1, ih h.2⟩

theorem FunctionDecl.fit_iff {k : Nat} (f : FunctionDecl) :
    f.Fit T k ↔ Stmt.FitList T (k + 1) f.body := by
  cases f
  rw [FunctionDecl.Fit]
  rfl

theorem FunctionDecl.fit_of_mem {k : Nat} {methods : List FunctionDecl}
    (h : FunctionDecl.FitList T k methods) : ∀ f ∈ methods, f.Fit T k := by
  induction methods with
  | nil => simp
  | cons f rest ih =>
      rw [FunctionDecl.FitList] at h
      intro g hg
      rcases List.mem_cons.mp hg with rfl | hg
      · exact h.1
      · exact ih h.2 g hg

/-! ## Weaker demands on tokens -/

section

variable {T' : Token → Prop} {k : Nat}

theorem Reference.Fit.imp {r : Reference} (hT : ∀ t, T t → T' t) (h : r.Fit T k) : r.Fit T' k :=
  ⟨hT r.name h.1, h.2⟩

mutual

theorem Expr.Fit.imp (hT : ∀ t, T t → T' t) (e : Expr) (h : e.Fit T k) : e.Fit T' k := by
  cases e with
  | absent => simp [Expr.Fit] at h
  | literal => simp [Expr.Fit]
  | grouping span inner =>
      simp only [Expr.Fit] at h ⊢
      exact Expr.Fit.imp hT inner h
  | unary span operator operand =>
      simp only [Expr.Fit] at h ⊢
      exact ⟨hT _ h.1, h.2.1, Expr.Fit.imp hT operand h.2.2⟩
  | binary span operator left right =>
      simp only [Expr.Fit] at h ⊢
      exact ⟨hT _ h.1, h.2.1, Expr.Fit.imp hT left h.2.2.1, Expr.Fit.imp hT right h.2.2.2⟩
  | logical span operator left right =>
      simp only [Expr.Fit] at h ⊢
      exact ⟨Expr.Fit.imp hT left h.1, Expr.Fit.imp hT right h.2⟩
  | var r | thisRef r =>
      simp only [Expr.Fit] at h ⊢
      exact h.imp hT
  | assign target value =>
      simp only [Expr.Fit] at h ⊢
      exact ⟨h.1.imp hT, Expr.Fit.imp hT value h.2⟩
  | call span callee paren arguments =>
      simp only [Expr.Fit] at h ⊢
      exact ⟨Expr.Fit.imp hT callee h.1, hT _ h.2.1, Expr.FitList.imp hT arguments h.2.2⟩
  | get span object name =>
      simp only [Expr.Fit] at h ⊢
      exact ⟨Expr.Fit.imp hT object h.1, hT _ h.2⟩
  | set span object name value =>
      simp only [Expr.Fit] at h ⊢
      exact ⟨Expr.Fit.imp hT object h.1, hT _ h.2.1, Expr.Fit.imp hT value h.2.2⟩
  | superRef r method =>
      simp only [Expr.Fit] at h ⊢
      exact ⟨h.1.imp hT, hT _ h.2⟩

theorem Expr.FitList.imp (hT : ∀ t, T t → T' t) (es : List Expr) (h : Expr.FitList T k es) :
    Expr.FitList T' k es := by
  cases es with
  | nil => simp [Expr.FitList]
  | cons e rest =>
      simp only [Expr.FitList] at h ⊢
      exact ⟨Expr.Fit.imp hT e h.1, Expr.FitList.imp hT rest h.2⟩

end

mutual

theorem Stmt.Fit.imp (hT : ∀ t, T t → T' t) (s : Stmt) {k : Nat} (h : s.Fit T k) :
    s.Fit T' k := by
  cases s with
  | expression span e | print span e =>
      simp only [Stmt.Fit] at h ⊢
      exact Expr.Fit.imp hT e h
  | var span name initial | ret span keyword initial =>
      simp only [Stmt.Fit] at h ⊢
      exact fun e he => Expr.Fit.imp hT e (h e he)
  | block span body =>
      simp only [Stmt.Fit] at h ⊢
      exact Stmt.FitList.imp hT body h
  | branch span condition onTrue onFalse =>
      cases onFalse with
      | none =>
          simp only [Stmt.Fit] at h ⊢
          exact ⟨Expr.Fit.imp hT condition h.1, Stmt.Fit.imp hT onTrue h.2⟩
      | some onFalse =>
          simp only [Stmt.Fit] at h ⊢
          exact ⟨Expr.Fit.imp hT condition h.1, Stmt.Fit.imp hT onTrue h.2.1,
            Stmt.Fit.imp hT onFalse h.2.2⟩
  | loop span condition body =>
      simp only [Stmt.Fit] at h ⊢
      exact ⟨Expr.Fit.imp hT condition h.1, Stmt.Fit.imp hT body h.2⟩
  | function f =>
      simp only [Stmt.Fit] at h ⊢
      exact FunctionDecl.Fit.imp hT f h
  | classDecl span name parent methods =>
      cases parent with
      | none =>
          simp only [Stmt.Fit] at h ⊢
          exact FunctionDecl.FitList.imp hT methods h
      | some parent =>
          simp only [Stmt.Fit] at h ⊢
          exact ⟨h.1.imp hT, FunctionDecl.FitList.imp hT methods h.2⟩

theorem Stmt.FitList.imp (hT : ∀ t, T t → T' t) (body : List Stmt) {k : Nat}
    (h : Stmt.FitList T k body) : Stmt.FitList T' k body := by
  cases body with
  | nil => simp [Stmt.FitList]
  | cons s rest =>
      simp only [Stmt.FitList] at h ⊢
      exact ⟨Stmt.Fit.imp hT s h.1, Stmt.FitList.imp hT rest h.2⟩

theorem FunctionDecl.Fit.imp (hT : ∀ t, T t → T' t) (f : FunctionDecl) {k : Nat}
    (h : f.Fit T k) : f.Fit T' k := by
  cases f with
  | mk span name ps body =>
      simp only [FunctionDecl.Fit] at h ⊢
      exact Stmt.FitList.imp hT body h

theorem FunctionDecl.FitList.imp (hT : ∀ t, T t → T' t) (methods : List FunctionDecl) {k : Nat}
    (h : FunctionDecl.FitList T k methods) : FunctionDecl.FitList T' k methods := by
  cases methods with
  | nil => simp [FunctionDecl.FitList]
  | cons f rest =>
      simp only [FunctionDecl.FitList] at h ⊢
      exact ⟨FunctionDecl.Fit.imp hT f h.1, FunctionDecl.FitList.imp hT rest h.2⟩

end

end

/-! ## Resolving -/

namespace Resolution

variable {s : State}

theorem resolve_fit (kind : ReferenceKind) (key name : Bytes) {r : Reference} {k : Nat}
    (hk : s.scopes.length = k) (h : T r.name) : (s.resolve kind key name r).1.Fit T k := by
  unfold State.resolve
  split
  · next hops hfound =>
      refine ⟨h, ?_⟩
      rintro d ⟨⟩
      unfold State.hops? at hfound
      rw [← hk]
      exact (List.findIdx?_eq_some_iff_getElem.mp hfound).1
  · exact ⟨h, by simp⟩

theorem use_fit {r : Reference} {k : Nat} (hk : s.scopes.length = k) (h : T r.name) :
    (s.use r).1.Fit T k := by
  unfold State.use
  apply resolve_fit _ _ _ _ h
  split <;> exact hk

theorem expr_depth (e : Expr) {k : Nat} (hk : s.scopes.length = k) :
    (expr s e).2.scopes.length = k :=
  (SameFrame.ofCore (expr_core s e)).depth.trans hk

mutual

theorem expr_fit (s : State) (e : Expr) {k : Nat} (hk : s.scopes.length = k)
    (h : e.Fit T k) : (expr s e).1.Fit T k := by
  cases e with
  | absent | literal => exact h
  | grouping span inner =>
      simp only [Expr.Fit] at h
      simpa [Expr.Fit] using expr_fit s inner hk h
  | unary span operator operand =>
      simp only [Expr.Fit] at h
      simpa [Expr.Fit] using ⟨h.1, h.2.1, expr_fit s operand hk h.2.2⟩
  | binary span operator left right =>
      simp only [Expr.Fit] at h
      have hright := expr_fit _ right (expr_depth left hk) h.2.2.2
      simpa [Expr.Fit] using ⟨h.1, h.2.1, expr_fit s left hk h.2.2.1, hright⟩
  | logical span operator left right =>
      simp only [Expr.Fit] at h
      have hright := expr_fit _ right (expr_depth left hk) h.2
      simpa [Expr.Fit] using ⟨expr_fit s left hk h.1, hright⟩
  | var r =>
      simp only [Expr.Fit] at h
      simpa [Expr.Fit] using use_fit hk h.1
  | assign target value =>
      simp only [Expr.Fit] at h
      have htarget := resolve_fit .assign target.name.lexeme target.name.lexeme
        (expr_depth value hk) h.1.1
      simpa [Expr.Fit] using ⟨htarget, expr_fit s value hk h.2⟩
  | call span callee paren arguments =>
      simp only [Expr.Fit] at h
      have harguments := exprs_fit _ arguments (expr_depth callee hk) h.2.2
      simpa [Expr.Fit] using ⟨expr_fit s callee hk h.1, h.2.1, harguments⟩
  | get span object name =>
      simp only [Expr.Fit] at h
      simpa [Expr.Fit] using ⟨expr_fit s object hk h.1, h.2⟩
  | set span object name value =>
      simp only [Expr.Fit] at h
      have hobject := expr_fit _ object (expr_depth value hk) h.1
      simpa [Expr.Fit] using ⟨hobject, h.2.1, expr_fit s value hk h.2.2⟩
  | thisRef r =>
      rw [expr_thisRef]
      split
      · exact h
      · simp only [Expr.Fit] at h ⊢
        exact resolve_fit _ _ _ hk h.1
  | superRef r method =>
      rw [expr_superRef]
      split
      · exact h
      · exact h
      · simp only [Expr.Fit] at h ⊢
        exact ⟨resolve_fit _ _ _ hk h.1.1, h.2⟩

theorem exprs_fit (s : State) (es : List Expr) {k : Nat} (hk : s.scopes.length = k)
    (h : Expr.FitList T k es) : Expr.FitList T k (exprs s es).1 := by
  cases es with
  | nil => exact h
  | cons e rest =>
      simp only [Expr.FitList] at h
      have hrest := exprs_fit _ rest (expr_depth e hk) h.2
      simpa [Expr.FitList] using ⟨expr_fit s e hk h.1, hrest⟩

end

theorem expr?_fit (s : State) (e : Option Expr) {k : Nat} (hk : s.scopes.length = k)
    (h : ∀ x ∈ e, x.Fit T k) : ∀ x ∈ (expr? s e).1, x.Fit T k := by
  cases e with
  | none => exact h
  | some e => simpa using expr_fit s e hk (h e rfl)

mutual

theorem stmt_fit (s : State) (st : Stmt) {k : Nat} (hk : s.scopes.length = k)
    (h : st.Fit T k) : (stmt s st).1.Fit T k := by
  cases st with
  | expression span e | print span e =>
      simp only [Stmt.Fit] at h
      simpa [Stmt.Fit] using expr_fit s e hk h
  | var span name initial =>
      simp only [Stmt.Fit] at h
      have hdepth := (SameFrame.declare s name).depth.trans hk
      simpa [Stmt.Fit] using expr?_fit _ initial hdepth h
  | block span body =>
      simp only [Stmt.Fit] at h
      have hdepth : s.openScope.scopes.length = k + 1 := congrArg (· + 1) hk
      simpa [Stmt.Fit] using stmts_fit _ body hdepth h
  | branch span condition onTrue onFalse =>
      have hcondition := expr_depth condition hk
      have hdepth := (stmt_sameFrame (expr s condition).2 onTrue).depth.trans hcondition
      cases onFalse with
      | none =>
          simp only [Stmt.Fit] at h
          have honTrue := stmt_fit _ onTrue hcondition h.2
          simpa [Stmt.Fit] using ⟨expr_fit s condition hk h.1, honTrue⟩
      | some onFalse =>
          simp only [Stmt.Fit] at h
          have honTrue := stmt_fit _ onTrue hcondition h.2.1
          have honFalse := stmt_fit _ onFalse hdepth h.2.2
          simpa [Stmt.Fit] using ⟨expr_fit s condition hk h.1, honTrue, honFalse⟩
  | loop span condition body =>
      simp only [Stmt.Fit] at h
      have hbody := stmt_fit _ body (expr_depth condition hk) h.2
      simpa [Stmt.Fit] using ⟨expr_fit s condition hk h.1, hbody⟩
  | function f =>
      simp only [Stmt.Fit] at h
      have hdepth := ((SameFrame.declare s f.name).trans (.define _ f.name)).depth.trans hk
      simpa [Stmt.Fit] using function_fit _ .function f hdepth h
  | ret span keyword value =>
      simp only [Stmt.Fit] at h
      have hdepth := (SameFrame.ofCore (s.beforeReturn_core keyword value)).depth.trans hk
      simpa [Stmt.Fit] using expr?_fit _ value hdepth h
  | classDecl span name parent methods =>
      have hdepth : (s.inClass name).scopes.length = k :=
        ((SameFrame.declare _ name).trans (.define _ name)).depth.trans hk
      cases parent with
      | none =>
          simp only [Stmt.Fit] at h
          have hmethods := functions_fit ((s.inClass name).openWith [(utf8 "this", true)]) methods
            (congrArg (· + 1) hdepth) h
          simpa [Stmt.Fit] using hmethods
      | some parent =>
          simp only [Stmt.Fit] at h
          have hinner : (superclass (s.inClass name) name parent).2.scopes.length = k := by
            rw [superclass_scopes]
            exact hdepth
          have hmethods := functions_fit (((superclass (s.inClass name) name parent).2.openWith
            [(utf8 "super", true)]).openWith [(utf8 "this", true)]) methods
            (congrArg (· + 2) hinner) h.2
          have hparent : (superclass (s.inClass name) name parent).1.Fit T k := by
            unfold superclass
            apply use_fit _ h.1.1
            split <;> exact hdepth
          simpa [Stmt.Fit] using ⟨hparent, hmethods⟩

theorem stmts_fit (s : State) (body : List Stmt) {k : Nat} (hk : s.scopes.length = k)
    (h : Stmt.FitList T k body) : Stmt.FitList T k (stmts s body).1 := by
  cases body with
  | nil => exact h
  | cons st rest =>
      simp only [Stmt.FitList] at h
      have hrest := stmts_fit _ rest ((stmt_sameFrame s st).depth.trans hk) h.2
      simpa [Stmt.FitList] using ⟨stmt_fit s st hk h.1, hrest⟩

theorem function_fit (s : State) (role : FunctionRole) (f : FunctionDecl) {k : Nat}
    (hk : s.scopes.length = k) (h : f.Fit T k) : (function s role f).1.Fit T k := by
  cases f with
  | mk span name ps body =>
      simp only [FunctionDecl.Fit] at h
      have hopen : ({ s with function := role } : State).openScope.scopes.length = k + 1 :=
        congrArg (· + 1) hk
      have hdepth : (s.inFunction role ps).scopes.length = k + 1 :=
        (SameFrame.parameters _ ps).depth.trans hopen
      simpa [FunctionDecl.Fit] using stmts_fit _ body hdepth h

theorem functions_fit (s : State) (methods : List FunctionDecl) {k : Nat}
    (hk : s.scopes.length = k) (h : FunctionDecl.FitList T k methods) :
    FunctionDecl.FitList T k (functions s methods).1 := by
  cases methods with
  | nil => exact h
  | cons f rest =>
      simp only [FunctionDecl.FitList] at h
      have hcore := function_core s (methodRole f.name.lexeme) f
      have hdepth := (SameFrame.ofCore hcore).depth.trans hk
      have hrest := functions_fit _ rest hdepth h.2
      simpa [FunctionDecl.FitList] using ⟨function_fit s _ f hk h.1, hrest⟩

end

theorem resolve_program_fit {program : List Stmt} (h : Stmt.FitList T 0 program) :
    Stmt.FitList T 0 (resolve program).program :=
  stmts_fit { reported := [] } program rfl h

end Resolution

end Lox
