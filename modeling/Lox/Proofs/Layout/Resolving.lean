import Lox.Proofs.Layout.Parsing
import Lox.Proofs.Resolution.Walk

/-!
Where tokens stand does not matter to the resolver.

On a program without places the walk finds the same distances and the same problems, and
comes to the same scopes.
-/

namespace Lox

@[simp] theorem Reference.unplace_name (r : Reference) :
    (r.relabel .unplace).name = r.name.unplace := rfl

namespace Resolution

def Entry.unplace (e : Entry) : Entry := { e with span := {} }

namespace State

def unplace (s : State) : State where
  scopes := s.scopes
  function := s.function
  classRole := s.classRole
  entries := s.entries.map Entry.unplace
  reported := s.reported.map Diagnostic.unplace

variable (s : State)

@[simp] theorem unplace_scopes : s.unplace.scopes = s.scopes := rfl

@[simp] theorem unplace_function : s.unplace.function = s.function := rfl

@[simp] theorem unplace_classRole : s.unplace.classRole = s.classRole := rfl

@[simp] theorem report_unplace (p : Problem) (t : Token) :
    s.unplace.report p t.unplace = (s.report p t).unplace := by
  simp [report, unplace, Diagnostic.unplace_atToken]

theorem reportIf_unplace (c : Prop) [Decidable c] (p : Problem) (t : Token) :
    (if c then s.unplace.report p t.unplace else s.unplace) =
      (if c then s.report p t else s).unplace := by
  split
  · exact s.report_unplace p t
  · rfl

@[simp] theorem openWith_unplace (frame : Frame) :
    s.unplace.openWith frame = (s.openWith frame).unplace := rfl

@[simp] theorem openScope_unplace : s.unplace.openScope = s.openScope.unplace := rfl

@[simp] theorem closeScope_unplace : s.unplace.closeScope = s.closeScope.unplace := rfl

@[simp] theorem leaveClass_unplace (role : ClassRole) :
    s.unplace.leaveClass role = (s.leaveClass role).unplace := rfl

@[simp] theorem define_unplace (name : Token) :
    s.unplace.define name.unplace = (s.define name).unplace := by
  unfold define
  cases h : s.scopes with
  | nil => simp [h]
  | cons frame outer =>
      simp only [unplace_scopes, h]
      rfl

@[simp] theorem declare_unplace (name : Token) :
    s.unplace.declare name.unplace = (s.declare name).unplace := by
  unfold declare
  cases h : s.scopes with
  | nil => simp [h]
  | cons frame outer =>
      simp only [unplace_scopes, h]
      rw [reportIf_unplace]
      rfl

@[simp] theorem resolve_unplace (kind : ReferenceKind) (key name : Bytes) (r : Reference) :
    s.unplace.resolve kind key name (r.relabel .unplace) =
      ((s.resolve kind key name r).1.relabel .unplace,
        (s.resolve kind key name r).2.unplace) := by
  unfold resolve hops?
  rw [unplace_scopes]
  split
  · simp [unplace, Entry.unplace, Reference.relabel, Relabelling.unplace]
  · rfl

@[simp] theorem use_unplace (r : Reference) :
    s.unplace.use (r.relabel .unplace) =
      ((s.use r).1.relabel .unplace, (s.use r).2.unplace) := by
  have hinitializing : s.unplace.isInitializing r.name.lexeme =
      s.isInitializing r.name.lexeme := rfl
  unfold use
  simp only [Reference.unplace_name, Token.unplace_lexeme, hinitializing, reportIf_unplace,
    resolve_unplace]

@[simp] theorem beforeReturn_unplace (keyword : Token) (value : Option Expr) :
    s.unplace.beforeReturn keyword.unplace (value.map (Expr.relabel .unplace)) =
      (s.beforeReturn keyword value).unplace := by
  unfold beforeReturn
  rw [unplace_function, Option.isSome_map, reportIf_unplace]
  exact reportIf_unplace _ _ _ keyword

@[simp] theorem inClass_unplace (name : Token) :
    s.unplace.inClass name.unplace = (s.inClass name).unplace := by
  unfold inClass
  rw [show ({ s.unplace with classRole := .plain } : State) =
    ({ s with classRole := .plain } : State).unplace from rfl]
  rw [declare_unplace, define_unplace]

end State

@[simp] theorem parameters_unplace (s : State) (ps : List Token) :
    parameters s.unplace (ps.map Token.unplace) = (parameters s ps).unplace := by
  unfold parameters
  induction ps generalizing s with
  | nil => rfl
  | cons p rest ih => simpa using ih ((s.declare p).define p)

@[simp] theorem inFunction_unplace (s : State) (role : FunctionRole) (ps : List Token) :
    s.unplace.inFunction role (ps.map Token.unplace) = (s.inFunction role ps).unplace :=
  parameters_unplace ({ s with function := role } : State).openScope ps

@[simp] theorem superclass_unplace (s : State) (name : Token) (r : Reference) :
    superclass s.unplace name.unplace (r.relabel .unplace) =
      ((superclass s name r).1.relabel .unplace, (superclass s name r).2.unplace) := by
  unfold superclass
  rw [Reference.unplace_name, Token.unplace_lexeme, Token.unplace_lexeme, State.reportIf_unplace]
  generalize (if r.name.lexeme = name.lexeme then s.report .selfInherit r.name else s) = inner
  exact State.use_unplace { inner with classRole := .subclass } r

/-! ## The walk -/

mutual

theorem expr_unplace (s : State) (e : Expr) :
    expr s.unplace (e.relabel .unplace) =
      ((expr s e).1.relabel .unplace, (expr s e).2.unplace) := by
  cases e with
  | absent | literal | var => simp [Expr.relabel]
  | grouping span inner => simp [Expr.relabel, expr_unplace s inner]
  | unary span operator operand => simp [Expr.relabel, expr_unplace s operand]
  | binary span operator left right | logical span operator left right =>
      simp [Expr.relabel, expr_unplace s left, expr_unplace (expr s left).2 right]
  | assign target value => simp [Expr.relabel, expr_unplace s value]
  | call span callee paren arguments =>
      simp [Expr.relabel, expr_unplace s callee, exprs_unplace (expr s callee).2 arguments]
  | get span object name => simp [Expr.relabel, expr_unplace s object]
  | set span object name value =>
      simp [Expr.relabel, expr_unplace s value, expr_unplace (expr s value).2 object]
  | thisRef r =>
      by_cases h : s.classRole = .none <;> simp [Expr.relabel, h]
  | superRef r method =>
      cases h : s.classRole <;> simp [Expr.relabel, h]

theorem exprs_unplace (s : State) (es : List Expr) :
    exprs s.unplace (Expr.relabelList .unplace es) =
      (Expr.relabelList .unplace (exprs s es).1, (exprs s es).2.unplace) := by
  cases es with
  | nil => rfl
  | cons e rest =>
      simp [Expr.relabelList, expr_unplace s e, exprs_unplace (expr s e).2 rest]

end

theorem expr?_unplace (s : State) (e : Option Expr) :
    expr? s.unplace (e.map (Expr.relabel .unplace)) =
      ((expr? s e).1.map (Expr.relabel .unplace), (expr? s e).2.unplace) := by
  cases e <;> simp [expr_unplace]

mutual

theorem stmt_unplace (s : State) (st : Stmt) :
    stmt s.unplace (st.relabel .unplace) =
      ((stmt s st).1.relabel .unplace, (stmt s st).2.unplace) := by
  cases st with
  | expression | print => simp [Stmt.relabel, expr_unplace]
  | var span name initial | ret span name initial =>
      simp [Stmt.relabel, expr?_unplace]
  | block span body => simp [Stmt.relabel, stmts_unplace s.openScope body]
  | branch span condition onTrue onFalse =>
      have hTrue := stmt_unplace (expr s condition).2 onTrue
      cases onFalse with
      | none => simp [Stmt.relabel, expr_unplace, hTrue]
      | some onFalse =>
          have hFalse := stmt_unplace (stmt (expr s condition).2 onTrue).2 onFalse
          simp [Stmt.relabel, expr_unplace, hTrue, hFalse]
  | loop span condition body =>
      simp [Stmt.relabel, expr_unplace, stmt_unplace (expr s condition).2 body]
  | function f => simp [Stmt.relabel, function_unplace _ _ f]
  | classDecl span name parent methods =>
      cases parent <;> simp [Stmt.relabel, functions_unplace _ methods]

theorem stmts_unplace (s : State) (body : List Stmt) :
    stmts s.unplace (Stmt.relabelList .unplace body) =
      (Stmt.relabelList .unplace (stmts s body).1, (stmts s body).2.unplace) := by
  cases body with
  | nil => rfl
  | cons st rest =>
      simp [Stmt.relabelList, stmt_unplace s st, stmts_unplace (stmt s st).2 rest]

theorem function_unplace (s : State) (role : FunctionRole) (f : FunctionDecl) :
    function s.unplace role (f.relabel .unplace) =
      ((function s role f).1.relabel .unplace, (function s role f).2.unplace) := by
  cases f with
  | mk span name ps body =>
      have hps : ps.map Relabelling.unplace.token = ps.map Token.unplace := rfl
      simp only [FunctionDecl.relabel, hps, function_mk, inFunction_unplace,
        stmts_unplace (s.inFunction role ps) body]
      rfl

theorem functions_unplace (s : State) (methods : List FunctionDecl) :
    functions s.unplace (FunctionDecl.relabelList .unplace methods) =
      (FunctionDecl.relabelList .unplace (functions s methods).1,
        (functions s methods).2.unplace) := by
  cases methods with
  | nil => rfl
  | cons f rest =>
      simp [FunctionDecl.relabelList, function_unplace s _ f,
        functions_unplace (function s _ f).2 rest]

end

/-- Programs that differ in nothing but their places resolve alike. -/
theorem resolve_of_unplace_eq {first second : List Stmt}
    (h : Stmt.relabelList .unplace first = Stmt.relabelList .unplace second) :
    Stmt.relabelList .unplace (resolve first).program =
        Stmt.relabelList .unplace (resolve second).program ∧
      (resolve first).diagnostics.map Diagnostic.unplace =
        (resolve second).diagnostics.map Diagnostic.unplace ∧
      (resolve first).entries.map Entry.unplace =
        (resolve second).entries.map Entry.unplace := by
  have hstart : State.unplace {} = {} := rfl
  have hfirst := stmts_unplace {} first
  have hsecond := stmts_unplace {} second
  rw [hstart] at hfirst hsecond
  have heq := hfirst.symm.trans ((congrArg (stmts {}) h).trans hsecond)
  obtain ⟨hprogram, hstate⟩ := Prod.ext_iff.mp heq
  exact ⟨hprogram, congrArg State.reported hstate, congrArg State.entries hstate⟩

end Resolution

end Lox
