import Lox.Proofs.Bindings
import Lox.Resolution

/-!
What the walk of the resolver does to its state.

One equation for every form of tree lets later proofs rewrite.  The walk only adds
to its log, the entries and the problems, and never reads it; it leaves the stack of
scopes as it was, apart from names added to the innermost scope, and comes back to
the function and the class that it started in.
-/

namespace Lox.Resolution

/-! ## Equations -/

section Equations

variable (s : State) (span : Span)

@[simp] theorem expr_absent : expr s .absent = (.absent, s) := rfl

@[simp] theorem expr_literal (value : Literal) :
    expr s (.literal span value) = (.literal span value, s) := rfl

@[simp] theorem expr_grouping (inner : Expr) :
    expr s (.grouping span inner) = (.grouping span (expr s inner).1, (expr s inner).2) := rfl

@[simp] theorem expr_unary (operator : Token) (operand : Expr) :
    expr s (.unary span operator operand) =
      (.unary span operator (expr s operand).1, (expr s operand).2) := rfl

@[simp] theorem expr_binary (operator : Token) (left right : Expr) :
    expr s (.binary span operator left right) =
      (.binary span operator (expr s left).1 (expr (expr s left).2 right).1,
        (expr (expr s left).2 right).2) := rfl

@[simp] theorem expr_logical (operator : Token) (left right : Expr) :
    expr s (.logical span operator left right) =
      (.logical span operator (expr s left).1 (expr (expr s left).2 right).1,
        (expr (expr s left).2 right).2) := rfl

@[simp] theorem expr_var (r : Reference) :
    expr s (.var r) = (.var (s.use r).1, (s.use r).2) := rfl

@[simp] theorem expr_assign (target : Reference) (value : Expr) :
    expr s (.assign target value) =
      (.assign ((expr s value).2.resolve .assign target.name.lexeme target.name.lexeme target).1
          (expr s value).1,
        ((expr s value).2.resolve .assign target.name.lexeme target.name.lexeme target).2) :=
  rfl

@[simp] theorem expr_call (callee : Expr) (paren : Token) (arguments : List Expr) :
    expr s (.call span callee paren arguments) =
      (.call span (expr s callee).1 paren (exprs (expr s callee).2 arguments).1,
        (exprs (expr s callee).2 arguments).2) := rfl

@[simp] theorem expr_get (object : Expr) (name : Token) :
    expr s (.get span object name) = (.get span (expr s object).1 name, (expr s object).2) :=
  rfl

@[simp] theorem expr_set (object : Expr) (name : Token) (value : Expr) :
    expr s (.set span object name value) =
      (.set span (expr (expr s value).2 object).1 name (expr s value).1,
        (expr (expr s value).2 object).2) := rfl

@[simp] theorem expr_thisRef (r : Reference) :
    expr s (.thisRef r) =
      if s.classRole = .none then (.thisRef r, s.report .thisOutside r.name)
      else
        (.thisRef (s.resolve .thisRef (utf8 "this") (utf8 "this") r).1,
          (s.resolve .thisRef (utf8 "this") (utf8 "this") r).2) := rfl

@[simp] theorem expr_superRef (r : Reference) (method : Token) :
    expr s (.superRef r method) =
      match s.classRole with
      | .none => (.superRef r method, s.report .superOutside r.name)
      | .plain => (.superRef r method, s.report .superWithoutParent r.name)
      | .subclass =>
          (.superRef (s.resolve .superRef (utf8 "super") method.lexeme r).1 method,
            (s.resolve .superRef (utf8 "super") method.lexeme r).2) := rfl

@[simp] theorem exprs_nil : exprs s [] = ([], s) := rfl

@[simp] theorem exprs_cons (e : Expr) (rest : List Expr) :
    exprs s (e :: rest) =
      ((expr s e).1 :: (exprs (expr s e).2 rest).1, (exprs (expr s e).2 rest).2) := rfl

@[simp] theorem expr?_none : expr? s none = (none, s) := rfl

@[simp] theorem expr?_some (e : Expr) :
    expr? s (some e) = (some (expr s e).1, (expr s e).2) := rfl

@[simp] theorem stmt_expression (e : Expr) :
    stmt s (.expression span e) = (.expression span (expr s e).1, (expr s e).2) := rfl

@[simp] theorem stmt_print (e : Expr) :
    stmt s (.print span e) = (.print span (expr s e).1, (expr s e).2) := rfl

@[simp] theorem stmt_var (name : Token) (initial : Option Expr) :
    stmt s (.var span name initial) =
      (.var span name (expr? (s.declare name) initial).1,
        (expr? (s.declare name) initial).2.define name) := rfl

@[simp] theorem stmt_block (body : List Stmt) :
    stmt s (.block span body) =
      (.block span (stmts s.openScope body).1, (stmts s.openScope body).2.closeScope) := rfl

@[simp] theorem stmt_branch_none (condition : Expr) (onTrue : Stmt) :
    stmt s (.branch span condition onTrue none) =
      (.branch span (expr s condition).1 (stmt (expr s condition).2 onTrue).1 none,
        (stmt (expr s condition).2 onTrue).2) := rfl

@[simp] theorem stmt_branch_some (condition : Expr) (onTrue onFalse : Stmt) :
    stmt s (.branch span condition onTrue (some onFalse)) =
      (.branch span (expr s condition).1 (stmt (expr s condition).2 onTrue).1
          (some (stmt (stmt (expr s condition).2 onTrue).2 onFalse).1),
        (stmt (stmt (expr s condition).2 onTrue).2 onFalse).2) := rfl

@[simp] theorem stmt_loop (condition : Expr) (body : Stmt) :
    stmt s (.loop span condition body) =
      (.loop span (expr s condition).1 (stmt (expr s condition).2 body).1,
        (stmt (expr s condition).2 body).2) := rfl

@[simp] theorem stmt_function (f : FunctionDecl) :
    stmt s (.function f) =
      (.function (function ((s.declare f.name).define f.name) .function f).1,
        (function ((s.declare f.name).define f.name) .function f).2) := rfl

def State.beforeReturn (s : State) (keyword : Token) (value : Option Expr) : State :=
  let s := if s.function = .none then s.report .topLevelReturn keyword else s
  if s.function = .initializer ∧ value.isSome then s.report .initializerReturnsValue keyword
  else s

@[simp] theorem stmt_ret (keyword : Token) (value : Option Expr) :
    stmt s (.ret span keyword value) =
      (.ret span keyword (expr? (s.beforeReturn keyword value) value).1,
        (expr? (s.beforeReturn keyword value) value).2) := rfl

def State.inClass (s : State) (name : Token) : State :=
  (({ s with classRole := .plain } : State).declare name).define name

def State.leaveClass (s : State) (role : ClassRole) : State :=
  { s.closeScope with classRole := role }

@[simp] theorem stmt_classDecl_none (name : Token) (methods : List FunctionDecl) :
    stmt s (.classDecl span name none methods) =
      let inner := (s.inClass name).openWith [(utf8 "this", true)]
      (.classDecl span name none (functions inner methods).1,
        (functions inner methods).2.leaveClass s.classRole) := rfl

@[simp] theorem stmt_classDecl_some (name : Token) (parent : Reference)
    (methods : List FunctionDecl) :
    stmt s (.classDecl span name (some parent) methods) =
      let inner := ((superclass (s.inClass name) name parent).2.openWith
        [(utf8 "super", true)]).openWith [(utf8 "this", true)]
      (.classDecl span name (some (superclass (s.inClass name) name parent).1)
          (functions inner methods).1,
        (functions inner methods).2.closeScope.leaveClass s.classRole) := rfl

@[simp] theorem stmts_nil : stmts s [] = ([], s) := rfl

@[simp] theorem stmts_cons (first : Stmt) (rest : List Stmt) :
    stmts s (first :: rest) =
      ((stmt s first).1 :: (stmts (stmt s first).2 rest).1,
        (stmts (stmt s first).2 rest).2) := rfl

theorem stmts_append (first second : List Stmt) :
    stmts s (first ++ second) =
      ((stmts s first).1 ++ (stmts (stmts s first).2 second).1,
        (stmts (stmts s first).2 second).2) := by
  induction first generalizing s with
  | nil => rfl
  | cons st rest ih => simp [ih]

def State.inFunction (s : State) (role : FunctionRole) (ps : List Token) : State :=
  parameters ({ s with function := role } : State).openScope ps

@[simp] theorem function_mk (role : FunctionRole) (name : Token) (ps : List Token)
    (body : List Stmt) :
    function s role (.mk span name ps body) =
      (.mk span name ps (stmts (s.inFunction role ps) body).1,
        { (stmts (s.inFunction role ps) body).2.closeScope with function := s.function }) := rfl

@[simp] theorem functions_nil : functions s [] = ([], s) := rfl

@[simp] theorem functions_cons (f : FunctionDecl) (rest : List FunctionDecl) :
    functions s (f :: rest) =
      ((function s (methodRole f.name.lexeme) f).1 ::
          (functions (function s (methodRole f.name.lexeme) f).2 rest).1,
        (functions (function s (methodRole f.name.lexeme) f).2 rest).2) := rfl

end Equations

/-! ## The log -/

namespace State

def logAfter (s : State) (entries : List Entry) (reported : List Diagnostic) : State :=
  { s with entries := entries ++ s.entries, reported := reported ++ s.reported }

def core (s : State) : State := { s with entries := [], reported := [] }

theorem core_logAfter (s : State) : s.core.logAfter s.entries s.reported = s := by
  simp [core, logAfter]

section

variable (s : State) (es : List Entry) (ds : List Diagnostic)

@[simp] theorem logAfter_scopes : (s.logAfter es ds).scopes = s.scopes := rfl

@[simp] theorem logAfter_function : (s.logAfter es ds).function = s.function := rfl

@[simp] theorem logAfter_classRole : (s.logAfter es ds).classRole = s.classRole := rfl

@[simp] theorem logAfter_reported : (s.logAfter es ds).reported = ds ++ s.reported := rfl

@[simp] theorem report_logAfter (p : Problem) (t : Token) :
    (s.logAfter es ds).report p t = (s.report p t).logAfter es ds := by
  simp [report, logAfter]

@[simp] theorem openWith_logAfter (frame : Frame) :
    (s.logAfter es ds).openWith frame = (s.openWith frame).logAfter es ds := rfl

@[simp] theorem openScope_logAfter :
    (s.logAfter es ds).openScope = s.openScope.logAfter es ds := rfl

@[simp] theorem closeScope_logAfter :
    (s.logAfter es ds).closeScope = s.closeScope.logAfter es ds := rfl

@[simp] theorem leaveClass_logAfter (role : ClassRole) :
    (s.logAfter es ds).leaveClass role = (s.leaveClass role).logAfter es ds := rfl

@[simp] theorem define_logAfter (name : Token) :
    (s.logAfter es ds).define name = (s.define name).logAfter es ds := by
  unfold define
  cases h : s.scopes with
  | nil => simp [h]
  | cons frame outer =>
      simp only [logAfter_scopes, h]
      rfl

@[simp] theorem declare_logAfter (name : Token) :
    (s.logAfter es ds).declare name = (s.declare name).logAfter es ds := by
  unfold declare
  cases h : s.scopes with
  | nil => simp [h]
  | cons frame outer =>
      simp only [logAfter_scopes, h, report_logAfter]
      split <;> rfl

@[simp] theorem resolve_logAfter (kind : ReferenceKind) (key name : Bytes) (r : Reference) :
    (s.logAfter es ds).resolve kind key name r =
      ((s.resolve kind key name r).1, (s.resolve kind key name r).2.logAfter es ds) := by
  unfold resolve hops?
  simp only [logAfter_scopes]
  split <;> simp [logAfter]

@[simp] theorem use_logAfter (r : Reference) :
    (s.logAfter es ds).use r = ((s.use r).1, (s.use r).2.logAfter es ds) := by
  unfold use isInitializing
  simp only [logAfter_scopes, report_logAfter]
  split <;> split <;> simp

@[simp] theorem beforeReturn_logAfter (keyword : Token) (value : Option Expr) :
    (s.logAfter es ds).beforeReturn keyword value =
      (s.beforeReturn keyword value).logAfter es ds := by
  unfold beforeReturn
  by_cases hnone : s.function = .none
  · simp [hnone, report]
    rfl
  · by_cases hinit : s.function = .initializer ∧ value.isSome
    · simp [hinit]
    · simp [hnone, hinit]

@[simp] theorem inClass_logAfter (name : Token) :
    (s.logAfter es ds).inClass name = (s.inClass name).logAfter es ds := by
  unfold inClass
  rw [show ({ s.logAfter es ds with classRole := .plain } : State) =
    ({ s with classRole := .plain } : State).logAfter es ds from rfl]
  simp

end

end State

@[simp] theorem parameters_logAfter (s : State) (es : List Entry) (ds : List Diagnostic)
    (ps : List Token) :
    parameters (s.logAfter es ds) ps = (parameters s ps).logAfter es ds := by
  unfold parameters
  induction ps generalizing s with
  | nil => rfl
  | cons p rest ih => simp [ih]

@[simp] theorem superclass_logAfter (s : State) (es : List Entry) (ds : List Diagnostic)
    (name : Token) (r : Reference) :
    superclass (s.logAfter es ds) name r =
      ((superclass s name r).1, (superclass s name r).2.logAfter es ds) := by
  unfold superclass
  by_cases h : r.name.lexeme = name.lexeme
  · simp only [h, if_true, State.report_logAfter]
    exact State.use_logAfter { s.report .selfInherit r.name with classRole := .subclass } es ds r
  · simp only [h, if_false]
    exact State.use_logAfter { s with classRole := .subclass } es ds r

@[simp] theorem inFunction_logAfter (s : State) (es : List Entry) (ds : List Diagnostic)
    (role : FunctionRole) (ps : List Token) :
    (s.logAfter es ds).inFunction role ps = (s.inFunction role ps).logAfter es ds :=
  parameters_logAfter ({ s with function := role } : State).openScope es ds ps

section

variable (es : List Entry) (ds : List Diagnostic)

mutual

theorem expr_logAfter (s : State) (e : Expr) :
    expr (s.logAfter es ds) e = ((expr s e).1, (expr s e).2.logAfter es ds) := by
  cases e with
  | absent | literal | var => simp
  | grouping span inner => simp [expr_logAfter s inner]
  | unary span operator operand => simp [expr_logAfter s operand]
  | binary span operator left right | logical span operator left right =>
      simp [expr_logAfter s left, expr_logAfter (expr s left).2 right]
  | assign target value => simp [expr_logAfter s value]
  | call span callee paren arguments =>
      simp [expr_logAfter s callee, exprs_logAfter (expr s callee).2 arguments]
  | get span object name => simp [expr_logAfter s object]
  | set span object name value =>
      simp [expr_logAfter s value, expr_logAfter (expr s value).2 object]
  | thisRef r =>
      by_cases h : s.classRole = .none <;> simp [h]
  | superRef r method =>
      cases h : s.classRole <;> simp [h]

theorem exprs_logAfter (s : State) (args : List Expr) :
    exprs (s.logAfter es ds) args = ((exprs s args).1, (exprs s args).2.logAfter es ds) := by
  cases args with
  | nil => simp
  | cons e rest => simp [expr_logAfter s e, exprs_logAfter (expr s e).2 rest]

end

theorem expr?_logAfter (s : State) (e : Option Expr) :
    expr? (s.logAfter es ds) e = ((expr? s e).1, (expr? s e).2.logAfter es ds) := by
  cases e <;> simp [expr_logAfter]

mutual

theorem stmt_logAfter (s : State) (st : Stmt) :
    stmt (s.logAfter es ds) st = ((stmt s st).1, (stmt s st).2.logAfter es ds) := by
  cases st with
  | expression | print => simp [expr_logAfter]
  | var | ret => simp [expr?_logAfter]
  | block span body => simp [stmts_logAfter s.openScope body]
  | branch span condition onTrue onFalse =>
      have hTrue := stmt_logAfter (expr s condition).2 onTrue
      cases onFalse with
      | none => simp [expr_logAfter, hTrue]
      | some onFalse =>
          have hFalse := stmt_logAfter (stmt (expr s condition).2 onTrue).2 onFalse
          simp [expr_logAfter, hTrue, hFalse]
  | loop span condition body => simp [expr_logAfter, stmt_logAfter (expr s condition).2 body]
  | function f => simp [function_logAfter _ _ f]
  | classDecl span name parent methods =>
      cases parent <;> simp [functions_logAfter _ methods]

theorem stmts_logAfter (s : State) (body : List Stmt) :
    stmts (s.logAfter es ds) body = ((stmts s body).1, (stmts s body).2.logAfter es ds) := by
  cases body with
  | nil => simp
  | cons st rest => simp [stmt_logAfter s st, stmts_logAfter (stmt s st).2 rest]

theorem function_logAfter (s : State) (role : FunctionRole) (f : FunctionDecl) :
    function (s.logAfter es ds) role f =
      ((function s role f).1, (function s role f).2.logAfter es ds) := by
  cases f with
  | mk span name ps body =>
      simp only [function_mk, inFunction_logAfter, stmts_logAfter (s.inFunction role ps) body]
      rfl

theorem functions_logAfter (s : State) (methods : List FunctionDecl) :
    functions (s.logAfter es ds) methods =
      ((functions s methods).1, (functions s methods).2.logAfter es ds) := by
  cases methods with
  | nil => simp
  | cons f rest =>
      simp [function_logAfter s _ f, functions_logAfter (function s _ f).2 rest]

end

end

/-! ## The stack -/

namespace State

theorem scopes_of_core {s t : State} (h : t.core = s.core) : t.scopes = s.scopes :=
  show t.core.scopes = s.core.scopes from congrArg State.scopes h

theorem function_of_core {s t : State} (h : t.core = s.core) : t.function = s.function :=
  show t.core.function = s.core.function from congrArg State.function h

theorem classRole_of_core {s t : State} (h : t.core = s.core) : t.classRole = s.classRole :=
  show t.core.classRole = s.core.classRole from congrArg State.classRole h

@[simp] theorem report_core (s : State) (p : Problem) (t : Token) :
    (s.report p t).core = s.core := rfl

@[simp] theorem resolve_core (s : State) (kind : ReferenceKind) (key name : Bytes)
    (r : Reference) : (s.resolve kind key name r).2.core = s.core := by
  unfold resolve
  split <;> rfl

@[simp] theorem use_core (s : State) (r : Reference) : (s.use r).2.core = s.core := by
  unfold use
  split <;> simp

@[simp] theorem beforeReturn_core (s : State) (keyword : Token) (value : Option Expr) :
    (s.beforeReturn keyword value).core = s.core := by
  unfold beforeReturn
  split <;> simp only [] <;> split <;> rfl

end State

mutual

@[simp] theorem expr_core (s : State) (e : Expr) : (expr s e).2.core = s.core := by
  cases e with
  | absent | literal | var => simp
  | grouping span inner => simp [expr_core s inner]
  | unary span operator operand => simp [expr_core s operand]
  | binary span operator left right | logical span operator left right =>
      simp [expr_core s left, expr_core (expr s left).2 right]
  | assign target value => simp [expr_core s value]
  | call span callee paren arguments =>
      simp [expr_core s callee, exprs_core (expr s callee).2 arguments]
  | get span object name => simp [expr_core s object]
  | set span object name value =>
      simp [expr_core s value, expr_core (expr s value).2 object]
  | thisRef r =>
      by_cases h : s.classRole = .none <;> simp [h]
  | superRef r method =>
      cases h : s.classRole <;> simp [h]

@[simp] theorem exprs_core (s : State) (es : List Expr) : (exprs s es).2.core = s.core := by
  cases es with
  | nil => simp
  | cons e rest => simp [expr_core s e, exprs_core (expr s e).2 rest]

end

@[simp] theorem expr?_core (s : State) (e : Option Expr) : (expr? s e).2.core = s.core := by
  cases e <;> simp

theorem superclass_core (s : State) (name : Token) (r : Reference) :
    (superclass s name r).2.core = { s.core with classRole := .subclass } := by
  unfold superclass
  split <;> simp only [State.use_core] <;> rfl

@[simp] theorem superclass_scopes (s : State) (name : Token) (r : Reference) :
    (superclass s name r).2.scopes = s.scopes :=
  show (superclass s name r).2.core.scopes = s.scopes by rw [superclass_core]; rfl

@[simp] theorem superclass_function (s : State) (name : Token) (r : Reference) :
    (superclass s name r).2.function = s.function :=
  show (superclass s name r).2.core.function = s.function by rw [superclass_core]; rfl

/--
The same scopes around the innermost one, and the same function and class.  Only the
innermost scope may have other names.
-/
structure SameFrame (s t : State) : Prop where
  outer : t.scopes.tail = s.scopes.tail
  depth : t.scopes.length = s.scopes.length
  function : t.function = s.function
  classRole : t.classRole = s.classRole

namespace SameFrame

theorem ofCore {s t : State} (h : t.core = s.core) : SameFrame s t where
  outer := congrArg List.tail (State.scopes_of_core h)
  depth := congrArg List.length (State.scopes_of_core h)
  function := State.function_of_core h
  classRole := State.classRole_of_core h

theorem trans {s t u : State} (h : SameFrame s t) (k : SameFrame t u) : SameFrame s u where
  outer := k.outer.trans h.outer
  depth := k.depth.trans h.depth
  function := k.function.trans h.function
  classRole := k.classRole.trans h.classRole

theorem declare (s : State) (name : Token) : SameFrame s (s.declare name) := by
  unfold State.declare
  cases hs : s.scopes with
  | nil => exact ofCore rfl
  | cons frame outer =>
      simp only
      split <;> exact ⟨by simp [hs], by simp [hs], rfl, rfl⟩

theorem define (s : State) (name : Token) : SameFrame s (s.define name) := by
  unfold State.define
  cases hs : s.scopes with
  | nil => exact ofCore rfl
  | cons frame outer => exact ⟨by simp [hs], by simp [hs], rfl, rfl⟩

theorem parameters (s : State) (ps : List Token) :
    SameFrame s (Resolution.parameters s ps) := by
  unfold Resolution.parameters
  induction ps generalizing s with
  | nil => exact ofCore rfl
  | cons p rest ih =>
      exact ((declare s p).trans (define _ p)).trans (ih _)

/-- Leaving a scope that was opened on the way brings the old stack back. -/
theorem scopes_closeScope {s t : State} {frame : Frame} (h : SameFrame (s.openWith frame) t) :
    t.closeScope.scopes = s.scopes := h.outer

end SameFrame

mutual

theorem stmt_sameFrame (s : State) (st : Stmt) : SameFrame s (stmt s st).2 := by
  cases st with
  | expression | print | ret => exact .ofCore (by simp)
  | var span name initial =>
      have hInitial : SameFrame (s.declare name) (expr? (s.declare name) initial).2 :=
        .ofCore (by simp)
      exact ((SameFrame.declare s name).trans hInitial).trans (SameFrame.define _ name)
  | block span body =>
      have hBody := stmts_sameFrame s.openScope body
      have hScopes := hBody.scopes_closeScope
      exact ⟨congrArg List.tail hScopes, congrArg List.length hScopes, hBody.function,
        hBody.classRole⟩
  | branch span condition onTrue onFalse =>
      have hCondition : SameFrame s (expr s condition).2 := .ofCore (by simp)
      have hTrue := hCondition.trans (stmt_sameFrame (expr s condition).2 onTrue)
      cases onFalse with
      | none => exact hTrue
      | some onFalse =>
          exact hTrue.trans (stmt_sameFrame (stmt (expr s condition).2 onTrue).2 onFalse)
  | loop span condition body =>
      have hCondition : SameFrame s (expr s condition).2 := .ofCore (by simp)
      exact hCondition.trans (stmt_sameFrame (expr s condition).2 body)
  | function f =>
      have hName := (SameFrame.declare s f.name).trans (SameFrame.define _ f.name)
      exact hName.trans (.ofCore (function_core _ .function f))
  | classDecl span name parent methods =>
      have hName : SameFrame { s with classRole := .plain } (s.inClass name) :=
        (SameFrame.declare _ name).trans (SameFrame.define _ name)
      cases parent with
      | none =>
          have hMethods := functions_core ((s.inClass name).openWith [(utf8 "this", true)]) methods
          have hScopes := (SameFrame.ofCore hMethods).scopes_closeScope
          exact ⟨(congrArg List.tail hScopes).trans hName.outer,
            (congrArg List.length hScopes).trans hName.depth,
            (State.function_of_core hMethods).trans hName.function, rfl⟩
      | some parent =>
          have hMethods := functions_core
            (((superclass (s.inClass name) name parent).2.openWith
              [(utf8 "super", true)]).openWith [(utf8 "this", true)]) methods
          have hScopes := (congrArg List.tail (SameFrame.ofCore hMethods).scopes_closeScope).trans
            (superclass_scopes (s.inClass name) name parent)
          have hFunction := (State.function_of_core hMethods).trans
            (superclass_function (s.inClass name) name parent)
          exact ⟨(congrArg List.tail hScopes).trans hName.outer,
            (congrArg List.length hScopes).trans hName.depth, hFunction.trans hName.function, rfl⟩

theorem stmts_sameFrame (s : State) (body : List Stmt) : SameFrame s (stmts s body).2 := by
  cases body with
  | nil => exact .ofCore rfl
  | cons st rest => exact (stmt_sameFrame s st).trans (stmts_sameFrame (stmt s st).2 rest)

theorem function_core (s : State) (role : FunctionRole) (f : FunctionDecl) :
    (function s role f).2.core = s.core := by
  cases f with
  | mk span name ps body =>
      have hBody := (SameFrame.parameters ({ s with function := role } : State).openScope ps).trans
        (stmts_sameFrame (s.inFunction role ps) body)
      have hScopes : (stmts (s.inFunction role ps) body).2.closeScope.scopes = s.scopes :=
        hBody.outer
      simp only [function_mk, State.core]
      rw [hScopes, show (stmts (s.inFunction role ps) body).2.closeScope.classRole = s.classRole from
        hBody.classRole]

theorem functions_core (s : State) (methods : List FunctionDecl) :
    (functions s methods).2.core = s.core := by
  cases methods with
  | nil => rfl
  | cons f rest => simp [function_core s _ f, functions_core (function s _ f).2 rest]

end

end Lox.Resolution
