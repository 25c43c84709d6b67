import Lox.Bindings
import Lox.Diagnostic
import Lox.Tree

/-!
Resolution of names.

One walk over the statements keeps a stack of the local scopes around the current
point.  It records at every reference how many scopes lie between the use of a
name and its binding, and it reports misplaced declarations and words.  The global
scope is not on the stack: names found in no scope are left to it.
-/

namespace Lox.Resolution

/-- The names of a scope; `true` once the initializer of the name has finished. -/
abbrev Frame := Bindings Bool

inductive FunctionRole where
  | none
  | function
  | initializer
  | method
  deriving DecidableEq, Repr, Inhabited

inductive ClassRole where
  | none
  | plain
  | subclass
  deriving DecidableEq, Repr, Inhabited

inductive ReferenceKind where
  | var
  | assign
  | thisRef
  | superRef
  deriving DecidableEq, Repr

def ReferenceKind.name : ReferenceKind → Bytes
  | .var => utf8 "Variable"
  | .assign => utf8 "Assign"
  | .thisRef => utf8 "This"
  | .superRef => utf8 "Super"

structure Entry where
  kind : ReferenceKind
  name : Bytes
  span : Span
  hops : Nat
  deriving DecidableEq, Repr

/-- The innermost scope comes first in `scopes`. -/
structure State where
  scopes : List Frame := []
  function : FunctionRole := .none
  classRole : ClassRole := .none
  entries : List Entry := []
  reported : List Diagnostic := []
  deriving DecidableEq, Repr, Inhabited

namespace State

def report (s : State) (p : Problem) (t : Token) : State :=
  { s with reported := s.reported ++ [.atToken p t] }

def openWith (s : State) (frame : Frame) : State := { s with scopes := frame :: s.scopes }

def openScope (s : State) : State := s.openWith []

def closeScope (s : State) : State := { s with scopes := s.scopes.tail }

def declare (s : State) (name : Token) : State :=
  match s.scopes with
  | [] => s
  | frame :: outer =>
      let s := if frame.has name.lexeme then s.report .redeclared name else s
      { s with scopes := frame.set name.lexeme false :: outer }

def define (s : State) (name : Token) : State :=
  match s.scopes with
  | [] => s
  | frame :: outer => { s with scopes := frame.set name.lexeme true :: outer }

/-- The number of scopes between here and the innermost one with the name. -/
def hops? (s : State) (name : Bytes) : Option Nat :=
  s.scopes.findIdx? fun frame => frame.has name

def resolve (s : State) (kind : ReferenceKind) (key name : Bytes) (r : Reference) :
    Reference × State :=
  match s.hops? key with
  | some hops =>
      ({ r with hops := some hops },
        { s with entries := s.entries ++ [⟨kind, name, r.span, hops⟩] })
  | none => ({ r with hops := none }, s)

def isInitializing (s : State) (name : Bytes) : Bool :=
  match s.scopes with
  | [] => false
  | frame :: _ => frame.get? name == some false

def use (s : State) (r : Reference) : Reference × State :=
  let s := if s.isInitializing r.name.lexeme then s.report .selfInitializer r.name else s
  s.resolve .var r.name.lexeme r.name.lexeme r

end State

/-! ## Expressions -/

mutual

def expr (s : State) : Expr → Expr × State
  | .absent => (.absent, s)
  | .literal span value => (.literal span value, s)
  | .grouping span inner =>
      let (inner, s) := expr s inner
      (.grouping span inner, s)
  | .unary span operator operand =>
      let (operand, s) := expr s operand
      (.unary span operator operand, s)
  | .binary span operator left right =>
      let (left, s) := expr s left
      let (right, s) := expr s right
      (.binary span operator left right, s)
  | .logical span operator left right =>
      let (left, s) := expr s left
      let (right, s) := expr s right
      (.logical span operator left right, s)
  | .var reference =>
      let (reference, s) := s.use reference
      (.var reference, s)
  | .assign target value =>
      let (value, s) := expr s value
      let (target, s) := s.resolve .assign target.name.lexeme target.name.lexeme target
      (.assign target value, s)
  | .call span callee paren arguments =>
      let (callee, s) := expr s callee
      let (arguments, s) := exprs s arguments
      (.call span callee paren arguments, s)
  | .get span object name =>
      let (object, s) := expr s object
      (.get span object name, s)
  | .set span object name value =>
      let (value, s) := expr s value
      let (object, s) := expr s object
      (.set span object name value, s)
  | .thisRef reference =>
      if s.classRole = .none then (.thisRef reference, s.report .thisOutside reference.name)
      else
        let (reference, s) := s.resolve .thisRef (utf8 "this") (utf8 "this") reference
        (.thisRef reference, s)
  | .superRef reference method =>
      match s.classRole with
      | .none => (.superRef reference method, s.report .superOutside reference.name)
      | .plain => (.superRef reference method, s.report .superWithoutParent reference.name)
      | .subclass =>
          let (reference, s) := s.resolve .superRef (utf8 "super") method.lexeme reference
          (.superRef reference method, s)

def exprs (s : State) : List Expr → List Expr × State
  | [] => ([], s)
  | e :: rest =>
      let (e, s) := expr s e
      let (rest, s) := exprs s rest
      (e :: rest, s)

end

def expr? (s : State) : Option Expr → Option Expr × State
  | none => (none, s)
  | some e =>
      let (e, s) := expr s e
      (some e, s)

/-! ## Statements -/

def parameters (s : State) (ps : List Token) : State :=
  ps.foldl (fun s p => (s.declare p).define p) s

def methodRole (name : Bytes) : FunctionRole :=
  if name = utf8 "init" then .initializer else .method

def superclass (s : State) (name : Token) (r : Reference) : Reference × State :=
  let s := if r.name.lexeme = name.lexeme then s.report .selfInherit r.name else s
  ({ s with classRole := .subclass } : State).use r

mutual

def stmt (s : State) : Stmt → Stmt × State
  | .expression span e =>
      let (e, s) := expr s e
      (.expression span e, s)
  | .print span e =>
      let (e, s) := expr s e
      (.print span e, s)
  | .var span name initial =>
      let (initial, s) := expr? (s.declare name) initial
      (.var span name initial, s.define name)
  | .block span body =>
      let (body, s) := stmts s.openScope body
      (.block span body, s.closeScope)
  | .branch span condition onTrue none =>
      let (condition, s) := expr s condition
      let (onTrue, s) := stmt s onTrue
      (.branch span condition onTrue none, s)
  | .branch span condition onTrue (some onFalse) =>
      let (condition, s) := expr s condition
      let (onTrue, s) := stmt s onTrue
      let (onFalse, s) := stmt s onFalse
      (.branch span condition onTrue (some onFalse), s)
  | .loop span condition body =>
      let (condition, s) := expr s condition
      let (body, s) := stmt s body
      (.loop span condition body, s)
  | .function declaration =>
      let s := (s.declare declaration.name).define declaration.name
      let (declaration, s) := function s .function declaration
      (.function declaration, s)
  | .ret span keyword value =>
      let s := if s.function = .none then s.report .topLevelReturn keyword else s
      let s :=
        if s.function = .initializer ∧ value.isSome then
          s.report .initializerReturnsValue keyword
        else s
      let (value, s) := expr? s value
      (.ret span keyword value, s)
  | .classDecl span name none methods =>
      let enclosing := s.classRole
      let s := ({ s with classRole := .plain } : State)
      let s := ((s.declare name).define name).openWith [(utf8 "this", true)]
      let (methods, s) := functions s methods
      (.classDecl span name none methods, { s.closeScope with classRole := enclosing })
  | .classDecl span name (some parent) methods =>
      let enclosing := s.classRole
      let s := ({ s with classRole := .plain } : State)
      let (parent, s) := superclass ((s.declare name).define name) name parent
      let s := (s.openWith [(utf8 "super", true)]).openWith [(utf8 "this", true)]
      let (methods, s) := functions s methods
      (.classDecl span name (some parent) methods,
        { s.closeScope.closeScope with classRole := enclosing })

def stmts (s : State) : List Stmt → List Stmt × State
  | [] => ([], s)
  | first :: rest =>
      let (first, s) := stmt s first
      let (rest, s) := stmts s rest
      (first :: rest, s)

def function (s : State) (role : FunctionRole) : FunctionDecl → FunctionDecl × State
  | .mk span name ps body =>
      let enclosing := s.function
      let s := parameters ({ s with function := role } : State).openScope ps
      let (body, s) := stmts s body
      (.mk span name ps body, { s.closeScope with function := enclosing })

def functions (s : State) : List FunctionDecl → List FunctionDecl × State
  | [] => ([], s)
  | first :: rest =>
      let (first, s) := function s (methodRole first.name.lexeme) first
      let (rest, s) := functions s rest
      (first :: rest, s)

end

/-! ## Whole programs -/

structure Outcome where
  program : List Stmt
  entries : List Entry
  diagnostics : List Diagnostic

def resolveFrom (s : State) (program : List Stmt) : Outcome × State :=
  let (program, s) := stmts { s with reported := [] } program
  (⟨program, s.entries, s.reported⟩, s)

def resolve (program : List Stmt) : Outcome := (resolveFrom {} program).1

/-- Order by start, then end, then kind of reference. -/
def Entry.le (a b : Entry) : Bool :=
  if a.span.start.offset ≠ b.span.start.offset then
    a.span.start.offset < b.span.start.offset
  else if a.span.stop.offset ≠ b.span.stop.offset then
    a.span.stop.offset < b.span.stop.offset
  else a.kind.name.le b.kind.name

def sortEntries (entries : List Entry) : List Entry := entries.mergeSort Entry.le

end Lox.Resolution
