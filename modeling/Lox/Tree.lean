import Lox.Token

/-!
Expressions, statements and declarations.

Every node carries the range of source it was read from.  A node that refers to a
binding (a variable, an assignment, `this` or `super`) also carries the number of
scopes between its use and the scope that binds the name; `none` is a global, or
a reference that has not been resolved yet.
-/

namespace Lox

structure Reference where
  span : Span
  name : Token
  hops : Option Nat := none
  deriving DecidableEq, Repr, Inhabited

/-- `absent` stands where an operand was never given. -/
inductive Expr where
  | absent
  | literal (span : Span) (value : Literal)
  | grouping (span : Span) (inner : Expr)
  | unary (span : Span) (operator : Token) (operand : Expr)
  | binary (span : Span) (operator : Token) (left right : Expr)
  | logical (span : Span) (operator : Token) (left right : Expr)
  | var (reference : Reference)
  | assign (target : Reference) (value : Expr)
  | call (span : Span) (callee : Expr) (paren : Token) (arguments : List Expr)
  | get (span : Span) (object : Expr) (name : Token)
  | set (span : Span) (object : Expr) (name : Token) (value : Expr)
  | thisRef (reference : Reference)
  | superRef (reference : Reference) (method : Token)
  deriving Inhabited

/--
The range of an expression.  The reference of an assignment and of `super` spans
the whole expression, not only the name.
-/
def Expr.span : Expr → Span
  | .absent => {}
  | .literal span _ | .grouping span _ | .unary span _ _ | .binary span _ _ _
  | .logical span _ _ _ | .call span _ _ _ | .get span _ _ | .set span _ _ _ => span
  | .var reference | .assign reference _ | .thisRef reference
  | .superRef reference _ => reference.span

mutual

inductive Stmt where
  | expression (span : Span) (expr : Expr)
  | print (span : Span) (expr : Expr)
  | var (span : Span) (name : Token) (initial : Option Expr)
  | block (span : Span) (body : List Stmt)
  | branch (span : Span) (condition : Expr) (onTrue : Stmt) (onFalse : Option Stmt)
  | loop (span : Span) (condition : Expr) (body : Stmt)
  | function (declaration : FunctionDecl)
  | ret (span : Span) (keyword : Token) (value : Option Expr)
  | classDecl (span : Span) (name : Token) (superclass : Option Reference)
      (methods : List FunctionDecl)

inductive FunctionDecl where
  | mk (span : Span) (name : Token) (parameters : List Token) (body : List Stmt)

end

namespace FunctionDecl

def span : FunctionDecl → Span
  | .mk span _ _ _ => span

def name : FunctionDecl → Token
  | .mk _ name _ _ => name

def parameters : FunctionDecl → List Token
  | .mk _ _ parameters _ => parameters

def body : FunctionDecl → List Stmt
  | .mk _ _ _ body => body

end FunctionDecl

instance : Inhabited FunctionDecl := ⟨.mk {} {} [] []⟩

instance : Inhabited Stmt := ⟨.block {} []⟩

def Stmt.span : Stmt → Span
  | .expression span _ | .print span _ | .var span _ _ | .block span _
  | .branch span _ _ _ | .loop span _ _ | .ret span _ _ | .classDecl span _ _ _ => span
  | .function declaration => declaration.span

end Lox
