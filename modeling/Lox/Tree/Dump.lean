import Lox.Json
import Lox.Tree

/-!
The JSON dump of trees: every node is an object with its `kind`, its `span` and
its parts.  Fields stand in alphabetical order.
-/

namespace Lox

def Position.dump (p : Position) : Json :=
  .object [("column", .integer p.column), ("line", .integer p.line),
    ("offset", .integer p.offset)]

def Span.dump (s : Span) : Json :=
  .object [("end", s.stop.dump), ("start", s.start.dump)]

def Literal.dump : Literal → Json
  | .nil => .null
  | .bool b => .bool b
  | .number x => .number x
  | .text s => .text s

def kindField (name : String) : String × Json := ("kind", .text (utf8 name))

def lexemeField (key : String) (t : Token) : String × Json := (key, .text t.lexeme)

def spanField (s : Span) : String × Json := ("span", s.dump)

mutual

def Expr.dump : Expr → Json
  | .absent => .null
  | .literal span value =>
      .object [kindField "Literal", spanField span, ("value", value.dump)]
  | .grouping span inner =>
      .object [("inner", inner.dump), kindField "Grouping", spanField span]
  | .unary span operator operand =>
      .object [kindField "Unary", lexemeField "op" operator, ("operand", operand.dump),
        spanField span]
  | .binary span operator left right =>
      .object [kindField "Binary", ("left", left.dump), lexemeField "op" operator,
        ("right", right.dump), spanField span]
  | .logical span operator left right =>
      .object [kindField "Logical", ("left", left.dump), lexemeField "op" operator,
        ("right", right.dump), spanField span]
  | .var reference =>
      .object [kindField "Variable", lexemeField "name" reference.name,
        spanField reference.span]
  | .assign target value =>
      .object [kindField "Assign", lexemeField "name" target.name, spanField target.span,
        ("value", value.dump)]
  | .call span callee _ arguments =>
      .object [("args", .array (Expr.dumpList arguments)), ("callee", callee.dump),
        kindField "Call", spanField span]
  | .get span object name =>
      .object [kindField "Get", lexemeField "name" name, ("object", object.dump),
        spanField span]
  | .set span object name value =>
      .object [kindField "Set", lexemeField "name" name, ("object", object.dump),
        spanField span, ("value", value.dump)]
  | .thisRef reference => .object [kindField "This", spanField reference.span]
  | .superRef reference method =>
      .object [kindField "Super", lexemeField "method" method, spanField reference.span]

def Expr.dumpList : List Expr → List Json
  | [] => []
  | e :: rest => e.dump :: Expr.dumpList rest

end

mutual

def Stmt.dump : Stmt → Json
  | .expression span expr =>
      .object [("expr", expr.dump), kindField "ExprStmt", spanField span]
  | .print span expr =>
      .object [("expr", expr.dump), kindField "PrintStmt", spanField span]
  | .var span name none =>
      .object [kindField "VarStmt", lexemeField "name" name, spanField span]
  | .var span name (some initial) =>
      .object [("init", initial.dump), kindField "VarStmt", lexemeField "name" name,
        spanField span]
  | .block span body =>
      .object [kindField "BlockStmt", spanField span, ("stmts", .array (Stmt.dumpList body))]
  | .branch span condition onTrue none =>
      .object [("condition", condition.dump), kindField "IfStmt", spanField span,
        ("then", onTrue.dump)]
  | .branch span condition onTrue (some onFalse) =>
      .object [("condition", condition.dump), ("else", onFalse.dump), kindField "IfStmt",
        spanField span, ("then", onTrue.dump)]
  | .loop span condition body =>
      .object [("body", body.dump), ("condition", condition.dump), kindField "WhileStmt",
        spanField span]
  | .function declaration => declaration.dump
  | .ret span _ none => .object [kindField "ReturnStmt", spanField span]
  | .ret span _ (some value) =>
      .object [kindField "ReturnStmt", spanField span, ("value", value.dump)]
  | .classDecl span name none methods =>
      .object [kindField "ClassStmt", ("methods", .array (FunctionDecl.dumpList methods)),
        lexemeField "name" name, spanField span]
  | .classDecl span name (some superclass) methods =>
      .object [kindField "ClassStmt", ("methods", .array (FunctionDecl.dumpList methods)),
        lexemeField "name" name, spanField span, lexemeField "superclass" superclass.name]

def Stmt.dumpList : List Stmt → List Json
  | [] => []
  | s :: rest => s.dump :: Stmt.dumpList rest

def FunctionDecl.dump : FunctionDecl → Json
  | .mk span name parameters body =>
      .object [("body", .array (Stmt.dumpList body)), kindField "FunctionStmt",
        lexemeField "name" name, ("params", .array (parameters.map fun t => .text t.lexeme)),
        spanField span]

def FunctionDecl.dumpList : List FunctionDecl → List Json
  | [] => []
  | f :: rest => f.dump :: FunctionDecl.dumpList rest

end

end Lox
