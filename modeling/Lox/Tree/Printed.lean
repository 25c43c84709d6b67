import Lox.Tree

/-!
The printed form of trees: fully parenthesised, operator first, as in
`(+ 1.0 2.0)`.
-/

namespace Lox

def parenthesised (head : Bytes) (parts : List Bytes) : Bytes :=
  utf8 "(" ++ head ++ parts.flatMap (utf8 " " ++ ·) ++ utf8 ")"

mutual

def Expr.printed : Expr → Bytes
  | .absent => utf8 "nil"
  | .literal _ value => value.printed
  | .grouping _ inner => parenthesised (utf8 "group") [inner.printed]
  | .unary _ operator operand => parenthesised operator.lexeme [operand.printed]
  | .binary _ operator left right =>
      parenthesised operator.lexeme [left.printed, right.printed]
  | .logical _ operator left right =>
      parenthesised operator.lexeme [left.printed, right.printed]
  | .var reference => reference.name.lexeme
  | .assign target value =>
      parenthesised (utf8 "assign " ++ target.name.lexeme) [value.printed]
  | .call _ callee _ arguments =>
      parenthesised (utf8 "call") (callee.printed :: Expr.printedList arguments)
  | .get _ object name => parenthesised (utf8 "get " ++ name.lexeme) [object.printed]
  | .set _ object name value =>
      parenthesised (utf8 "set " ++ name.lexeme) [object.printed, value.printed]
  | .thisRef _ => utf8 "this"
  | .superRef _ method => parenthesised (utf8 "super " ++ method.lexeme) []

def Expr.printedList : List Expr → List Bytes
  | [] => []
  | e :: rest => e.printed :: Expr.printedList rest

end

mutual

def Stmt.printed : Stmt → Bytes
  | .expression _ expr => parenthesised (utf8 "expression") [expr.printed]
  | .print _ expr => parenthesised (utf8 "print") [expr.printed]
  | .var _ name none => parenthesised (utf8 "var " ++ name.lexeme) []
  | .var _ name (some initial) => parenthesised (utf8 "var " ++ name.lexeme) [initial.printed]
  | .block _ body => parenthesised (utf8 "block") (Stmt.printedList body)
  | .branch _ condition onTrue none =>
      parenthesised (utf8 "if") [condition.printed, onTrue.printed]
  | .branch _ condition onTrue (some onFalse) =>
      parenthesised (utf8 "if-else") [condition.printed, onTrue.printed, onFalse.printed]
  | .loop _ condition body => parenthesised (utf8 "while") [condition.printed, body.printed]
  | .function declaration => declaration.printed
  | .ret _ _ none => utf8 "(return)"
  | .ret _ _ (some value) => parenthesised (utf8 "return") [value.printed]
  | .classDecl _ name none methods =>
      parenthesised (utf8 "class " ++ name.lexeme) (FunctionDecl.printedList methods)
  | .classDecl _ name (some superclass) methods =>
      parenthesised (utf8 "class " ++ name.lexeme ++ utf8 " < " ++ superclass.name.lexeme)
        (FunctionDecl.printedList methods)

def Stmt.printedList : List Stmt → List Bytes
  | [] => []
  | s :: rest => s.printed :: Stmt.printedList rest

def FunctionDecl.printed : FunctionDecl → Bytes
  | .mk _ name parameters body =>
      parenthesised
        (utf8 "fun " ++ name.lexeme ++ utf8 "(" ++
          Bytes.join (utf8 " ") (parameters.map Token.lexeme) ++ utf8 ")")
        (Stmt.printedList body)

def FunctionDecl.printedList : List FunctionDecl → List Bytes
  | [] => []
  | f :: rest => f.printed :: FunctionDecl.printedList rest

end

end Lox
