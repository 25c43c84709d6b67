import Lox.Editor.Notice
import Lox.Tree

/-!
The outline of a program: its top-level classes with their methods, functions and
variables.
-/

namespace Lox.Editor

inductive SymbolKind where
  | classKind
  | method
  | function
  | var
  deriving DecidableEq, Repr

def SymbolKind.number : SymbolKind → Nat
  | .classKind => 5
  | .method => 6
  | .function => 12
  | .var => 13

/-- `range` is the whole declaration, `selection` the name in it. -/
structure Leaf where
  name : Bytes
  detail : Option Bytes
  kind : SymbolKind
  range : Range
  selection : Range
  deriving DecidableEq, Repr

structure Entry where
  own : Leaf
  children : List Leaf
  deriving DecidableEq, Repr

/-- `(a, b)`. -/
def signature (f : FunctionDecl) : Bytes :=
  utf8 "(" ++ Bytes.join (utf8 ", ") (f.parameters.map Token.lexeme) ++ utf8 ")"

def functionLeaf (kind : SymbolKind) (f : FunctionDecl) : Leaf :=
  ⟨f.name.lexeme, some (signature f), kind, .ofSpan f.span, .ofSpan f.name.span⟩

def entry? : Stmt → Option Entry
  | .classDecl span name superclass methods =>
      some ⟨⟨name.lexeme, superclass.map fun r => utf8 "< " ++ r.name.lexeme, .classKind,
        .ofSpan span, .ofSpan name.span⟩, methods.map (functionLeaf .method)⟩
  | .function f => some ⟨functionLeaf .function f, []⟩
  | .var span name _ => some ⟨⟨name.lexeme, none, .var, .ofSpan span, .ofSpan name.span⟩, []⟩
  | _ => none

def outline (program : List Stmt) : List Entry := program.filterMap entry?

def Leaf.fields (l : Leaf) : List (String × Json) :=
  [("name", .text l.name)] ++ (l.detail.map fun d => ("detail", .text d)).toList ++
    [("kind", .integer l.kind.number), ("range", l.range.json),
     ("selectionRange", l.selection.json)]

def Leaf.json (l : Leaf) : Json := .object l.fields

def Entry.json (e : Entry) : Json :=
  .object (e.own.fields ++
    if e.children.isEmpty then [] else [("children", .array (e.children.map Leaf.json))])

end Lox.Editor
