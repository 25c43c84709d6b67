import Lox.Proofs.WellFormed
import Lox.Resolution

/-!
The static analysis of a program, said of the places of its text.

A tree has points: its uses of names, its declarations, its superclasses and its
`return`s.  What encloses a point, innermost first, is its place.  Whether a point
breaks a rule, whether it refers to a local binding and how far away that binding is
are questions about the one point and its place; no state goes from one point to the
next.
-/

namespace Lox.Resolution

/-! ## Places -/

/-- What can enclose a point of the text. -/
inductive Layer where
  /-- A block, with the names declared in it so far. -/
  | block (names : List Bytes)
  /-- A function with its parameters and the names declared in its body so far. -/
  | function (initializer : Bool) (names : List Bytes)
  /-- The methods of a class, which may have a superclass. -/
  | classBody (inherits : Bool)
  deriving DecidableEq, Repr

namespace Layer

def names : Layer → List Bytes
  | .block names | .function _ names => names
  | .classBody _ => []

/-- The scopes of a layer, the innermost first.  A class binds `this` inside of `super`. -/
def scopes : Layer → List (List Bytes)
  | .block names | .function _ names => [names]
  | .classBody false => [[utf8 "this"]]
  | .classBody true => [[utf8 "this"], [utf8 "super"]]

def function? : Layer → Option Bool
  | .function initializer _ => some initializer
  | _ => none

def class? : Layer → Option Bool
  | .classBody inherits => some inherits
  | _ => none

end Layer

/-- All that encloses a point, the innermost layer first; nothing at the top level. -/
abbrev Place := List Layer

namespace Place

def scopes (place : Place) : List (List Bytes) := place.flatMap Layer.scopes

def function? (place : Place) : Option Bool := place.findSome? Layer.function?

def class? (place : Place) : Option Bool := place.findSome? Layer.class?

/-- The names declared so far in the local scope of the point; a global scope keeps none. -/
def neighbours : Place → List Bytes
  | [] => []
  | layer :: _ => layer.names

/-- The place after a declaration.  Neither the global scope nor a class keeps names. -/
def declare : Place → Bytes → Place
  | .block names :: outer, name => .block (names ++ [name]) :: outer
  | .function initializer names :: outer, name => .function initializer (names ++ [name]) :: outer
  | place, _ => place

/-- The name that must not be read in its own initializer: a global may be. -/
def initializing : Place → Bytes → Option Bytes
  | [], _ => none
  | _ :: _, name => some name

def distance (place : Place) (word : Bytes) : Nat :=
  (place.scopes.takeWhile fun names => !names.contains word).length

end Place

/-! ## Points -/

inductive Node where
  | read (reference : Reference)
  | assigned (reference : Reference)
  | this (reference : Reference)
  | super (reference : Reference) (method : Token)
  | inherits (name parent : Token)
  | returned (keyword : Token) (valued : Bool)
  | declared (name : Token)
  deriving DecidableEq, Repr

/-- A node with what encloses it and with the local variable whose initializer it is part of. -/
structure Point where
  place : Place
  pending : Option Bytes := none
  node : Node
  deriving DecidableEq, Repr

namespace Point

/-- The rule that a point breaks, reported at the word that breaks it. -/
def violation? (point : Point) : Option Diagnostic :=
  match point.node with
  | .read r =>
      if point.pending = some r.name.lexeme then some (.atToken .selfInitializer r.name) else none
  | .assigned _ => none
  | .this r =>
      match point.place.class? with
      | none => some (.atToken .thisOutside r.name)
      | some _ => none
  | .super r _ =>
      match point.place.class? with
      | none => some (.atToken .superOutside r.name)
      | some false => some (.atToken .superWithoutParent r.name)
      | some true => none
  | .inherits name parent =>
      if parent.lexeme = name.lexeme then some (.atToken .selfInherit parent) else none
  | .returned keyword valued =>
      match point.place.function? with
      | none => some (.atToken .topLevelReturn keyword)
      | some initializer =>
          if initializer ∧ valued then some (.atToken .initializerReturnsValue keyword) else none
  | .declared name =>
      if name.lexeme ∈ point.place.neighbours then some (.atToken .redeclared name) else none

def bound (point : Point) : Bool :=
  match point.node with
  | .read r | .assigned r => point.place.any fun layer => layer.names.contains r.name.lexeme
  | .this _ => point.place.class?.isSome
  | .super _ _ => point.place.class? = some true
  | .inherits _ _ | .returned _ _ | .declared _ => false

def distance? (point : Point) : Option Nat :=
  if point.bound then
    match point.node with
    | .read r | .assigned r => some (point.place.distance r.name.lexeme)
    | .this _ => some (point.place.distance (utf8 "this"))
    | .super _ _ => some (point.place.distance (utf8 "super"))
    | .inherits _ _ | .returned _ _ | .declared _ => none
  else none

def entry? (point : Point) : Option Entry :=
  match point.node with
  | .read r => point.distance?.map fun hops => ⟨.var, r.name.lexeme, r.span, hops⟩
  | .assigned r => point.distance?.map fun hops => ⟨.assign, r.name.lexeme, r.span, hops⟩
  | .this r => point.distance?.map fun hops => ⟨.thisRef, utf8 "this", r.span, hops⟩
  | .super r method => point.distance?.map fun hops => ⟨.superRef, method.lexeme, r.span, hops⟩
  | .inherits _ _ | .returned _ _ | .declared _ => none

def located (point : Point) : Point :=
  { point with
    node :=
      match point.node with
      | .read r => .read { r with hops := point.distance? }
      | .assigned r => .assigned { r with hops := point.distance? }
      | .this r => .this { r with hops := point.distance? }
      | .super r method => .super { r with hops := point.distance? } method
      | node => node }

end Point

def declarations (place : Place) : List Token → List Point
  | [] => []
  | name :: rest =>
      { place, node := .declared name } :: declarations (place.declare name.lexeme) rest

end Lox.Resolution

namespace Lox

open Resolution

/-! ## The points of a tree -/

mutual

def Expr.points (place : Place) (pending : Option Bytes) : Expr → List Point
  | .absent | .literal _ _ => []
  | .grouping _ inner => inner.points place pending
  | .unary _ _ operand => operand.points place pending
  | .binary _ _ left right | .logical _ _ left right =>
      left.points place pending ++ right.points place pending
  | .var r => [{ place, pending, node := .read r }]
  | .assign target value =>
      { place, pending, node := .assigned target } :: value.points place pending
  | .call _ callee _ arguments =>
      callee.points place pending ++ Expr.pointsList place pending arguments
  | .get _ object _ => object.points place pending
  | .set _ object _ value => object.points place pending ++ value.points place pending
  | .thisRef r => [{ place, pending, node := .this r }]
  | .superRef r method => [{ place, pending, node := .super r method }]

def Expr.pointsList (place : Place) (pending : Option Bytes) : List Expr → List Point
  | [] => []
  | e :: rest => e.points place pending ++ Expr.pointsList place pending rest

end

def Expr.points? (place : Place) (pending : Option Bytes) : Option Expr → List Point
  | none => []
  | some e => e.points place pending

def Stmt.placeAfter (place : Place) (s : Stmt) : Place :=
  match s.declared? with
  | some name => place.declare name.lexeme
  | none => place

mutual

def Stmt.points (place : Place) : Stmt → List Point
  | .expression _ e | .print _ e => e.points place none
  | .var _ name initial =>
      { place, node := .declared name } ::
        Expr.points? (place.declare name.lexeme) (place.initializing name.lexeme) initial
  | .block _ body => Stmt.pointsList (.block [] :: place) body
  | .branch _ condition onTrue none => condition.points place none ++ onTrue.points place
  | .branch _ condition onTrue (some onFalse) =>
      condition.points place none ++ onTrue.points place ++ onFalse.points place
  | .loop _ condition body => condition.points place none ++ body.points place
  | .function f =>
      { place, node := .declared f.name } :: f.points (place.declare f.name.lexeme) false
  | .ret _ keyword value =>
      { place, node := .returned keyword value.isSome } :: Expr.points? place none value
  | .classDecl _ name none methods =>
      { place, node := .declared name } ::
        FunctionDecl.pointsList (.classBody false :: place.declare name.lexeme) methods
  | .classDecl _ name (some parent) methods =>
      { place, node := .declared name } ::
        { place := place.declare name.lexeme, node := .inherits name parent.name } ::
        { place := place.declare name.lexeme, node := .read parent } ::
        FunctionDecl.pointsList (.classBody true :: place.declare name.lexeme) methods

def Stmt.pointsList (place : Place) : List Stmt → List Point
  | [] => []
  | s :: rest => s.points place ++ Stmt.pointsList (s.placeAfter place) rest

/-- The points of a function; its parameters and its body share one scope. -/
def FunctionDecl.points (place : Place) (initializer : Bool) : FunctionDecl → List Point
  | .mk _ _ ps body =>
      declarations (.function initializer [] :: place) ps ++
        Stmt.pointsList (.function initializer (ps.map Token.lexeme) :: place) body

def FunctionDecl.pointsList (place : Place) : List FunctionDecl → List Point
  | [] => []
  | f :: rest =>
      f.points place (f.name.lexeme = utf8 "init") ++ FunctionDecl.pointsList place rest

end

end Lox
