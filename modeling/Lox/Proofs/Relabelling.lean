import Lox.Machine.State
import Lox.Proofs.Bindings

/-!
Trees and values with other labels.

The labels of a tree are its ranges, its tokens and the hops of its references.  A
relabelling changes them and keeps the shape; two relabellings in turn are one.
Values are relabelled through the declarations they carry, together with the scopes
that their functions captured.
-/

namespace Lox

structure Relabelling where
  span : Span → Span := id
  token : Token → Token := id
  hops : Option Nat → Option Nat := id

namespace Relabelling

def unresolve : Relabelling where
  hops := fun _ => none

def comp (second first : Relabelling) : Relabelling where
  span := second.span ∘ first.span
  token := second.token ∘ first.token
  hops := second.hops ∘ first.hops

end Relabelling

/-! ## Trees -/

def Reference.relabel (ρ : Relabelling) (r : Reference) : Reference where
  span := ρ.span r.span
  name := ρ.token r.name
  hops := ρ.hops r.hops

mutual

def Expr.relabel (ρ : Relabelling) : Expr → Expr
  | .absent => .absent
  | .literal span value => .literal (ρ.span span) value
  | .grouping span inner => .grouping (ρ.span span) (inner.relabel ρ)
  | .unary span operator operand =>
      .unary (ρ.span span) (ρ.token operator) (operand.relabel ρ)
  | .binary span operator left right =>
      .binary (ρ.span span) (ρ.token operator) (left.relabel ρ) (right.relabel ρ)
  | .logical span operator left right =>
      .logical (ρ.span span) (ρ.token operator) (left.relabel ρ) (right.relabel ρ)
  | .var reference => .var (reference.relabel ρ)
  | .assign target value => .assign (target.relabel ρ) (value.relabel ρ)
  | .call span callee paren arguments =>
      .call (ρ.span span) (callee.relabel ρ) (ρ.token paren) (Expr.relabelList ρ arguments)
  | .get span object name => .get (ρ.span span) (object.relabel ρ) (ρ.token name)
  | .set span object name value =>
      .set (ρ.span span) (object.relabel ρ) (ρ.token name) (value.relabel ρ)
  | .thisRef reference => .thisRef (reference.relabel ρ)
  | .superRef reference method => .superRef (reference.relabel ρ) (ρ.token method)

def Expr.relabelList (ρ : Relabelling) : List Expr → List Expr
  | [] => []
  | e :: rest => e.relabel ρ :: Expr.relabelList ρ rest

end

mutual

def Stmt.relabel (ρ : Relabelling) : Stmt → Stmt
  | .expression span e => .expression (ρ.span span) (e.relabel ρ)
  | .print span e => .print (ρ.span span) (e.relabel ρ)
  | .var span name initial =>
      .var (ρ.span span) (ρ.token name) (initial.map fun e => e.relabel ρ)
  | .block span body => .block (ρ.span span) (Stmt.relabelList ρ body)
  | .branch span condition onTrue none =>
      .branch (ρ.span span) (condition.relabel ρ) (onTrue.relabel ρ) none
  | .branch span condition onTrue (some onFalse) =>
      .branch (ρ.span span) (condition.relabel ρ) (onTrue.relabel ρ) (some (onFalse.relabel ρ))
  | .loop span condition body => .loop (ρ.span span) (condition.relabel ρ) (body.relabel ρ)
  | .function declaration => .function (declaration.relabel ρ)
  | .ret span keyword value =>
      .ret (ρ.span span) (ρ.token keyword) (value.map fun e => e.relabel ρ)
  | .classDecl span name superclass methods =>
      .classDecl (ρ.span span) (ρ.token name) (superclass.map fun r => r.relabel ρ)
        (FunctionDecl.relabelList ρ methods)

def Stmt.relabelList (ρ : Relabelling) : List Stmt → List Stmt
  | [] => []
  | s :: rest => s.relabel ρ :: Stmt.relabelList ρ rest

def FunctionDecl.relabel (ρ : Relabelling) : FunctionDecl → FunctionDecl
  | .mk span name parameters body =>
      .mk (ρ.span span) (ρ.token name) (parameters.map ρ.token) (Stmt.relabelList ρ body)

def FunctionDecl.relabelList (ρ : Relabelling) : List FunctionDecl → List FunctionDecl
  | [] => []
  | f :: rest => f.relabel ρ :: FunctionDecl.relabelList ρ rest

end

theorem Expr.relabelList_eq_map (ρ : Relabelling) (es : List Expr) :
    Expr.relabelList ρ es = es.map (Expr.relabel ρ) := by
  induction es with
  | nil => rfl
  | cons e rest ih => simp [Expr.relabelList, ih]

theorem Stmt.relabelList_eq_map (ρ : Relabelling) (body : List Stmt) :
    Stmt.relabelList ρ body = body.map (Stmt.relabel ρ) := by
  induction body with
  | nil => rfl
  | cons s rest ih => simp [Stmt.relabelList, ih]

theorem FunctionDecl.relabelList_eq_map (ρ : Relabelling) (methods : List FunctionDecl) :
    FunctionDecl.relabelList ρ methods = methods.map (FunctionDecl.relabel ρ) := by
  induction methods with
  | nil => rfl
  | cons f rest ih => simp [FunctionDecl.relabelList, ih]

@[simp] theorem FunctionDecl.relabel_name (ρ : Relabelling) (f : FunctionDecl) :
    (f.relabel ρ).name = ρ.token f.name := by
  cases f
  simp [FunctionDecl.relabel, FunctionDecl.name]

@[simp] theorem FunctionDecl.relabel_parameters (ρ : Relabelling) (f : FunctionDecl) :
    (f.relabel ρ).parameters = f.parameters.map ρ.token := by
  cases f
  simp [FunctionDecl.relabel, FunctionDecl.parameters]

@[simp] theorem FunctionDecl.relabel_body (ρ : Relabelling) (f : FunctionDecl) :
    (f.relabel ρ).body = Stmt.relabelList ρ f.body := by
  cases f
  simp [FunctionDecl.relabel, FunctionDecl.body]

/-! ### Two relabellings in turn -/

section Composition

variable (ρ σ : Relabelling)

theorem Reference.relabel_relabel (r : Reference) :
    (r.relabel σ).relabel ρ = r.relabel (ρ.comp σ) := rfl

mutual

theorem Expr.relabel_relabel (e : Expr) : (e.relabel σ).relabel ρ = e.relabel (ρ.comp σ) := by
  cases e with
  | absent => rfl
  | literal span value => rfl
  | grouping span inner => simp [Expr.relabel, Relabelling.comp, Expr.relabel_relabel inner]
  | unary span operator operand =>
      simp [Expr.relabel, Relabelling.comp, Expr.relabel_relabel operand]
  | binary span operator left right | logical span operator left right =>
      simp [Expr.relabel, Relabelling.comp, Expr.relabel_relabel left,
        Expr.relabel_relabel right]
  | var reference | thisRef reference =>
      simp [Expr.relabel, Reference.relabel_relabel]
  | assign target value =>
      simp [Expr.relabel, Reference.relabel_relabel, Expr.relabel_relabel value]
  | call span callee paren arguments =>
      simp [Expr.relabel, Relabelling.comp, Expr.relabel_relabel callee,
        Expr.relabelList_relabelList arguments]
  | get span object name => simp [Expr.relabel, Relabelling.comp, Expr.relabel_relabel object]
  | set span object name value =>
      simp [Expr.relabel, Relabelling.comp, Expr.relabel_relabel object,
        Expr.relabel_relabel value]
  | superRef reference method =>
      simp [Expr.relabel, Relabelling.comp, Reference.relabel_relabel]

theorem Expr.relabelList_relabelList (es : List Expr) :
    Expr.relabelList ρ (Expr.relabelList σ es) = Expr.relabelList (ρ.comp σ) es := by
  cases es with
  | nil => rfl
  | cons e rest =>
      simp [Expr.relabelList, Expr.relabel_relabel e, Expr.relabelList_relabelList rest]

end

mutual

theorem Stmt.relabel_relabel (s : Stmt) : (s.relabel σ).relabel ρ = s.relabel (ρ.comp σ) := by
  cases s with
  | expression span e | print span e =>
      simp [Stmt.relabel, Relabelling.comp, Expr.relabel_relabel]
  | var span name initial =>
      cases initial <;> simp [Stmt.relabel, Relabelling.comp, Expr.relabel_relabel]
  | block span body =>
      simp [Stmt.relabel, Relabelling.comp, Stmt.relabelList_relabelList body]
  | branch span condition onTrue onFalse =>
      cases onFalse with
      | none =>
          simp [Stmt.relabel, Relabelling.comp, Expr.relabel_relabel,
            Stmt.relabel_relabel onTrue]
      | some onFalse =>
          simp [Stmt.relabel, Relabelling.comp, Expr.relabel_relabel,
            Stmt.relabel_relabel onTrue, Stmt.relabel_relabel onFalse]
  | loop span condition body =>
      simp [Stmt.relabel, Relabelling.comp, Expr.relabel_relabel, Stmt.relabel_relabel body]
  | function declaration =>
      simp [Stmt.relabel, FunctionDecl.relabel_relabel declaration]
  | ret span keyword value =>
      cases value <;> simp [Stmt.relabel, Relabelling.comp, Expr.relabel_relabel]
  | classDecl span name superclass methods =>
      cases superclass <;>
        simp [Stmt.relabel, Relabelling.comp, Reference.relabel_relabel,
          FunctionDecl.relabelList_relabelList methods]

theorem Stmt.relabelList_relabelList (body : List Stmt) :
    Stmt.relabelList ρ (Stmt.relabelList σ body) = Stmt.relabelList (ρ.comp σ) body := by
  cases body with
  | nil => rfl
  | cons s rest =>
      simp [Stmt.relabelList, Stmt.relabel_relabel s, Stmt.relabelList_relabelList rest]

theorem FunctionDecl.relabel_relabel (f : FunctionDecl) :
    (f.relabel σ).relabel ρ = f.relabel (ρ.comp σ) := by
  cases f with
  | mk span name parameters body =>
      simp [FunctionDecl.relabel, Relabelling.comp, Stmt.relabelList_relabelList body]

theorem FunctionDecl.relabelList_relabelList (methods : List FunctionDecl) :
    FunctionDecl.relabelList ρ (FunctionDecl.relabelList σ methods) =
      FunctionDecl.relabelList (ρ.comp σ) methods := by
  cases methods with
  | nil => rfl
  | cons f rest =>
      simp [FunctionDecl.relabelList, FunctionDecl.relabel_relabel f,
        FunctionDecl.relabelList_relabelList rest]

end

end Composition

/-! ## Values -/

section Values

variable (ρ : Relabelling) (scopeOf : Nat → Nat)

def Closure.relabel (c : Closure) : Closure :=
  { c with declaration := c.declaration.relabel ρ, scope := scopeOf c.scope }

def ClassObject.relabel : ClassObject → ClassObject
  | .mk id name none methods =>
      .mk id name none (methods.mapValues fun m => m.relabel ρ scopeOf)
  | .mk id name (some parent) methods =>
      .mk id name (some parent.relabel) (methods.mapValues fun m => m.relabel ρ scopeOf)

def Value.relabel : Value → Value
  | .function id code => .function id (code.relabel ρ scopeOf)
  | .classObject c => .classObject (c.relabel ρ scopeOf)
  | .object id c => .object id (c.relabel ρ scopeOf)
  | v => v

end Values

/-- A value but for the scopes and distances in the functions it carries. -/
def Value.shape (v : Value) : Value := v.relabel .unresolve fun _ => 0

def Machine.globalBindings (m : Machine) : Bindings Value :=
  (m.scopes.bindingsOf? Machine.globalScope).getD []

def Machine.contents (m : Machine) : Bindings Value × List (Bindings Value) :=
  (m.globalBindings.mapValues Value.shape,
    m.fields.toList.map fun bindings => bindings.mapValues Value.shape)

end Lox
