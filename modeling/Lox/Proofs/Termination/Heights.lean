import Lox.Proofs.Relabelling

/-!
Loops and heights of trees.

A tree without loops has a height, which bounds how deep its evaluation nests as long as no
function is called.  Bodies of functions and methods count as parts of the statement that
declares them.  Neither loops nor heights depend on labels.
-/

namespace Lox

/-! ## Heights -/

mutual

/-- A call passes through two functions of the machine before a body is reached. -/
def Expr.height : Expr → Nat
  | .absent | .literal _ _ | .var _ | .thisRef _ | .superRef _ _ => 1
  | .grouping _ inner => inner.height + 1
  | .unary _ _ operand => operand.height + 1
  | .binary _ _ left right | .logical _ _ left right => max left.height right.height + 1
  | .assign _ value => value.height + 1
  | .call _ callee _ arguments => max callee.height (Expr.heightList arguments) + 3
  | .get _ object _ => object.height + 1
  | .set _ object _ value => max object.height value.height + 1

def Expr.heightList : List Expr → Nat
  | [] => 1
  | e :: rest => max e.height (Expr.heightList rest) + 1

end

mutual

def Stmt.height : Stmt → Nat
  | .expression _ e | .print _ e => e.height + 1
  | .var _ _ none | .ret _ _ none => 1
  | .var _ _ (some e) | .ret _ _ (some e) => e.height + 1
  | .block _ body => Stmt.heightList body + 1
  | .branch _ condition onTrue none => max condition.height onTrue.height + 1
  | .branch _ condition onTrue (some onFalse) =>
      max condition.height (max onTrue.height onFalse.height) + 1
  | .loop _ condition body => max condition.height body.height + 1
  | .function f => f.height + 1
  | .classDecl _ _ _ methods => FunctionDecl.heightList methods + 1

def Stmt.heightList : List Stmt → Nat
  | [] => 1
  | s :: rest => max s.height (Stmt.heightList rest) + 1

def FunctionDecl.height : FunctionDecl → Nat
  | .mk _ _ _ body => Stmt.heightList body

def FunctionDecl.heightList : List FunctionDecl → Nat
  | [] => 1
  | f :: rest => max f.height (FunctionDecl.heightList rest)

end

theorem Expr.height_pos (e : Expr) : 0 < e.height := by
  cases e <;> simp [Expr.height]

theorem Expr.heightList_pos (es : List Expr) : 0 < Expr.heightList es := by
  cases es <;> simp [Expr.heightList]

theorem Stmt.height_pos (s : Stmt) : 0 < s.height := by
  cases s with
  | var span name initial => cases initial <;> simp [Stmt.height]
  | ret span keyword value => cases value <;> simp [Stmt.height]
  | branch span condition onTrue onFalse => cases onFalse <;> simp [Stmt.height]
  | _ => simp [Stmt.height]

theorem Stmt.heightList_pos (body : List Stmt) : 0 < Stmt.heightList body := by
  cases body <;> simp [Stmt.heightList]

theorem FunctionDecl.height_eq (f : FunctionDecl) : f.height = Stmt.heightList f.body := by
  cases f
  rw [FunctionDecl.height]
  rfl

theorem FunctionDecl.height_le_of_mem {methods : List FunctionDecl} {f : FunctionDecl}
    (h : f ∈ methods) : f.height ≤ FunctionDecl.heightList methods := by
  induction methods with
  | nil => cases h
  | cons first rest ih =>
      rw [FunctionDecl.heightList]
      rcases List.mem_cons.mp h with rfl | h
      · omega
      · have hrest := ih h
        omega

/-! ## Loops -/

mutual

/-- Whether a loop stands in the statement, also in a function or method it declares. -/
def Stmt.hasLoop : Stmt → Bool
  | .loop _ _ _ => true
  | .block _ body => Stmt.hasLoopList body
  | .branch _ _ onTrue none => onTrue.hasLoop
  | .branch _ _ onTrue (some onFalse) => onTrue.hasLoop || onFalse.hasLoop
  | .function f => f.hasLoop
  | .classDecl _ _ _ methods => FunctionDecl.hasLoopList methods
  | .expression _ _ | .print _ _ | .var _ _ _ | .ret _ _ _ => false

def Stmt.hasLoopList : List Stmt → Bool
  | [] => false
  | s :: rest => s.hasLoop || Stmt.hasLoopList rest

def FunctionDecl.hasLoop : FunctionDecl → Bool
  | .mk _ _ _ body => Stmt.hasLoopList body

def FunctionDecl.hasLoopList : List FunctionDecl → Bool
  | [] => false
  | f :: rest => f.hasLoop || FunctionDecl.hasLoopList rest

end

theorem FunctionDecl.hasLoop_eq (f : FunctionDecl) : f.hasLoop = Stmt.hasLoopList f.body := by
  cases f
  rw [FunctionDecl.hasLoop]
  rfl

theorem FunctionDecl.hasLoop_of_mem {methods : List FunctionDecl} {f : FunctionDecl}
    (hloop : FunctionDecl.hasLoopList methods = false) (h : f ∈ methods) : f.hasLoop = false := by
  induction methods with
  | nil => cases h
  | cons first rest ih =>
      rw [FunctionDecl.hasLoopList, Bool.or_eq_false_iff] at hloop
      rcases List.mem_cons.mp h with rfl | h
      · exact hloop.1
      · exact ih hloop.2 h

/-! ## Other labels -/

section Labels

variable (ρ : Relabelling)

mutual

theorem Expr.height_relabel (e : Expr) : (e.relabel ρ).height = e.height := by
  cases e with
  | absent | literal | var | thisRef | superRef => rfl
  | grouping span inner => simp [Expr.relabel, Expr.height, Expr.height_relabel inner]
  | unary span operator operand => simp [Expr.relabel, Expr.height, Expr.height_relabel operand]
  | binary span operator left right | logical span operator left right =>
      simp [Expr.relabel, Expr.height, Expr.height_relabel left, Expr.height_relabel right]
  | assign target value => simp [Expr.relabel, Expr.height, Expr.height_relabel value]
  | call span callee paren arguments =>
      simp [Expr.relabel, Expr.height, Expr.height_relabel callee,
        Expr.heightList_relabelList arguments]
  | get span object name => simp [Expr.relabel, Expr.height, Expr.height_relabel object]
  | set span object name value =>
      simp [Expr.relabel, Expr.height, Expr.height_relabel object, Expr.height_relabel value]

theorem Expr.heightList_relabelList (es : List Expr) :
    Expr.heightList (Expr.relabelList ρ es) = Expr.heightList es := by
  cases es with
  | nil => rfl
  | cons e rest =>
      simp [Expr.relabelList, Expr.heightList, Expr.height_relabel e,
        Expr.heightList_relabelList rest]

end

mutual

theorem Stmt.height_relabel (s : Stmt) : (s.relabel ρ).height = s.height := by
  cases s with
  | expression span e | print span e => simp [Stmt.relabel, Stmt.height, Expr.height_relabel]
  | var span name initial | ret span keyword initial =>
      cases initial <;> simp [Stmt.relabel, Stmt.height, Expr.height_relabel]
  | block span body => simp [Stmt.relabel, Stmt.height, Stmt.heightList_relabelList body]
  | branch span condition onTrue onFalse =>
      cases onFalse with
      | none =>
          simp [Stmt.relabel, Stmt.height, Expr.height_relabel, Stmt.height_relabel onTrue]
      | some onFalse =>
          simp [Stmt.relabel, Stmt.height, Expr.height_relabel, Stmt.height_relabel onTrue,
            Stmt.height_relabel onFalse]
  | loop span condition body =>
      simp [Stmt.relabel, Stmt.height, Expr.height_relabel, Stmt.height_relabel body]
  | function f => simp [Stmt.relabel, Stmt.height, FunctionDecl.height_relabel f]
  | classDecl span name parent methods =>
      simp [Stmt.relabel, Stmt.height, FunctionDecl.heightList_relabelList methods]

theorem Stmt.heightList_relabelList (body : List Stmt) :
    Stmt.heightList (Stmt.relabelList ρ body) = Stmt.heightList body := by
  cases body with
  | nil => rfl
  | cons s rest =>
      simp [Stmt.relabelList, Stmt.heightList, Stmt.height_relabel s,
        Stmt.heightList_relabelList rest]

theorem FunctionDecl.height_relabel (f : FunctionDecl) : (f.relabel ρ).height = f.height := by
  cases f with
  | mk span name ps body =>
      simp [FunctionDecl.relabel, FunctionDecl.height, Stmt.heightList_relabelList body]

theorem FunctionDecl.heightList_relabelList (methods : List FunctionDecl) :
    FunctionDecl.heightList (FunctionDecl.relabelList ρ methods) =
      FunctionDecl.heightList methods := by
  cases methods with
  | nil => rfl
  | cons f rest =>
      simp [FunctionDecl.relabelList, FunctionDecl.heightList, FunctionDecl.height_relabel f,
        FunctionDecl.heightList_relabelList rest]

end

mutual

theorem Stmt.hasLoop_relabel (s : Stmt) : (s.relabel ρ).hasLoop = s.hasLoop := by
  cases s with
  | expression | print | var | ret | loop => rfl
  | block span body => simp [Stmt.relabel, Stmt.hasLoop, Stmt.hasLoopList_relabelList body]
  | branch span condition onTrue onFalse =>
      cases onFalse with
      | none => simp [Stmt.relabel, Stmt.hasLoop, Stmt.hasLoop_relabel onTrue]
      | some onFalse =>
          simp [Stmt.relabel, Stmt.hasLoop, Stmt.hasLoop_relabel onTrue,
            Stmt.hasLoop_relabel onFalse]
  | function f => simp [Stmt.relabel, Stmt.hasLoop, FunctionDecl.hasLoop_relabel f]
  | classDecl span name parent methods =>
      simp [Stmt.relabel, Stmt.hasLoop, FunctionDecl.hasLoopList_relabelList methods]

theorem Stmt.hasLoopList_relabelList (body : List Stmt) :
    Stmt.hasLoopList (Stmt.relabelList ρ body) = Stmt.hasLoopList body := by
  cases body with
  | nil => rfl
  | cons s rest =>
      simp [Stmt.relabelList, Stmt.hasLoopList, Stmt.hasLoop_relabel s,
        Stmt.hasLoopList_relabelList rest]

theorem FunctionDecl.hasLoop_relabel (f : FunctionDecl) : (f.relabel ρ).hasLoop = f.hasLoop := by
  cases f with
  | mk span name ps body =>
      simp [FunctionDecl.relabel, FunctionDecl.hasLoop, Stmt.hasLoopList_relabelList body]

theorem FunctionDecl.hasLoopList_relabelList (methods : List FunctionDecl) :
    FunctionDecl.hasLoopList (FunctionDecl.relabelList ρ methods) =
      FunctionDecl.hasLoopList methods := by
  cases methods with
  | nil => rfl
  | cons f rest =>
      simp [FunctionDecl.relabelList, FunctionDecl.hasLoopList, FunctionDecl.hasLoop_relabel f,
        FunctionDecl.hasLoopList_relabelList rest]

end

end Labels

end Lox
