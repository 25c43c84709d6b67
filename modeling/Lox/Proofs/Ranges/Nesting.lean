import Lox.Proofs.Token.Coverage
import Lox.Tree

/-!
Trees whose ranges nest.

The parts of a node are the nodes below it and the tokens that it carries.  In a nested tree
every node stands in the source and holds its parts, which follow each other in the order of
the text.  Two blocks are excepted that nobody wrote: those of the loop that a `for` stands
for.
-/

namespace Lox

/-! ## Ranges in a source -/

/-- An offset of the source, with the line and the column that belong to it. -/
structure Position.StandsIn (source : Bytes) (p : Position) : Prop where
  nonneg : 0 ≤ p.offset
  le : p.offset ≤ source.length
  faithful : p = .ofOffset source p.offset.toNat

structure Span.StandsIn (source : Bytes) (s : Span) : Prop where
  start : s.start.StandsIn source
  stop : s.stop.StandsIn source
  ordered : s.start.offset ≤ s.stop.offset

/-- The ranges stand in the source between two offsets, one after the other. -/
structure Span.Row (source : Bytes) (low high : Int) (parts : List Span) : Prop where
  le : low ≤ high
  standing : ∀ s ∈ parts, s.StandsIn source
  between : ∀ s ∈ parts, low ≤ s.start.offset ∧ s.stop.offset ≤ high
  ordered : parts.Pairwise Span.Before

structure Span.Holds (source : Bytes) (whole : Span) (parts : List Span) : Prop where
  standing : whole.StandsIn source
  row : Span.Row source whole.start.offset whole.stop.offset parts

namespace Span

variable {source : Bytes} {low mid high : Int} {s : Span} {xs ys : List Span}

theorem row_nil (h : low ≤ high) : Row source low high [] :=
  ⟨h, by simp, by simp, .nil⟩

theorem row_singleton (hs : s.StandsIn source) (hlow : low ≤ s.start.offset)
    (hhigh : s.stop.offset ≤ high) : Row source low high [s] where
  le := by
    have := hs.ordered
    omega
  standing := by simpa using hs
  between := by simpa using ⟨hlow, hhigh⟩
  ordered := List.pairwise_singleton _ _

namespace Row

theorem append (hxs : Row source low mid xs) (hys : Row source mid high ys) :
    Row source low high (xs ++ ys) where
  le := Int.le_trans hxs.le hys.le
  standing := by
    intro s hs
    rcases List.mem_append.mp hs with hs | hs
    · exact hxs.standing s hs
    · exact hys.standing s hs
  between := by
    intro s hs
    have hle := hxs.le
    have hle' := hys.le
    rcases List.mem_append.mp hs with hs | hs
    · have := hxs.between s hs
      omega
    · have := hys.between s hs
      omega
  ordered := by
    refine List.pairwise_append.mpr ⟨hxs.ordered, hys.ordered, ?_⟩
    intro a ha b hb
    exact Int.le_trans (hxs.between a ha).2 (hys.between b hb).1

theorem widen {low' high' : Int} (h : Row source low high xs) (hlow : low' ≤ low)
    (hhigh : high ≤ high') : Row source low' high' xs where
  le := by
    have := h.le
    omega
  standing := h.standing
  between := by
    intro s hs
    have := h.between s hs
    omega
  ordered := h.ordered

theorem sublist (h : Row source low high ys) (hsub : xs.Sublist ys) : Row source low high xs where
  le := h.le
  standing := fun s hs => h.standing s (hsub.mem hs)
  between := fun s hs => h.between s (hsub.mem hs)
  ordered := h.ordered.sublist hsub

theorem upTo {high' : Int} (h : Row source low high xs) (hhigh : high ≤ high') :
    Row source low high' xs :=
  h.widen (Int.le_refl low) hhigh

theorem since {low' : Int} (h : Row source low high xs) (hlow : low' ≤ low) :
    Row source low' high xs :=
  h.widen hlow (Int.le_refl high)

theorem holds {first last : Span} (h : Row source low high xs) (hfirst : xs.head? = some first)
    (hlast : xs.getLast? = some last) : Holds source ⟨first.start, last.stop⟩ xs := by
  have hle : ∀ s ∈ xs, first.start.offset ≤ s.start.offset ∧ s.stop.offset ≤ last.stop.offset := by
    obtain ⟨rest, rfl⟩ := List.head?_eq_some_iff.mp hfirst
    obtain ⟨front, hfront⟩ := List.getLast?_eq_some_iff.mp hlast
    intro s hs
    constructor
    · rcases List.mem_cons.mp hs with rfl | hs
      · exact Int.le_refl _
      · have hbefore : first.Before s := (List.pairwise_cons.mp h.ordered).1 s hs
        have := (h.standing first (by simp)).ordered
        unfold Before at hbefore
        omega
    · have hordered := h.ordered
      rw [hfront] at hs hordered
      rcases List.mem_append.mp hs with hs | hs
      · have hbefore : s.Before last :=
          (List.pairwise_append.mp hordered).2.2 s hs last (by simp)
        have := (h.standing last (by simp [hfront])).ordered
        unfold Before at hbefore
        omega
      · obtain rfl := List.mem_singleton.mp hs
        exact Int.le_refl _
  have hstart := h.standing first (List.mem_of_head? hfirst)
  have hstop := h.standing last (List.mem_of_getLast? hlast)
  have hwhole : first.start.offset ≤ last.stop.offset := by
    have := (hle first (List.mem_of_head? hfirst)).2
    have := hstart.ordered
    omega
  exact ⟨⟨hstart.start, hstop.stop, hwhole⟩, hwhole, h.standing, hle, h.ordered⟩

end Row

theorem Holds.inRow (h : Holds source s xs) (hlow : low ≤ s.start.offset)
    (hhigh : s.stop.offset ≤ high) : Row source low high [s] :=
  row_singleton h.standing hlow hhigh

end Span

/-! ## Trees -/

def Expr.parts : Expr → List Span
  | .absent | .literal _ _ => []
  | .grouping _ inner => [inner.span]
  | .unary _ operator operand => [operator.span, operand.span]
  | .binary _ operator left right | .logical _ operator left right =>
      [left.span, operator.span, right.span]
  | .var r | .thisRef r => [r.name.span]
  | .assign target value => [target.name.span, value.span]
  | .call _ callee paren arguments => callee.span :: arguments.map Expr.span ++ [paren.span]
  | .get _ object name => [object.span, name.span]
  | .set _ object name value => [object.span, name.span, value.span]
  | .superRef r method => [r.name.span, method.span]

def Expr.operands : Expr → List Expr
  | .absent | .literal _ _ | .var _ | .thisRef _ | .superRef _ _ => []
  | .grouping _ e | .unary _ _ e | .assign _ e | .get _ e _ => [e]
  | .binary _ _ left right | .logical _ _ left right => [left, right]
  | .call _ callee _ arguments => callee :: arguments
  | .set _ object _ value => [object, value]

inductive Expr.Nested (source : Bytes) : Expr → Prop where
  | intro {e : Expr} : e.span.Holds source e.parts →
      (∀ operand ∈ e.operands, Expr.Nested source operand) → Expr.Nested source e

/-- The ranges of the nodes directly below a statement and of its tokens, in order. -/
def Stmt.parts : Stmt → List Span
  | .expression _ e | .print _ e => [e.span]
  | .var _ name initial => name.span :: initial.toList.map Expr.span
  | .block _ body => body.map Stmt.span
  | .branch _ condition onTrue onFalse =>
      condition.span :: onTrue.span :: onFalse.toList.map Stmt.span
  | .loop _ condition body => [condition.span, body.span]
  | .function f => f.name.span :: f.parameters.map Token.span ++ f.body.map Stmt.span
  | .ret _ keyword value => keyword.span :: value.toList.map Expr.span
  | .classDecl _ name superclass methods =>
      name.span :: superclass.toList.map Reference.span ++ methods.map FunctionDecl.span

def Stmt.expressions : Stmt → List Expr
  | .expression _ e | .print _ e | .branch _ e _ _ | .loop _ e _ => [e]
  | .var _ _ e | .ret _ _ e => e.toList
  | .classDecl _ _ superclass _ => superclass.toList.map Expr.var
  | .block _ _ | .function _ => []

def Stmt.statements : Stmt → List Stmt
  | .block _ body => body
  | .branch _ _ onTrue onFalse => onTrue :: onFalse.toList
  | .loop _ _ body => [body]
  | .function f => f.body
  | .classDecl _ _ _ methods => methods.map Stmt.function
  | .expression _ _ | .print _ _ | .var _ _ _ | .ret _ _ _ => []

def Span.Opens (source : Bytes) (kind : Kind) (s : Span) : Prop :=
  ∃ t ∈ (scan source).1, t.kind = kind ∧ t.span.start = s.start

/-- Every node holds its parts, but for the blocks around and inside the loop of a `for`. -/
inductive Stmt.Nested (source : Bytes) : Stmt → Prop where
  | intro {s : Stmt} : s.span.start.offset < s.span.stop.offset → s.span.Holds source s.parts →
      (∀ e ∈ s.expressions, e.Nested source) →
      (∀ t ∈ s.statements, Stmt.Nested source t) → Stmt.Nested source s
  /-- The increment is executed after the body and stands before it, outside of their block. -/
  | incremented {span : Span} {condition increment : Expr} {body : Stmt} :
      span.Opens source .forKw →
      span.Holds source [condition.span, increment.span, ⟨body.span.start, span.stop⟩] →
      Span.Holds source ⟨body.span.start, span.stop⟩ [body.span] →
      condition.Nested source → increment.Nested source → Stmt.Nested source body →
      Stmt.Nested source (.loop span condition
        (.block ⟨body.span.start, span.stop⟩ [body, .expression increment.span increment]))
  /-- The loop has the range of the block around it, in which the initial statement stands. -/
  | initialized {span : Span} {initial : Stmt} {condition : Expr} {body : Stmt} :
      span.Opens source .forKw → span.Holds source [initial.span, condition.span, body.span] →
      Stmt.Nested source initial → Stmt.Nested source (.loop span condition body) →
      Stmt.Nested source (.block span [initial, .loop span condition body])

theorem Expr.Nested.holds {source : Bytes} {e : Expr} (h : e.Nested source) :
    e.span.Holds source e.parts := by
  cases h
  assumption

theorem Expr.Nested.operands {source : Bytes} {e : Expr} (h : e.Nested source) :
    ∀ operand ∈ e.operands, operand.Nested source := by
  cases h
  assumption

theorem Stmt.Nested.standing {source : Bytes} {s : Stmt} (h : s.Nested source) :
    s.span.StandsIn source := by
  cases h with
  | intro _ hholds _ _ => exact hholds.standing
  | incremented _ hholds => exact hholds.standing
  | initialized _ hholds => exact hholds.standing

end Lox
