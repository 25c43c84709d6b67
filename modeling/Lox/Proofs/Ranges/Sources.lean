import Lox.Proofs.Check
import Lox.Proofs.Ranges.Parsing
import Lox.Proofs.Resolution.Exact

/-!
The ranges of a source nest.

The statements of a source, or its one expression, are nested trees, whatever problems were
reported on the way.  Every problem stands in the source as well: one of the scanner at a
piece of it, one of the parser at a token, and one of the resolver at the word of a point,
which is a token of the tree.
-/

namespace Lox

namespace Resolution

variable {source : Bytes}

/-! ## Problems of names -/

def Node.word : Node → Token
  | .read r | .assigned r | .this r | .super r _ => r.name
  | .inherits _ parent => parent
  | .returned keyword _ => keyword
  | .declared name => name

theorem Point.span_of_violation? {point : Point} {d : Diagnostic}
    (h : point.violation? = some d) : d.span = point.node.word.span := by
  unfold Point.violation? at h
  split at h
  all_goals grind [Diagnostic.atToken, Node.word]

def WordsStand (source : Bytes) (points : List Point) : Prop :=
  ∀ point ∈ points, point.node.word.span.StandsIn source

namespace WordsStand

variable {points rest : List Point} {point : Point}

theorem nil : WordsStand source [] := by simp [WordsStand]

theorem cons (h : point.node.word.span.StandsIn source) (hrest : WordsStand source rest) :
    WordsStand source (point :: rest) := List.forall_mem_cons.mpr ⟨h, hrest⟩

theorem append (h : WordsStand source points) (hrest : WordsStand source rest) :
    WordsStand source (points ++ rest) := List.forall_mem_append.mpr ⟨h, hrest⟩

theorem declarations {ps : List Token} (h : ∀ t ∈ ps, t.span.StandsIn source) (place : Place) :
    WordsStand source (Resolution.declarations place ps) := by
  induction ps generalizing place with
  | nil => exact nil
  | cons t rest ih =>
      obtain ⟨ht, hrest⟩ := List.forall_mem_cons.mp h
      exact cons ht (ih hrest _)

theorem expressions {es : List Expr} {place : Place} {pending : Option Bytes}
    (h : ∀ e ∈ es, WordsStand source (e.points place pending)) :
    WordsStand source (Expr.pointsList place pending es) := by
  induction es with
  | nil => exact nil
  | cons e rest ih =>
      obtain ⟨he, hrest⟩ := List.forall_mem_cons.mp h
      exact he.append (ih hrest)

theorem optional {e : Option Expr} {place : Place} {pending : Option Bytes}
    (h : ∀ x ∈ e.toList, WordsStand source (x.points place pending)) :
    WordsStand source (Expr.points? place pending e) := by
  cases e with
  | none => exact nil
  | some e => exact h e (by simp)

theorem statements {body : List Stmt}
    (h : ∀ s ∈ body, ∀ place, WordsStand source (s.points place)) (place : Place) :
    WordsStand source (Stmt.pointsList place body) := by
  induction body generalizing place with
  | nil => exact nil
  | cons s rest ih =>
      obtain ⟨hs, hrest⟩ := List.forall_mem_cons.mp h
      exact (hs place).append (ih hrest _)

theorem function {f : FunctionDecl} (hps : ∀ t ∈ f.parameters, t.span.StandsIn source)
    (hbody : ∀ s ∈ f.body, ∀ place, WordsStand source (s.points place)) (place : Place)
    (initializer : Bool) : WordsStand source (f.points place initializer) := by
  cases f
  exact (declarations hps _).append (statements hbody _)

theorem methods {fs : List FunctionDecl}
    (h : ∀ f ∈ fs, ∀ place initializer, WordsStand source (f.points place initializer))
    (place : Place) : WordsStand source (FunctionDecl.pointsList place fs) := by
  induction fs with
  | nil => exact nil
  | cons f rest ih =>
      obtain ⟨hf, hrest⟩ := List.forall_mem_cons.mp h
      exact (hf place _).append (ih hrest)

end WordsStand

end Resolution

open Resolution

variable {source : Bytes}

theorem Expr.Nested.wordsStand {e : Expr} (h : e.Nested source) (place : Place)
    (pending : Option Bytes) : WordsStand source (e.points place pending) := by
  induction h with
  | @intro e hholds _ ih =>
      have hword {t : Token} (ht : t.span ∈ e.parts) : t.span.StandsIn source :=
        hholds.row.standing _ ht
      cases e with
      | absent | literal => exact .nil
      | grouping span inner | unary span operator inner | get span inner name =>
          exact ih inner (by simp [Expr.operands])
      | binary span operator left right | logical span operator left right
      | set span left name right =>
          exact (ih left (by simp [Expr.operands])).append (ih right (by simp [Expr.operands]))
      | var r | thisRef r | superRef r method =>
          exact .cons (hword (by simp [Expr.parts, Node.word])) .nil
      | assign target value =>
          exact .cons (hword (by simp [Expr.parts, Node.word])) (ih value (by simp [Expr.operands]))
      | call span callee paren arguments =>
          refine (ih callee (by simp [Expr.operands])).append (.expressions ?_)
          exact fun e he => ih e (by simp [Expr.operands, he])

theorem Stmt.Nested.wordsStand {s : Stmt} (h : s.Nested source) :
    (∀ place, WordsStand source (s.points place)) ∧
      ∀ f, s = .function f → ∀ place initializer,
        WordsStand source (f.points place initializer) := by
  induction h with
  | @intro s _ hholds hexpressions _ ih =>
      have hword {t : Token} (ht : t.span ∈ s.parts) : t.span.StandsIn source :=
        hholds.row.standing _ ht
      have hbelow (e : Expr) (he : e ∈ s.expressions) (place : Place) (pending : Option Bytes) :
          WordsStand source (e.points place pending) :=
        (hexpressions e he).wordsStand place pending
      cases s with
      | expression span e | print span e =>
          exact ⟨fun place => hbelow e (by simp [Stmt.expressions]) place none, by simp⟩
      | var span name initial =>
          refine ⟨fun place => .cons (hword (by simp [Stmt.parts, Node.word])) ?_, by simp⟩
          exact .optional fun e he => hbelow e he _ _
      | block span body =>
          exact ⟨fun place => .statements (fun t ht => (ih t ht).1) _, by simp⟩
      | branch span condition onTrue onFalse =>
          refine ⟨fun place => ?_, by simp⟩
          have hTrue := (hbelow condition (by simp [Stmt.expressions]) place none).append
            ((ih onTrue (by simp [Stmt.statements])).1 place)
          cases onFalse with
          | none => exact hTrue
          | some onFalse => exact hTrue.append ((ih onFalse (by simp [Stmt.statements])).1 place)
      | loop span condition body =>
          refine ⟨fun place => ?_, by simp⟩
          exact (hbelow condition (by simp [Stmt.expressions]) place none).append
            ((ih body (by simp [Stmt.statements])).1 place)
      | function f =>
          have hf : ∀ place initializer, WordsStand source (f.points place initializer) := by
            refine WordsStand.function ?_ fun t ht => (ih t ht).1
            exact fun t ht => hword (by simpa [Stmt.parts] using .inr (.inl ⟨t, ht, rfl⟩))
          refine ⟨fun place => .cons (hword (by simp [Stmt.parts, Node.word])) (hf _ _), ?_⟩
          rintro _ ⟨⟩
          exact hf
      | ret span keyword value =>
          refine ⟨fun place => .cons (hword (by simp [Stmt.parts, Node.word])) ?_, by simp⟩
          exact .optional fun e he => hbelow e he _ _
      | classDecl span name parent methods =>
          refine ⟨fun place => ?_, by simp⟩
          have hname : name.span.StandsIn source := hword (by simp [Stmt.parts])
          have hmethods : ∀ place, WordsStand source (FunctionDecl.pointsList place methods) := by
            refine WordsStand.methods fun f hf => ?_
            exact (ih (.function f) (by simpa [Stmt.statements] using hf)).2 f rfl
          cases parent with
          | none => exact .cons hname (hmethods _)
          | some parent =>
              have hparent : parent.name.span.StandsIn source :=
                (hexpressions (.var parent) (by simp [Stmt.expressions])).holds.row.standing _
                  (by simp [Expr.parts])
              exact .cons hname (.cons hparent (.cons hparent (hmethods _)))
  | incremented _ _ _ hcondition hincrement _ ih =>
      refine ⟨fun place => (hcondition.wordsStand _ _).append ?_, by simp⟩
      exact (ih.1 _).append ((hincrement.wordsStand _ _).append .nil)
  | initialized _ _ _ _ ihInitial ihLoop =>
      exact ⟨fun place => (ihInitial.1 _).append ((ihLoop.1 _).append .nil), by simp⟩

/-! ## Sources -/

theorem parse_laid (source : Bytes) : Stmt.LaidList source 0 source.length (parse source).1 :=
  (Parser.program_laid source).1

theorem standsIn_of_mem_parse {d : Diagnostic} (h : d ∈ (parse source).2.diagnostics) :
    d.span.StandsIn source := by
  rcases List.mem_append.mp h with h | h
  · obtain ⟨s, hs, hd⟩ := List.mem_filterMap.mp h
    rw [(Scan.span_of_diagnostic? hd).1]
    exact Scan.standsIn_of_mem_segments hs
  · exact (Parser.program_laid source).2 d h

theorem standsIn_of_mem_resolve {d : Diagnostic}
    (h : d ∈ (resolve (parse source).1).diagnostics) : d.span.StandsIn source := by
  have hsettles := stmts_settles {} (parse source).1 mirrors_start trivial (parse_wellFormed source)
  obtain ⟨point, hpoint, hviolation⟩ := List.mem_filterMap.mp (hsettles.reported.mem_iff.mp h)
  have hwords : WordsStand source (Stmt.pointsList [] (parse source).1) :=
    .statements (fun s hs => ((parse_laid source).all s hs).wordsStand.1) []
  rw [Point.span_of_violation? hviolation]
  exact hwords point hpoint

theorem standsIn_of_mem_check {d : Diagnostic} (h : d ∈ (check source).report.diagnostics) :
    d.span.StandsIn source := by
  unfold check at h
  by_cases hclean : (parse source).2.diagnostics = []
  · rw [checkFrom_eq_of_parse_clean hclean] at h
    exact standsIn_of_mem_resolve h
  · rw [checkFrom_eq_of_parse_failed hclean] at h
    exact standsIn_of_mem_parse h

/--
For every source, also a malformed one: the statements that are read follow each other and
are nested trees, and so is the expression if it is read as one, and all problems that are
found stand in the source.
-/
theorem ranges_nest (source : Bytes) :
    ((∀ s ∈ (parse source).1, s.Nested source) ∧
      ((parse source).1.map Stmt.span).Pairwise Span.Before) ∧
    (∀ e ∈ (parseExpression source).1, e.Nested source) ∧
    ∀ d ∈ (check source).report.diagnostics, d.span.StandsIn source := by
  have hprogram := parse_laid source
  refine ⟨⟨hprogram.all, hprogram.row.ordered⟩, Parser.soleExpression_nested source, ?_⟩
  exact fun d hd => standsIn_of_mem_check hd

end Lox
