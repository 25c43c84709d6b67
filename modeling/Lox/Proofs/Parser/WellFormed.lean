import Lox.Pipeline
import Lox.Proofs.Parser.Triple
import Lox.Proofs.Token.Spelling

/-!
Parsed trees are well formed.

All tokens that a parser sees are spelled as their kinds say, so a declared name is
never one of the words `this` and `super`.  Every problem that is reported is an
error.
-/

namespace Lox.Parser

/-- All tokens still to come are spelled as their kinds say, all problems so far errors. -/
structure Cursor.Proper (c : Cursor) : Prop where
  rest : ∀ t ∈ c.rest, t.Spelled
  last : c.last.Spelled
  reported : ∀ d ∈ c.reported, d.severity = .error

namespace Cursor.Proper

variable {c : Cursor}

theorem peek (h : c.Proper) : c.peek.Spelled := by
  unfold Cursor.peek
  cases hrest : c.rest with
  | nil => simpa using h.last
  | cons t rest => exact h.rest t (by simp [hrest])

theorem advance (h : c.Proper) : c.advance.Proper := by
  unfold Cursor.advance
  split
  · exact h
  · rename_i t rest hrest
    split
    · exact h
    · exact ⟨fun u hu => h.rest u (by simp [hrest, hu]), h.last, h.reported⟩

theorem report (h : c.Proper) (p : Problem) (t : Token) : (c.report p t).Proper where
  rest := h.rest
  last := h.last
  reported := by
    intro d hd
    rcases List.mem_append.mp hd with hd | hd
    · exact h.reported d hd
    · obtain rfl := List.mem_singleton.mp hd
      rfl

end Cursor.Proper

theorem skip_subset (previous : Option Token) (tokens : List Token) :
    (skip previous tokens).2 ⊆ tokens := by
  induction tokens generalizing previous with
  | nil => simp [skip]
  | cons t rest ih =>
      unfold skip
      split
      · exact fun _ hu => hu
      · exact fun u hu => List.mem_cons_of_mem t (ih (some t) hu)

theorem Cursor.Proper.synchronize {c : Cursor} (h : c.Proper) : (synchronize c).Proper where
  rest t ht := h.advance.rest t (skip_subset _ _ ht)
  last := h.advance.last
  reported := h.advance.reported

/-! ## Steps -/

instance : Kept Cursor.Proper where
  advance h := h.advance
  report p t h := h.report p t
  synchronize h := h.synchronize

namespace Spelled

open Cursor (Proper)

theorem peek : Yields Proper Parser.peek Token.Spelled := .peek Proper.peek

theorem expect (k : Kind) (message : String) :
    Yields Proper (Parser.expect k message) fun t => t.Spelled ∧ t.kind = k :=
  .expect message fun h hkind => ⟨h.peek, hkind⟩

theorem identifier (message : String) :
    Yields Proper (Parser.expect .identifier message) Token.Nameable :=
  (expect .identifier message).imp fun _ h => h.1.nameable h.2

end Spelled

/-! ## Expressions -/

section

open Cursor (Proper)

mutual

theorem expression_yields (n : Nat) : Yields Proper (expression n) Expr.WellFormed := by
  match n with
  | 0 => exact .outOfFuel
  | n + 1 =>
      unfold expression
      refine (operation_yields n 0).bind fun left hleft => ?_
      refine (Yields.accept _).bind fun found _ => ?_
      refine .ite (fun _ => ?_) fun _ => .pure hleft
      refine Yields.before.bind fun equals _ => ?_
      refine (expression_yields n).bind fun value hvalue => ?_
      cases left with
      | var r =>
          simp only [Expr.WellFormed] at hleft
          exact .pure (by simpa [Expr.WellFormed] using ⟨hleft.2, hvalue⟩)
      | get span object name =>
          simp only [Expr.WellFormed] at hleft
          exact .pure (by simpa [Expr.WellFormed] using ⟨hleft, hvalue⟩)
      | _ => exact (Yields.report _ _).bind fun _ _ => .pure hleft

theorem operation_yields (n power : Nat) :
    Yields Proper (operation n power) Expr.WellFormed := by
  match n with
  | 0 => exact .outOfFuel
  | n + 1 =>
      unfold operation
      exact (operand_yields n).bind fun left hleft => operations_yields n power left hleft

theorem operations_yields (n power : Nat) (left : Expr) (hleft : left.WellFormed) :
    Yields Proper (operations n power left) Expr.WellFormed := by
  match n with
  | 0 => exact .outOfFuel
  | n + 1 =>
      unfold operations
      refine Spelled.peek.bind fun t _ => ?_
      refine .ite (fun _ => ?_) fun _ => .pure hleft
      exact (operator_yields n left hleft).bind fun left' hleft' =>
        operations_yields n power left' hleft'

theorem operand_yields (n : Nat) : Yields Proper (operand n) Expr.WellFormed := by
  match n with
  | 0 => exact .outOfFuel
  | n + 1 =>
      unfold operand
      refine Spelled.peek.bind fun t ht => ?_
      have unary : Yields Proper (do
          let operand ← operation n unaryPower
          return .unary ⟨t.span.start, operand.span.stop⟩ t operand) Expr.WellFormed :=
        (operation_yields n unaryPower).bind fun e he =>
          .pure (by simpa [Expr.WellFormed] using he)
      split
      case h_1 | h_2 | h_3 | h_4 | h_5 =>
          exact Yields.next.bind fun _ _ => .pure (by simp [Expr.WellFormed])
      case h_6 hkind =>
          exact Yields.next.bind fun _ _ =>
            .pure (by simpa [Expr.WellFormed] using ht.this hkind)
      case h_7 =>
          refine Yields.next.bind fun _ _ => (Spelled.expect _ _).bind fun _ _ => ?_
          exact (Spelled.expect _ _).bind fun _ _ => .pure (by simp [Expr.WellFormed])
      case h_8 hkind =>
          exact Yields.next.bind fun _ _ =>
            .pure (by simpa [Expr.WellFormed] using ht.nameable hkind)
      case h_9 =>
          refine Yields.next.bind fun _ _ => (expression_yields n).bind fun inner hinner => ?_
          exact (Spelled.expect _ _).bind fun _ _ => .pure (by simpa [Expr.WellFormed] using hinner)
      case h_10 | h_11 => exact Yields.next.bind fun _ _ => unary
      case h_12 => exact Yields.fail _ _

theorem operator_yields (n : Nat) (left : Expr) (hleft : left.WellFormed) :
    Yields Proper (operator n left) Expr.WellFormed := by
  match n with
  | 0 => exact .outOfFuel
  | n + 1 =>
      unfold operator
      refine Yields.next.bind fun t _ => ?_
      split
      case h_1 =>
          refine (Yields.at? _).bind fun _ _ => ?_
          refine .iteBind (Q := Expr.WellFormedList)
            (fun _ => .pure (by simp [Expr.WellFormedList]))
            (fun _ => (arguments_yields n 0).imp fun _ => Expr.WellFormedList.of_forall)
            fun arguments harguments => ?_
          exact (Spelled.expect _ _).bind fun _ _ =>
            .pure (by simpa [Expr.WellFormed] using ⟨hleft, harguments⟩)
      case h_2 =>
          exact (Spelled.expect _ _).bind fun _ _ =>
            .pure (by simpa [Expr.WellFormed] using hleft)
      all_goals
        exact (operation_yields n _).bind fun right hright =>
          .pure (by simpa [Expr.WellFormed] using ⟨hleft, hright⟩)

theorem arguments_yields (n count : Nat) :
    Yields Proper (arguments n count) fun es => ∀ e ∈ es, e.WellFormed := by
  match n with
  | 0 => exact .outOfFuel
  | n + 1 =>
      rw [arguments_succ]
      exact .counted ((expression_yields n).separated (arguments_yields n (count + 1)))

end

/-! ## Statements -/

def Plain (s : Stmt) : Prop := s.WellFormed ∧ s.declared? = none

theorem optionalExpression_yields (n : Nat) :
    Yields Proper (some <$> expression n) fun e => ∀ x ∈ e, x.WellFormed :=
  (expression_yields n).map fun e he => by simpa using he

theorem absentExpression_yields :
    Yields Proper (pure none) fun e : Option Expr => ∀ x ∈ e, x.WellFormed :=
  .pure (by simp)

theorem parameters_yields (n count : Nat) :
    Yields Proper (parameters n count) fun ps => ∀ p ∈ ps, p.Nameable := by
  induction n generalizing count with
  | zero => exact .outOfFuel
  | succ n ih =>
      rw [parameters_succ]
      exact .counted ((Spelled.identifier _).separated (ih (count + 1)))

theorem variableDeclaration_yields (n : Nat) :
    Yields Proper (variableDeclaration n) Stmt.WellFormed := by
  unfold variableDeclaration
  refine Yields.before.bind fun keyword _ => (Spelled.identifier _).bind fun name hname => ?_
  refine (Yields.accept _).bind fun _ _ => ?_
  refine .iteBind (fun _ => optionalExpression_yields n) (fun _ => absentExpression_yields)
    fun initial hinitial => ?_
  refine (Spelled.expect _ _).bind fun _ _ => Yields.previousEnd.bind fun _ _ => ?_
  exact .pure (by simpa [Stmt.WellFormed] using ⟨hname, hinitial⟩)

theorem expressionStatement_yields (n : Nat) : Yields Proper (expressionStatement n) Plain := by
  unfold expressionStatement
  refine (expression_yields n).bind fun e he => (Spelled.expect _ _).bind fun _ _ => ?_
  exact Yields.previousEnd.bind fun _ _ =>
    .pure ⟨by simpa [Stmt.WellFormed] using he, rfl⟩

theorem forInitial_yields (n : Nat) :
    Yields Proper (forInitial n) fun s => ∀ x ∈ s, x.WellFormed := by
  unfold forInitial
  refine (Yields.accept _).bind fun _ _ => .ite (fun _ => .pure (by simp)) fun _ => ?_
  refine (Yields.accept _).bind fun _ _ => .ite (fun _ => ?_) fun _ => ?_
  · exact (variableDeclaration_yields n).bind fun s hs => .pure (by simpa using hs)
  · exact (expressionStatement_yields n).bind fun s hs => .pure (by simpa using hs.1)

theorem forLoop_plain {start stop conditionEnd : Position} {initial : Option Stmt}
    {condition increment : Option Expr} {body : Stmt} (hinitial : ∀ s ∈ initial, s.WellFormed)
    (hcondition : ∀ e ∈ condition, e.WellFormed) (hincrement : ∀ e ∈ increment, e.WellFormed)
    (hbody : Plain body) :
    Plain (forLoop start stop initial condition conditionEnd increment body) := by
  obtain ⟨hwf, hnone⟩ := hbody
  have hcondition' : (condition.getD
      (.literal ⟨conditionEnd, conditionEnd⟩ (.bool true))).WellFormed := by
    cases condition with
    | none => simp [Expr.WellFormed]
    | some e => exact hcondition e rfl
  unfold forLoop
  cases initial <;> cases increment <;>
    simp_all [Plain, Stmt.WellFormed, Stmt.WellFormedList, Stmt.declared?]

mutual

theorem declarations_yields (n : Nat) (inBlock : Bool) :
    Yields Proper (declarations n inBlock) Stmt.WellFormedList := by
  match n with
  | 0 => exact .outOfFuel
  | n + 1 =>
      unfold declarations
      refine (Yields.at? _).bind fun _ _ => (Yields.at? _).bind fun _ _ => ?_
      refine .ite (fun _ => .pure (by simp [Stmt.WellFormedList])) fun _ => ?_
      refine (declaration_yields n).recovering.bind fun first hfirst => ?_
      refine (declarations_yields n inBlock).bind fun rest hrest => .pure ?_
      cases first with
      | none => exact hrest
      | some s => exact ⟨hfirst s rfl, hrest⟩

theorem block_yields (n : Nat) : Yields Proper (block n) Stmt.WellFormedList := by
  match n with
  | 0 => exact .outOfFuel
  | n + 1 =>
      unfold block
      exact (declarations_yields n true).bind fun body hbody =>
        (Spelled.expect _ _).bind fun _ _ => .pure hbody

theorem declaration_yields (n : Nat) : Yields Proper (declaration n) Stmt.WellFormed := by
  match n with
  | 0 => exact .outOfFuel
  | n + 1 =>
      unfold declaration
      refine (Yields.accept _).bind fun _ _ => .ite (fun _ => classDeclaration_yields n) fun _ => ?_
      refine (Yields.accept _).bind fun _ _ => .ite (fun _ => ?_) fun _ => ?_
      · refine Yields.before.bind fun keyword _ => ?_
        exact (function_yields n _ _).bind fun f hf =>
          .pure (by simpa [Stmt.WellFormed] using hf)
      · refine (Yields.accept _).bind fun _ _ => ?_
        exact .ite (fun _ => variableDeclaration_yields n)
          fun _ => (statement_yields n).imp fun _ h => h.1

theorem classDeclaration_yields (n : Nat) :
    Yields Proper (classDeclaration n) Stmt.WellFormed := by
  match n with
  | 0 => exact .outOfFuel
  | n + 1 =>
      unfold classDeclaration
      refine Yields.before.bind fun keyword _ => (Spelled.identifier _).bind fun name hname => ?_
      have rest (parent : Option Reference)
          (hparent : ∀ x ∈ parent, x.hops = none ∧ x.name.Nameable) : Yields Proper (do
            let _ ← expect .leftBrace "Expect '\x7b' before class body."
            let methods ← methods n
            let _ ← expect .rightBrace "Expect '\x7d' after class body."
            return .classDecl ⟨keyword.span.start, ← previousEnd⟩ name parent methods)
          Stmt.WellFormed := by
        refine (Spelled.expect _ _).bind fun _ _ => (methods_yields n).bind fun ms hms => ?_
        refine (Spelled.expect _ _).bind fun _ _ => Yields.previousEnd.bind fun _ _ => ?_
        exact .pure (by simpa [Stmt.WellFormed] using ⟨hname, hparent, hms⟩)
      refine (Yields.accept _).bind fun _ _ => .ite (fun _ => ?_) fun _ => rest none (by simp)
      exact (Spelled.identifier _).bind fun parent hparent =>
        rest (some { span := parent.span, name := parent }) (by simpa using hparent)

theorem methods_yields (n : Nat) : Yields Proper (methods n) FunctionDecl.WellFormedList := by
  match n with
  | 0 => exact .outOfFuel
  | n + 1 =>
      unfold methods
      refine (Yields.at? _).bind fun _ _ => (Yields.at? _).bind fun _ _ => ?_
      refine .ite (fun _ => .pure (by simp [FunctionDecl.WellFormedList])) fun _ => ?_
      refine Spelled.peek.bind fun t _ => (function_yields n _ _).bind fun first hfirst => ?_
      exact (methods_yields n).bind fun rest hrest =>
        .pure (by simpa [FunctionDecl.WellFormedList] using ⟨hfirst.2, hrest⟩)

theorem function_yields (n : Nat) (role : String) (start : Position) :
    Yields Proper (function n role start) fun f => f.name.Nameable ∧ f.WellFormed := by
  match n with
  | 0 => exact .outOfFuel
  | n + 1 =>
      unfold function
      refine (Spelled.identifier _).bind fun name hname => (Spelled.expect _ _).bind fun _ _ => ?_
      refine (Yields.at? _).bind fun _ _ => ?_
      refine .iteBind (fun _ => .pure (by simp)) (fun _ => parameters_yields n 0)
        fun ps hps => ?_
      refine (Spelled.expect _ _).bind fun _ _ => (Spelled.expect _ _).bind fun _ _ => ?_
      refine (block_yields n).bind fun body hbody => Yields.previousEnd.bind fun _ _ => ?_
      exact .pure ⟨hname, by simpa [FunctionDecl.WellFormed] using ⟨hps, hbody⟩⟩

theorem statement_yields (n : Nat) : Yields Proper (statement n) Plain := by
  match n with
  | 0 => exact .outOfFuel
  | n + 1 =>
      unfold statement
      refine (Yields.accept _).bind fun _ _ => .ite (fun _ => forStatement_yields n) fun _ => ?_
      refine (Yields.accept _).bind fun _ _ => .ite (fun _ => ifStatement_yields n) fun _ => ?_
      refine (Yields.accept _).bind fun _ _ => .ite (fun _ => ?_) fun _ => ?_
      · refine Yields.before.bind fun keyword _ => (expression_yields n).bind fun e he => ?_
        refine (Spelled.expect _ _).bind fun _ _ => Yields.previousEnd.bind fun _ _ => ?_
        exact .pure ⟨by simpa [Stmt.WellFormed] using he, rfl⟩
      refine (Yields.accept _).bind fun _ _ => .ite (fun _ => ?_) fun _ => ?_
      · refine Yields.before.bind fun keyword _ => (Yields.at? _).bind fun _ _ => ?_
        refine .iteBind (fun _ => absentExpression_yields) (fun _ => optionalExpression_yields n)
          fun value hvalue => ?_
        refine (Spelled.expect _ _).bind fun _ _ => Yields.previousEnd.bind fun _ _ => ?_
        exact .pure ⟨by simpa [Stmt.WellFormed] using hvalue, rfl⟩
      refine (Yields.accept _).bind fun _ _ => .ite (fun _ => ?_) fun _ => ?_
      · refine Yields.before.bind fun keyword _ => (Spelled.expect _ _).bind fun _ _ => ?_
        refine (expression_yields n).bind fun e he => (Spelled.expect _ _).bind fun _ _ => ?_
        refine (statement_yields n).bind fun body hbody => Yields.previousEnd.bind fun _ _ => ?_
        exact .pure ⟨by simpa [Stmt.WellFormed] using ⟨he, hbody⟩, rfl⟩
      refine (Yields.accept _).bind fun _ _ => .ite (fun _ => ?_) fun _ => ?_
      · refine Yields.before.bind fun brace _ => (block_yields n).bind fun body hbody => ?_
        exact Yields.previousEnd.bind fun _ _ =>
          .pure ⟨by simpa [Stmt.WellFormed] using hbody, rfl⟩
      · exact expressionStatement_yields n

theorem forStatement_yields (n : Nat) : Yields Proper (forStatement n) Plain := by
  match n with
  | 0 => exact .outOfFuel
  | n + 1 =>
      unfold forStatement
      refine Yields.before.bind fun keyword _ => (Spelled.expect _ _).bind fun _ _ => ?_
      refine (forInitial_yields n).bind fun initial hinitial => (Yields.at? _).bind fun _ _ => ?_
      refine .iteBind (fun _ => absentExpression_yields) (fun _ => optionalExpression_yields n)
        fun condition hcondition => ?_
      refine (Spelled.expect _ _).bind fun _ _ => (Yields.at? _).bind fun _ _ => ?_
      refine .iteBind (fun _ => absentExpression_yields) (fun _ => optionalExpression_yields n)
        fun increment hincrement => ?_
      refine (Spelled.expect _ _).bind fun _ _ => (statement_yields n).bind fun body hbody => ?_
      exact Yields.previousEnd.bind fun _ _ =>
        .pure (forLoop_plain hinitial hcondition hincrement hbody)

theorem ifStatement_yields (n : Nat) : Yields Proper (ifStatement n) Plain := by
  match n with
  | 0 => exact .outOfFuel
  | n + 1 =>
      unfold ifStatement
      refine Yields.before.bind fun keyword _ => (Spelled.expect _ _).bind fun _ _ => ?_
      refine (expression_yields n).bind fun e he => (Spelled.expect _ _).bind fun _ _ => ?_
      refine (statement_yields n).bind fun onTrue hTrue => (Yields.accept _).bind fun _ _ => ?_
      refine .iteBind (Q := fun s : Option Stmt => ∀ x ∈ s, Plain x)
        (fun _ => (statement_yields n).map fun s hs => by simpa using hs)
        (fun _ => .pure (by simp)) fun onFalse hFalse => ?_
      refine Yields.previousEnd.bind fun _ _ => .pure ⟨?_, rfl⟩
      cases onFalse with
      | none => simpa [Stmt.WellFormed] using ⟨he, hTrue⟩
      | some s => simpa [Stmt.WellFormed] using ⟨he, hTrue.1, hTrue.2, hFalse s rfl⟩

end

end

/-! ## Whole inputs -/

theorem Cursor.proper_start {tokens : List Token} (h : ∀ t ∈ tokens, t.Spelled) :
    (Cursor.start tokens).Proper where
  rest := h
  last := by
    unfold Cursor.start
    cases hlast : tokens.getLast? with
    | none => exact fun hkind => absurd hkind (by simp; decide)
    | some t => exact h t (List.mem_of_getLast? hlast)
  reported := by simp [Cursor.start]

theorem program_wellFormed {tokens : List Token} (h : ∀ t ∈ tokens, t.Spelled) :
    Stmt.WellFormedList (program tokens).1 := by
  have hvalue := (declarations_yields (fuelFor tokens) false _ (Cursor.proper_start h)).2
  unfold program
  rcases hrun : declarations (fuelFor tokens) false (.start tokens) with ⟨reply, c⟩
  rw [hrun] at hvalue
  cases reply with
  | ok body => exact hvalue body rfl
  | failed | outOfFuel => simp [Stmt.WellFormedList]

theorem program_reported {tokens : List Token} (h : ∀ t ∈ tokens, t.Spelled) :
    ∀ d ∈ (program tokens).2, d.severity = .error := by
  have hkept := (declarations_yields (fuelFor tokens) false _ (Cursor.proper_start h)).1.reported
  unfold program
  split <;> simp_all

theorem soleExpression_wellFormed {tokens : List Token} (h : ∀ t ∈ tokens, t.Spelled) :
    ∀ e ∈ (soleExpression tokens).1, e.WellFormed := by
  have hvalue := (expression_yields (fuelFor tokens) _ (Cursor.proper_start h)).2
  unfold soleExpression
  split
  · rename_i e c hrun
    rw [hrun] at hvalue
    rintro _ ⟨⟩
    exact hvalue e rfl
  · simp

theorem soleExpression_reported {tokens : List Token} (h : ∀ t ∈ tokens, t.Spelled) :
    ∀ d ∈ (soleExpression tokens).2, d.severity = .error := by
  have hkept := (expression_yields (fuelFor tokens) _ (Cursor.proper_start h)).1.reported
  unfold soleExpression
  split <;> simp_all

end Lox.Parser

namespace Lox

theorem scan_reported (source : Bytes) : ∀ d ∈ (scan source).2, d.severity = .error := by
  intro d hd
  obtain ⟨s, -, hs⟩ := List.mem_filterMap.mp hd
  unfold Scan.Segment.diagnostic? at hs
  split at hs
  · cases hs
    rfl
  · cases hs

/-- A parsed program is well formed, also where other declarations were dropped. -/
theorem parse_wellFormed (source : Bytes) : Stmt.WellFormedList (parse source).1 :=
  Parser.program_wellFormed fun _ => spelled_of_mem_scan

theorem parseExpression_wellFormed (source : Bytes) :
    ∀ e ∈ (parseExpression source).1, e.WellFormed :=
  Parser.soleExpression_wellFormed fun _ => spelled_of_mem_scan

theorem Diagnostic.hasErrors_eq_false_iff {ds : List Diagnostic}
    (h : ∀ d ∈ ds, d.severity = .error) : hasErrors ds = false ↔ ds = [] := by
  cases ds with
  | nil => simp [hasErrors]
  | cons d rest => simp [hasErrors, h d List.mem_cons_self]

theorem parse_reported (source : Bytes) :
    ∀ d ∈ (parse source).2.diagnostics, d.severity = .error := by
  intro d hd
  rcases List.mem_append.mp hd with hd | hd
  · exact scan_reported source d hd
  · exact Parser.program_reported (fun _ => spelled_of_mem_scan) d hd

/-- Nothing is reported without rejecting the source. -/
theorem parse_failed_eq_false_iff (source : Bytes) :
    (parse source).2.failed = false ↔ (parse source).2.diagnostics = [] := by
  rw [← Diagnostic.hasErrors_eq_false_iff (parse_reported source)]
  simp [Report.failed, Report.rejected, parse]

theorem parseExpression_failed_eq_false_iff (source : Bytes) :
    (parseExpression source).2.failed = false ↔ (parseExpression source).2.diagnostics = [] := by
  have h : ∀ d ∈ (parseExpression source).2.diagnostics, d.severity = .error := by
    intro d hd
    rcases List.mem_append.mp hd with hd | hd
    · exact scan_reported source d hd
    · exact Parser.soleExpression_reported (fun _ => spelled_of_mem_scan) d hd
  rw [← Diagnostic.hasErrors_eq_false_iff h]
  simp [Report.failed, Report.rejected, parseExpression]

end Lox
