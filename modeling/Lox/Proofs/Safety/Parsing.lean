import Lox.Proofs.Parser.Ladder
import Lox.Proofs.Parser.WellFormed
import Lox.Proofs.Safety.Trees

/-!
What is parsed can be run.

All tokens that a tree names come from the source, and each was looked at before it was
taken, so none of them is the end.  An operator that joins two operands was taken because
it binds at all.  This holds of every statement that survives, also where others were
dropped.
-/

namespace Lox.Parser

def Among (tokens : List Token) (t : Token) : Prop := t ∈ tokens ∧ t.kind ≠ .eof

structure Cursor.Within (tokens : List Token) (c : Cursor) : Prop where
  rest : c.rest ⊆ tokens
  last : c.last ∈ tokens

namespace Cursor.Within

variable {tokens : List Token} {c : Cursor}

theorem peek (h : c.Within tokens) : c.peek ∈ tokens := by
  unfold Cursor.peek
  cases hrest : c.rest with
  | nil => exact h.last
  | cons t rest => exact h.rest (by simp [hrest])

theorem among (h : c.Within tokens) {k : Kind} (hkind : c.kind = k) (hk : k ≠ .eof) :
    Among tokens c.peek :=
  ⟨h.peek, by rw [← hkind] at hk; exact hk⟩

theorem advance (h : c.Within tokens) : c.advance.Within tokens := by
  unfold Cursor.advance
  split
  · exact h
  · next t rest hrest =>
      split
      · exact h
      · exact ⟨fun u hu => h.rest (by simp [hrest, hu]), h.last⟩

theorem report (h : c.Within tokens) (p : Problem) (t : Token) : (c.report p t).Within tokens :=
  ⟨h.rest, h.last⟩

theorem synchronize (h : c.Within tokens) : (synchronize c).Within tokens :=
  ⟨fun _ ht => h.advance.rest (skip_subset _ _ ht), h.advance.last⟩

theorem start (hne : tokens ≠ []) : (Cursor.start tokens).Within tokens := by
  refine ⟨fun _ ht => ht, ?_⟩
  unfold Cursor.start
  rw [List.getLast?_eq_some_getLast hne]
  exact List.getLast_mem hne

end Cursor.Within

/-! ## Steps -/

instance {tokens : List Token} : Kept (Cursor.Within tokens) where
  advance h := h.advance
  report p t h := h.report p t
  synchronize h := h.synchronize

namespace Within

variable {tokens : List Token}

theorem peek : Yields (Cursor.Within tokens) Parser.peek fun t => t ∈ tokens :=
  .peek Cursor.Within.peek

theorem expect {k : Kind} (message : String) (hk : k ≠ .eof) :
    Yields (Cursor.Within tokens) (Parser.expect k message) (Among tokens) :=
  .expect message fun h hkind => h.among hkind hk

end Within

/-! ## Expressions -/

theorem joins_of_bindingPower {k : Kind} (h : 0 < bindingPower k) (hparen : k ≠ .leftParen)
    (hdot : k ≠ .dot) (hand : k ≠ .andKw) (hor : k ≠ .orKw) : k.joins = true := by
  cases k <;> simp_all [bindingPower, Kind.joins]

section

variable {tokens : List Token}

mutual

theorem expression_fit (n : Nat) : Yields (Cursor.Within tokens) (expression n)
    fun e => ∀ k, e.Fit (Among tokens) k := by
  match n with
  | 0 => exact .outOfFuel
  | n + 1 =>
      unfold expression
      apply (operation_fit n 0).bind
      intro left hleft
      apply (Yields.accept _).bind
      intro found _
      apply Yields.ite
      · intro _
        apply Yields.before.bind
        intro equals _
        apply (expression_fit n).bind
        intro value hvalue
        cases left with
        | var r =>
            apply Yields.pure
            intro k
            simpa [Expr.Fit, Reference.Fit] using ⟨(hleft 0).1, hvalue k⟩
        | get span object name =>
            apply Yields.pure
            intro k
            have hget := hleft k
            simp only [Expr.Fit] at hget
            simpa [Expr.Fit] using ⟨hget.1, hget.2, hvalue k⟩
        | _ =>
            apply (Yields.report _ _).bind
            intro _ _
            exact .pure hleft
      · intro _
        exact .pure hleft

theorem operation_fit (n power : Nat) : Yields (Cursor.Within tokens) (operation n power)
    fun e => ∀ k, e.Fit (Among tokens) k := by
  match n with
  | 0 => exact .outOfFuel
  | n + 1 =>
      unfold operation
      apply (operand_fit n).bind
      intro left hleft
      exact operations_fit n power left hleft

theorem operations_fit (n power : Nat) (left : Expr)
    (hleft : ∀ k, left.Fit (Among tokens) k) :
    Yields (Cursor.Within tokens) (operations n power left)
      fun e => ∀ k, e.Fit (Among tokens) k := by
  match n with
  | 0 => exact .outOfFuel
  | n + 1 =>
      intro c hc
      by_cases hpower : power < bindingPower c.kind
      · -- the operator is read at the very cursor that was looked at
        rw [operations_of_lt hpower]
        obtain ⟨hkept, hvalue⟩ := operator_fit n left hleft c hc (by omega)
        exact bind_yields hkept hvalue fun left' hleft' => operations_fit n power left' hleft'
      · rw [operations_of_le (by omega)]
        exact Yields.pure hleft c hc

theorem operand_fit (n : Nat) : Yields (Cursor.Within tokens) (operand n)
    fun e => ∀ k, e.Fit (Among tokens) k := by
  match n with
  | 0 => exact .outOfFuel
  | n + 1 =>
      unfold operand
      apply Within.peek.bind
      intro t ht
      split
      iterate 5
        next =>
          apply Yields.next.bind
          intro _ _
          exact .pure fun k => by simp [Expr.Fit]
      · next hkind =>
          apply Yields.next.bind
          intro _ _
          exact .pure fun k => by simpa [Expr.Fit, Reference.Fit, Among, hkind] using ht
      · next hkind =>
          apply Yields.next.bind
          intro _ _
          apply (Within.expect _ (by decide)).bind
          intro _ _
          apply (Within.expect _ (by decide)).bind
          intro method hmethod
          apply Yields.pure
          intro k
          have hname : Among tokens t := ⟨ht, by simp [hkind]⟩
          simpa [Expr.Fit, Reference.Fit] using ⟨hname, hmethod⟩
      · next hkind =>
          apply Yields.next.bind
          intro _ _
          exact .pure fun k => by simpa [Expr.Fit, Reference.Fit, Among, hkind] using ht
      · apply Yields.next.bind
        intro _ _
        apply (expression_fit n).bind
        intro inner hinner
        apply (Within.expect _ (by decide)).bind
        intro _ _
        exact .pure fun k => by simpa [Expr.Fit] using hinner k
      iterate 2
        next hkind =>
          apply Yields.next.bind
          intro _ _
          apply (operation_fit n unaryPower).bind
          intro operand hoperand
          apply Yields.pure
          intro k
          have hname : Among tokens t := ⟨ht, by simp [hkind]⟩
          simpa [Expr.Fit, Kind.signs, hkind] using ⟨hname, hoperand k⟩
      · exact Yields.fail _ _

theorem operator_fit (n : Nat) (left : Expr) (hleft : ∀ k, left.Fit (Among tokens) k)
    (c : Cursor) (hc : c.Within tokens) (hpos : 0 < bindingPower c.kind) :
    (operator n left c).2.Within tokens ∧
      ∀ e, (operator n left c).1 = .ok e → ∀ k, e.Fit (Among tokens) k := by
  match n with
  | 0 => exact Yields.outOfFuel c hc
  | n + 1 =>
      unfold operator
      apply bind_yields (p := next) (Q := fun t => t = c.peek) hc.advance
      · rintro t ⟨⟩
        rfl
      rintro t rfl
      have hname : Among tokens c.peek := by
        refine ⟨hc.peek, ?_⟩
        intro hend
        simp [Cursor.kind, hend, bindingPower] at hpos
      split
      · apply (Yields.at? _).bind
        intro _ _
        apply Yields.iteBind (Q := fun es => ∀ k, Expr.FitList (Among tokens) k es)
        · intro _
          exact .pure fun k => by simp [Expr.FitList]
        · intro _
          exact (arguments_fit n 0).imp fun _ h k => .of_forall fun e he => h e he k
        intro arguments harguments
        apply (Within.expect _ (by decide)).bind
        intro paren hparen
        exact .pure fun k => by simpa [Expr.Fit] using ⟨hleft k, hparen, harguments k⟩
      · apply (Within.expect _ (by decide)).bind
        intro name hname
        exact .pure fun k => by simpa [Expr.Fit] using ⟨hleft k, hname⟩
      iterate 2
        next =>
          apply (operation_fit n _).bind
          intro right hright
          exact .pure fun k => by simpa [Expr.Fit] using ⟨hleft k, hright k⟩
      · next hparen hdot hand hor =>
          apply (operation_fit n _).bind
          intro right hright
          have hjoins := joins_of_bindingPower hpos hparen hdot hand hor
          exact .pure fun k => by
            simpa [Expr.Fit] using ⟨hname, hjoins, hleft k, hright k⟩

theorem arguments_fit (n count : Nat) : Yields (Cursor.Within tokens) (arguments n count)
    fun es => ∀ e ∈ es, ∀ k, e.Fit (Among tokens) k := by
  match n with
  | 0 => exact .outOfFuel
  | n + 1 =>
      rw [arguments_succ]
      exact .counted ((expression_fit n).separated (arguments_fit n (count + 1)))

end

/-! ## Statements -/

theorem optional_fit (n : Nat) : Yields (Cursor.Within tokens) (some <$> expression n)
    fun value => ∀ k, ∀ e ∈ value, e.Fit (Among tokens) k :=
  (expression_fit n).map fun e he k => by simpa using he k

theorem missing_fit : Yields (Cursor.Within tokens) (pure none)
    fun value : Option Expr => ∀ k, ∀ e ∈ value, e.Fit (Among tokens) k :=
  .pure (by simp)

theorem parameters_within (n count : Nat) :
    Yields (Cursor.Within tokens) (parameters n count) fun ps => ∀ p ∈ ps, Among tokens p := by
  induction n generalizing count with
  | zero => exact .outOfFuel
  | succ n ih =>
      rw [parameters_succ]
      exact .counted ((Within.expect _ (by decide)).separated (ih (count + 1)))

theorem variableDeclaration_fit (n : Nat) : Yields (Cursor.Within tokens) (variableDeclaration n)
    fun s => ∀ k, s.Fit (Among tokens) k := by
  unfold variableDeclaration
  apply Yields.before.bind
  intro keyword _
  apply (Within.expect _ (by decide)).bind
  intro name _
  apply (Yields.accept _).bind
  intro found _
  apply Yields.iteBind (fun _ => optional_fit n) (fun _ => missing_fit)
  intro initial hinitial
  apply (Within.expect _ (by decide)).bind
  intro _ _
  apply Yields.previousEnd.bind
  intro _ _
  exact .pure fun k => by simpa [Stmt.Fit] using hinitial k

theorem expressionStatement_fit (n : Nat) : Yields (Cursor.Within tokens) (expressionStatement n)
    fun s => ∀ k, s.Fit (Among tokens) k := by
  unfold expressionStatement
  apply (expression_fit n).bind
  intro e he
  apply (Within.expect _ (by decide)).bind
  intro _ _
  apply Yields.previousEnd.bind
  intro _ _
  exact .pure fun k => by simpa [Stmt.Fit] using he k

theorem forInitial_fit (n : Nat) : Yields (Cursor.Within tokens) (forInitial n)
    fun initial => ∀ k, ∀ s ∈ initial, s.Fit (Among tokens) k := by
  unfold forInitial
  apply (Yields.accept _).bind
  intro found _
  apply Yields.ite
  · intro _
    exact .pure (by simp)
  · intro _
    apply (Yields.accept _).bind
    intro found _
    apply Yields.ite
    · intro _
      exact (variableDeclaration_fit n).bind fun s hs => .pure fun k => by simpa using hs k
    · intro _
      exact (expressionStatement_fit n).bind fun s hs => .pure fun k => by simpa using hs k

theorem forLoop_fit {start stop conditionEnd : Position} {initial : Option Stmt}
    {condition increment : Option Expr} {body : Stmt}
    (hinitial : ∀ k, ∀ s ∈ initial, s.Fit (Among tokens) k)
    (hcondition : ∀ k, ∀ e ∈ condition, e.Fit (Among tokens) k)
    (hincrement : ∀ k, ∀ e ∈ increment, e.Fit (Among tokens) k)
    (hbody : ∀ k, body.Fit (Among tokens) k) (k : Nat) :
    (forLoop start stop initial condition conditionEnd increment body).Fit (Among tokens) k := by
  have htest : ∀ k, (condition.getD
      (.literal ⟨conditionEnd, conditionEnd⟩ (.bool true))).Fit (Among tokens) k := by
    intro k
    cases condition with
    | none => simp [Expr.Fit]
    | some e => exact hcondition k e rfl
  unfold forLoop
  cases initial <;> cases increment <;> simp_all [Stmt.Fit, Stmt.FitList]

mutual

theorem declarations_fit (n : Nat) (inBlock : Bool) :
    Yields (Cursor.Within tokens) (declarations n inBlock)
      fun body => ∀ k, Stmt.FitList (Among tokens) k body := by
  match n with
  | 0 => exact .outOfFuel
  | n + 1 =>
      unfold declarations
      apply (Yields.at? _).bind
      intro atEnd _
      apply (Yields.at? _).bind
      intro atBrace _
      apply Yields.ite
      · intro _
        exact .pure fun k => by simp [Stmt.FitList]
      · intro _
        apply (Yields.recovering (declaration_fit n)).bind
        intro first hfirst
        apply (declarations_fit n inBlock).bind
        intro rest hrest
        apply Yields.pure
        intro k
        cases first with
        | none => exact hrest k
        | some s => simpa [Stmt.FitList] using ⟨hfirst s rfl k, hrest k⟩

theorem block_fit (n : Nat) : Yields (Cursor.Within tokens) (block n)
    fun body => ∀ k, Stmt.FitList (Among tokens) k body := by
  match n with
  | 0 => exact .outOfFuel
  | n + 1 =>
      unfold block
      apply (declarations_fit n true).bind
      intro body hbody
      apply (Within.expect _ (by decide)).bind
      intro _ _
      exact .pure hbody

theorem declaration_fit (n : Nat) : Yields (Cursor.Within tokens) (declaration n)
    fun s => ∀ k, s.Fit (Among tokens) k := by
  match n with
  | 0 => exact .outOfFuel
  | n + 1 =>
      unfold declaration
      apply (Yields.accept _).bind
      intro found _
      apply Yields.ite (fun _ => classDeclaration_fit n)
      intro _
      apply (Yields.accept _).bind
      intro found _
      apply Yields.ite
      · intro _
        apply Yields.before.bind
        intro keyword _
        apply (function_fit n _ _).bind
        intro f hf
        exact .pure fun k => by simpa [Stmt.Fit] using hf k
      intro _
      apply (Yields.accept _).bind
      intro found _
      exact .ite (fun _ => variableDeclaration_fit n) fun _ => statement_fit n

theorem classDeclaration_fit (n : Nat) : Yields (Cursor.Within tokens) (classDeclaration n)
    fun s => ∀ k, s.Fit (Among tokens) k := by
  match n with
  | 0 => exact .outOfFuel
  | n + 1 =>
      unfold classDeclaration
      apply Yields.before.bind
      intro keyword _
      apply (Within.expect _ (by decide)).bind
      intro name _
      have hbody (parent : Option Reference)
          (hparent : ∀ k, ∀ r ∈ parent, r.Fit (Among tokens) k) :
          Yields (Cursor.Within tokens) (do
            let _ ← expect .leftBrace "Expect '\x7b' before class body."
            let methods ← methods n
            let _ ← expect .rightBrace "Expect '\x7d' after class body."
            return Stmt.classDecl ⟨keyword.span.start, ← previousEnd⟩ name parent methods)
          fun s : Stmt => ∀ k, s.Fit (Among tokens) k := by
        apply (Within.expect _ (by decide)).bind
        intro _ _
        apply (methods_fit n).bind
        intro methods hmethods
        apply (Within.expect _ (by decide)).bind
        intro _ _
        apply Yields.previousEnd.bind
        intro _ _
        apply Yields.pure
        intro k
        cases parent with
        | none => simpa [Stmt.Fit] using hmethods (k + 1)
        | some r => simpa [Stmt.Fit] using ⟨hparent k r rfl, hmethods (k + 2)⟩
      apply (Yields.accept _).bind
      intro found _
      apply Yields.ite
      · intro _
        apply (Within.expect _ (by decide)).bind
        intro parent hparent
        apply hbody (some { span := parent.span, name := parent })
        simpa [Reference.Fit] using hparent
      · intro _
        exact hbody none (by simp)

theorem methods_fit (n : Nat) : Yields (Cursor.Within tokens) (methods n)
    fun fs => ∀ k, FunctionDecl.FitList (Among tokens) k fs := by
  match n with
  | 0 => exact .outOfFuel
  | n + 1 =>
      unfold methods
      apply (Yields.at? _).bind
      intro atBrace _
      apply (Yields.at? _).bind
      intro atEnd _
      apply Yields.ite
      · intro _
        exact .pure fun k => by simp [FunctionDecl.FitList]
      · intro _
        apply Within.peek.bind
        intro t _
        apply (function_fit n _ _).bind
        intro first hfirst
        apply (methods_fit n).bind
        intro rest hrest
        exact .pure fun k => by simpa [FunctionDecl.FitList] using ⟨hfirst k, hrest k⟩

theorem function_fit (n : Nat) (role : String) (start : Position) :
    Yields (Cursor.Within tokens) (function n role start)
      fun f => ∀ k, f.Fit (Among tokens) k := by
  match n with
  | 0 => exact .outOfFuel
  | n + 1 =>
      unfold function
      apply (Within.expect _ (by decide)).bind
      intro name _
      apply (Within.expect _ (by decide)).bind
      intro _ _
      apply (Yields.at? _).bind
      intro _ _
      apply Yields.iteBind (fun _ => .pure (by simp)) (fun _ => parameters_within n 0)
      intro ps _
      apply (Within.expect _ (by decide)).bind
      intro _ _
      apply (Within.expect _ (by decide)).bind
      intro _ _
      apply (block_fit n).bind
      intro body hbody
      apply Yields.previousEnd.bind
      intro _ _
      exact .pure fun k => by simpa [FunctionDecl.Fit] using hbody (k + 1)

theorem statement_fit (n : Nat) : Yields (Cursor.Within tokens) (statement n)
    fun s => ∀ k, s.Fit (Among tokens) k := by
  match n with
  | 0 => exact .outOfFuel
  | n + 1 =>
      unfold statement
      apply (Yields.accept _).bind
      intro found _
      apply Yields.ite (fun _ => forStatement_fit n)
      intro _
      apply (Yields.accept _).bind
      intro found _
      apply Yields.ite (fun _ => ifStatement_fit n)
      intro _
      apply (Yields.accept _).bind
      intro found _
      apply Yields.ite
      · intro _
        apply Yields.before.bind
        intro keyword _
        apply (expression_fit n).bind
        intro e he
        apply (Within.expect _ (by decide)).bind
        intro _ _
        apply Yields.previousEnd.bind
        intro _ _
        exact .pure fun k => by simpa [Stmt.Fit] using he k
      intro _
      apply (Yields.accept _).bind
      intro found _
      apply Yields.ite
      · intro _
        apply Yields.before.bind
        intro keyword _
        apply (Yields.at? _).bind
        intro _ _
        apply Yields.iteBind (fun _ => missing_fit) (fun _ => optional_fit n)
        intro value hvalue
        apply (Within.expect _ (by decide)).bind
        intro _ _
        apply Yields.previousEnd.bind
        intro _ _
        exact .pure fun k => by simpa [Stmt.Fit] using hvalue k
      intro _
      apply (Yields.accept _).bind
      intro found _
      apply Yields.ite
      · intro _
        apply Yields.before.bind
        intro keyword _
        apply (Within.expect _ (by decide)).bind
        intro _ _
        apply (expression_fit n).bind
        intro condition hcondition
        apply (Within.expect _ (by decide)).bind
        intro _ _
        apply (statement_fit n).bind
        intro body hbody
        apply Yields.previousEnd.bind
        intro _ _
        exact .pure fun k => by simpa [Stmt.Fit] using ⟨hcondition k, hbody k⟩
      intro _
      apply (Yields.accept _).bind
      intro found _
      apply Yields.ite
      · intro _
        apply Yields.before.bind
        intro brace _
        apply (block_fit n).bind
        intro body hbody
        apply Yields.previousEnd.bind
        intro _ _
        exact .pure fun k => by simpa [Stmt.Fit] using hbody (k + 1)
      · intro _
        exact expressionStatement_fit n

theorem forStatement_fit (n : Nat) : Yields (Cursor.Within tokens) (forStatement n)
    fun s => ∀ k, s.Fit (Among tokens) k := by
  match n with
  | 0 => exact .outOfFuel
  | n + 1 =>
      unfold forStatement
      apply Yields.before.bind
      intro keyword _
      apply (Within.expect _ (by decide)).bind
      intro _ _
      apply (forInitial_fit n).bind
      intro initial hinitial
      apply (Yields.at? _).bind
      intro _ _
      apply Yields.iteBind (fun _ => missing_fit) (fun _ => optional_fit n)
      intro condition hcondition
      apply (Within.expect _ (by decide)).bind
      intro _ _
      apply (Yields.at? _).bind
      intro _ _
      apply Yields.iteBind (fun _ => missing_fit) (fun _ => optional_fit n)
      intro increment hincrement
      apply (Within.expect _ (by decide)).bind
      intro _ _
      apply (statement_fit n).bind
      intro body hbody
      apply Yields.previousEnd.bind
      intro _ _
      exact .pure (forLoop_fit hinitial hcondition hincrement hbody)

theorem ifStatement_fit (n : Nat) : Yields (Cursor.Within tokens) (ifStatement n)
    fun s => ∀ k, s.Fit (Among tokens) k := by
  match n with
  | 0 => exact .outOfFuel
  | n + 1 =>
      unfold ifStatement
      apply Yields.before.bind
      intro keyword _
      apply (Within.expect _ (by decide)).bind
      intro _ _
      apply (expression_fit n).bind
      intro condition hcondition
      apply (Within.expect _ (by decide)).bind
      intro _ _
      apply (statement_fit n).bind
      intro onTrue honTrue
      apply (Yields.accept _).bind
      intro found _
      apply Yields.iteBind (Q := fun s : Option Stmt => ∀ k, ∀ x ∈ s, x.Fit (Among tokens) k)
      · intro _
        exact (statement_fit n).map fun s hs k => by simpa using hs k
      · intro _
        exact .pure (by simp)
      intro onFalse honFalse
      apply Yields.previousEnd.bind
      intro _ _
      apply Yields.pure
      intro k
      cases onFalse with
      | none => simpa [Stmt.Fit] using ⟨hcondition k, honTrue k⟩
      | some s => simpa [Stmt.Fit] using ⟨hcondition k, honTrue k, honFalse k s rfl⟩

end

/-! ## Whole inputs -/

theorem program_fit (hne : tokens ≠ []) :
    Stmt.FitList (Among tokens) 0 (program tokens).1 := by
  have hvalue := (declarations_fit (fuelFor tokens) false _ (Cursor.Within.start hne)).2
  unfold program
  rcases hrun : declarations (fuelFor tokens) false (.start tokens) with ⟨reply, c⟩
  rw [hrun] at hvalue
  cases reply with
  | ok body => exact hvalue body rfl 0
  | failed | outOfFuel => simp [Stmt.FitList]

theorem soleExpression_fit (hne : tokens ≠ []) :
    ∀ e ∈ (soleExpression tokens).1, e.Fit (Among tokens) 0 := by
  have hvalue := (expression_fit (fuelFor tokens) _ (Cursor.Within.start hne)).2
  unfold soleExpression
  split
  · next e c hrun =>
      rw [hrun] at hvalue
      rintro _ ⟨⟩
      exact hvalue e rfl 0
  · simp

end

end Lox.Parser
