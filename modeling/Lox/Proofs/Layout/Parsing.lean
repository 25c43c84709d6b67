import Lox.Proofs.Parser.Lists
import Lox.Proofs.Relabelling

/-!
Where tokens stand does not matter to the parser.

Tokens, problems and trees are taken without their places.  A parser that is given
tokens without places answers as it does with them, but for the places: what it takes,
what it reports and whether it gives up is the same.
-/

namespace Lox

def Token.unplace (t : Token) : Token := { t with line := 0, span := {} }

def Diagnostic.unplace (d : Diagnostic) : Diagnostic := { d with line := 0, span := {} }

/-- Forgets the places of nodes and tokens. -/
def Relabelling.unplace : Relabelling where
  span := fun _ => {}
  token := Token.unplace

@[simp] theorem Token.unplace_kind (t : Token) : t.unplace.kind = t.kind := rfl

@[simp] theorem Token.unplace_lexeme (t : Token) : t.unplace.lexeme = t.lexeme := rfl

@[simp] theorem Token.unplace_span (t : Token) : t.unplace.span = {} := rfl

@[simp] theorem Relabelling.unplace_span (s : Span) : Relabelling.unplace.span s = {} := rfl

@[simp] theorem Relabelling.unplace_token (t : Token) :
    Relabelling.unplace.token t = t.unplace := rfl

theorem Diagnostic.unplace_atToken (p : Problem) (t : Token) :
    (Diagnostic.atToken p t).unplace = .atToken p t.unplace := rfl

@[simp] theorem Expr.unplace_span (e : Expr) : (e.relabel .unplace).span = {} := by
  cases e <;> rfl

@[simp] theorem Stmt.unplace_span (s : Stmt) : (s.relabel .unplace).span = {} := by
  cases s with
  | branch span condition onTrue onFalse => cases onFalse <;> rfl
  | function f => cases f; rfl
  | _ => rfl

namespace Parser

namespace Cursor

def unplace (c : Cursor) : Cursor where
  previous := c.previous.map Token.unplace
  rest := c.rest.map Token.unplace
  last := c.last.unplace
  reported := c.reported.map Diagnostic.unplace

@[simp] theorem peek_unplace (c : Cursor) : c.unplace.peek = c.peek.unplace := by
  obtain ⟨previous, rest, last, reported⟩ := c
  cases rest <;> rfl

@[simp] theorem kind_unplace (c : Cursor) : c.unplace.kind = c.kind := by
  simp [kind]

@[simp] theorem before_unplace (c : Cursor) : c.unplace.before = c.before.unplace := by
  obtain ⟨previous, rest, last, reported⟩ := c
  cases previous with
  | none => exact peek_unplace _
  | some t => rfl

@[simp] theorem previousEnd_unplace (c : Cursor) : c.unplace.previousEnd = {} := by
  unfold previousEnd
  rw [peek_unplace]
  cases h : c.unplace.previous with
  | none => rfl
  | some t =>
      obtain ⟨u, -, rfl⟩ := Option.map_eq_some_iff.mp h
      rfl

@[simp] theorem advance_unplace (c : Cursor) : c.unplace.advance = c.advance.unplace := by
  obtain ⟨previous, rest, last, reported⟩ := c
  cases rest with
  | nil => rfl
  | cons t rest =>
      by_cases ht : t.kind = .eof
      · simp [advance, unplace, ht]
      · simp [advance, unplace, ht]

@[simp] theorem report_unplace (c : Cursor) (p : Problem) (t : Token) :
    c.unplace.report p t.unplace = (c.report p t).unplace := by
  simp [report, unplace, Diagnostic.unplace_atToken]

theorem start_unplace {tokens : List Token} (h : tokens ≠ []) :
    start (tokens.map Token.unplace) = (start tokens).unplace := by
  obtain ⟨front, last, rfl⟩ := (List.eq_nil_or_concat tokens).resolve_left h
  simp [start, unplace]

end Cursor

def Reply.map (f : α → β) : Reply α → Reply β
  | .ok v => .ok (f v)
  | .failed => .failed
  | .outOfFuel => .outOfFuel

/-- Without places, the second parser answers as the first does with them. -/
def Unplaced (F : α → β) (p : Parse α) (q : Parse β) : Prop :=
  ∀ c : Cursor, q c.unplace = ((p c).1.map F, (p c).2.unplace)

namespace Unplaced

variable {α β γ δ : Type} {F : α → β} {G : γ → δ} {p : Parse α} {q : Parse β}

theorem bind {f : α → Parse γ} {g : β → Parse δ} (hp : Unplaced F p q)
    (hf : ∀ v, Unplaced G (f v) (g (F v))) : Unplaced G (p >>= f) (q >>= g) := by
  intro c
  change Parse.bind q g c.unplace = ((Parse.bind p f c).1.map G, (Parse.bind p f c).2.unplace)
  have hrun := hp c
  unfold Parse.bind
  rw [hrun]
  rcases p c with ⟨reply, c'⟩
  cases reply with
  | ok v => exact hf v c'
  | failed | outOfFuel => rfl

theorem pure {v : α} {w : β} (h : w = F v) : Unplaced F (Pure.pure v) (Pure.pure w) := by
  subst h
  exact fun c => rfl

theorem some (hp : Unplaced F p q) : Unplaced (Option.map F) (some <$> p) (some <$> q) :=
  hp.bind (f := fun v => Pure.pure (Option.some v)) (g := fun w => Pure.pure (Option.some w))
    fun _ => .pure rfl

theorem ite {b : Prop} [Decidable b] {p' : Parse α} {q' : Parse β} (hp : Unplaced F p q)
    (hq : Unplaced F p' q') : Unplaced F (if b then p else p') (if b then q else q') := by
  split
  · exact hp
  · exact hq

theorem outOfFuel : Unplaced F outOfFuel outOfFuel := fun _ => rfl

theorem peek : Unplaced Token.unplace peek peek := by
  intro c
  simp [Parser.peek, Reply.map]

theorem before : Unplaced Token.unplace before before := by
  intro c
  simp [Parser.before, Reply.map]

theorem previousEnd : Unplaced (fun _ => {}) previousEnd previousEnd := by
  intro c
  simp [Parser.previousEnd, Reply.map]

theorem next : Unplaced Token.unplace next next := by
  intro c
  simp [Parser.next, Reply.map]

theorem at? (kind : Kind) : Unplaced id (at? kind) (at? kind) := by
  intro c
  simp [Parser.at?, Reply.map]

theorem accept (kind : Kind) : Unplaced id (accept kind) (accept kind) := by
  intro c
  by_cases h : c.kind = kind
  · simp [Parser.accept, Reply.map, h]
  · simp [Parser.accept, Reply.map, h]

theorem report (problem : Problem) (t : Token) :
    Unplaced id (report problem t) (report problem t.unplace) := by
  intro c
  simp [Parser.report, Reply.map]

theorem fail (problem : Problem) (t : Token) :
    Unplaced F (fail problem t) (fail problem t.unplace) := by
  intro c
  simp [Parser.fail, Reply.map]

theorem expect (kind : Kind) (message : String) :
    Unplaced Token.unplace (expect kind message) (expect kind message) := by
  intro c
  by_cases h : c.kind = kind
  · simp [Parser.expect, Reply.map, h]
  · simp [Parser.expect, Reply.map, h]

theorem counted {problem : Problem} {count : Nat} {items : Parse (List α)}
    {others : Parse (List β)} {F : List α → List β} (h : Unplaced F items others) :
    Unplaced F (counted problem count items) (counted problem count others) := by
  unfold Parser.counted
  refine .ite ?_ h
  exact Unplaced.peek.bind fun _ => (Unplaced.report _ _).bind fun _ => h

theorem separated {F : α → β} {item : Parse α} {item' : Parse β} {more : Parse (List α)}
    {more' : Parse (List β)} (hitem : Unplaced F item item')
    (hmore : Unplaced (List.map F) more more') :
    Unplaced (List.map F) (separated item more) (separated item' more') := by
  unfold Parser.separated
  refine hitem.bind fun first => (Unplaced.accept _).bind fun _ => ?_
  exact .ite (hmore.bind fun _ => .pure rfl) (.pure rfl)

end Unplaced

/-! ## Expressions -/

mutual

theorem expression_unplaced (n : Nat) :
    Unplaced (Expr.relabel .unplace) (expression n) (expression n) := by
  match n with
  | 0 => exact .outOfFuel
  | n + 1 =>
      unfold expression
      refine (operation_unplaced n 0).bind fun left => ?_
      refine (Unplaced.accept _).bind fun _ => .ite ?_ (.pure rfl)
      refine Unplaced.before.bind fun equals => (expression_unplaced n).bind fun value => ?_
      cases left with
      | var r => exact .pure (by rw [Expr.unplace_span, Expr.unplace_span]; rfl)
      | get span object name => exact .pure (by rw [Expr.unplace_span, Expr.unplace_span]; rfl)
      | _ => exact (Unplaced.report _ _).bind fun _ => .pure rfl

theorem operation_unplaced (n power : Nat) :
    Unplaced (Expr.relabel .unplace) (operation n power) (operation n power) := by
  match n with
  | 0 => exact .outOfFuel
  | n + 1 =>
      unfold operation
      exact (operand_unplaced n).bind fun left => operations_unplaced n power left

theorem operations_unplaced (n power : Nat) (left : Expr) :
    Unplaced (Expr.relabel .unplace) (operations n power left)
      (operations n power (left.relabel .unplace)) := by
  match n with
  | 0 => exact .outOfFuel
  | n + 1 =>
      unfold operations
      refine Unplaced.peek.bind fun t => .ite ?_ (.pure rfl)
      exact (operator_unplaced n left).bind fun left' => operations_unplaced n power left'

theorem operand_unplaced (n : Nat) :
    Unplaced (Expr.relabel .unplace) (operand n) (operand n) := by
  match n with
  | 0 => exact .outOfFuel
  | n + 1 =>
      unfold operand
      refine Unplaced.peek.bind fun t => ?_
      rw [Token.unplace_kind]
      generalize t.kind = kind
      cases kind with
      | falseKw | trueKw | nilKw | number | string | thisKw | identifier =>
          exact Unplaced.next.bind fun _ => .pure rfl
      | superKw =>
          refine Unplaced.next.bind fun _ => (Unplaced.expect _ _).bind fun _ => ?_
          exact (Unplaced.expect _ _).bind fun _ => .pure rfl
      | leftParen =>
          refine Unplaced.next.bind fun _ => (expression_unplaced n).bind fun _ => ?_
          exact (Unplaced.expect _ _).bind fun _ => .pure rfl
      | bang | minus =>
          refine Unplaced.next.bind fun _ => (operation_unplaced n unaryPower).bind fun _ => ?_
          exact .pure (by simp [Expr.relabel])
      | _ => exact .fail _ _

theorem operator_unplaced (n : Nat) (left : Expr) :
    Unplaced (Expr.relabel .unplace) (operator n left)
      (operator n (left.relabel .unplace)) := by
  match n with
  | 0 => exact .outOfFuel
  | n + 1 =>
      unfold operator
      refine Unplaced.next.bind fun t => ?_
      rw [Token.unplace_kind]
      have finish (arguments : List Expr) : Unplaced (Expr.relabel .unplace) (do
          let paren ← expect .rightParen "Expect ')' after arguments."
          return Expr.call ⟨left.span.start, paren.span.stop⟩ left paren arguments)
          (do
            let paren ← expect .rightParen "Expect ')' after arguments."
            return Expr.call ⟨(left.relabel .unplace).span.start, paren.span.stop⟩
              (left.relabel .unplace) paren (arguments.map (Expr.relabel .unplace))) :=
        (Unplaced.expect _ _).bind fun _ =>
          .pure (by simp [Expr.relabel, Expr.relabelList_eq_map])
      generalize t.kind = kind
      cases kind with
      | leftParen =>
          refine (Unplaced.at? _).bind fun _ => .ite ?_ ?_
          · exact (Unplaced.pure (F := List.map (Expr.relabel .unplace)) rfl).bind finish
          · exact (arguments_unplaced n 0).bind finish
      | dot => exact (Unplaced.expect _ _).bind fun _ => .pure (by simp [Expr.relabel])
      | _ => exact (operation_unplaced n _).bind fun _ => .pure (by simp [Expr.relabel])

theorem arguments_unplaced (n count : Nat) :
    Unplaced (List.map (Expr.relabel .unplace)) (arguments n count) (arguments n count) := by
  match n with
  | 0 => exact .outOfFuel
  | n + 1 =>
      rw [arguments_succ]
      exact .counted (.separated (expression_unplaced n) (arguments_unplaced n (count + 1)))

end

/-! ## Statements -/

theorem parameters_unplaced (n count : Nat) :
    Unplaced (List.map Token.unplace) (parameters n count) (parameters n count) := by
  induction n generalizing count with
  | zero => exact .outOfFuel
  | succ n ih =>
      rw [parameters_succ]
      exact .counted (.separated (Unplaced.expect _ _) (ih (count + 1)))

theorem closing_unplaced {α β : Type} {F : α → β} (message : String) {f : Position → α}
    {g : Position → β} (h : ∀ p, g {} = F (f p)) :
    Unplaced F (do
      let _ ← expect .semicolon message
      return f (← previousEnd)) (do
      let _ ← expect .semicolon message
      return g (← previousEnd)) :=
  (Unplaced.expect _ _).bind fun _ => Unplaced.previousEnd.bind fun p => .pure (h p)

theorem optionalExpression_unplaced {α β : Type} {F : α → β} (n : Nat) {b : Prop} [Decidable b]
    {f : Option Expr → Parse α} {g : Option Expr → Parse β}
    (hf : ∀ e, Unplaced F (f e) (g (e.map (Expr.relabel .unplace)))) :
    Unplaced F (if b then pure none >>= f else (some <$> expression n) >>= f)
      (if b then pure none >>= g else (some <$> expression n) >>= g) := by
  apply Unplaced.ite
  · exact (Unplaced.pure (F := Option.map (Expr.relabel .unplace)) rfl).bind hf
  · exact (expression_unplaced n).some.bind hf

theorem variableDeclaration_unplaced (n : Nat) :
    Unplaced (Stmt.relabel .unplace) (variableDeclaration n) (variableDeclaration n) := by
  unfold variableDeclaration
  refine Unplaced.before.bind fun keyword => (Unplaced.expect _ _).bind fun name => ?_
  have finish (initial : Option Expr) : Unplaced (Stmt.relabel .unplace) (do
      let _ ← expect .semicolon "Expect ';' after variable declaration."
      return Stmt.var ⟨keyword.span.start, ← previousEnd⟩ name initial) (do
      let _ ← expect .semicolon "Expect ';' after variable declaration."
      return Stmt.var ⟨keyword.unplace.span.start, ← previousEnd⟩ name.unplace
        (initial.map (Expr.relabel .unplace))) :=
    closing_unplaced _ fun _ => rfl
  refine (Unplaced.accept _).bind fun _ => .ite ?_ ?_
  · exact (expression_unplaced n).some.bind finish
  · exact (Unplaced.pure rfl).bind finish

theorem expressionStatement_unplaced (n : Nat) :
    Unplaced (Stmt.relabel .unplace) (expressionStatement n) (expressionStatement n) := by
  unfold expressionStatement
  refine (expression_unplaced n).bind fun e => closing_unplaced _ fun _ => ?_
  rw [Expr.unplace_span]
  rfl

theorem forInitial_unplaced (n : Nat) :
    Unplaced (Option.map (Stmt.relabel .unplace)) (forInitial n) (forInitial n) := by
  unfold forInitial
  refine (Unplaced.accept _).bind fun _ => .ite (.pure rfl) ?_
  refine (Unplaced.accept _).bind fun _ => .ite ?_ ?_
  · exact (variableDeclaration_unplaced n).bind fun _ => .pure rfl
  · exact (expressionStatement_unplaced n).bind fun _ => .pure rfl

theorem forLoop_unplaced (start stop conditionEnd : Position) (initial : Option Stmt)
    (condition increment : Option Expr) (body : Stmt) :
    forLoop {} {} (initial.map (Stmt.relabel .unplace)) (condition.map (Expr.relabel .unplace))
        {} (increment.map (Expr.relabel .unplace)) (body.relabel .unplace) =
      (forLoop start stop initial condition conditionEnd increment body).relabel .unplace := by
  cases initial <;> cases condition <;> cases increment <;>
    simp [forLoop, Stmt.relabel, Stmt.relabelList, Expr.relabel]

theorem skip_unplace (previous : Option Token) (tokens : List Token) :
    skip (previous.map Token.unplace) (tokens.map Token.unplace) =
      ((skip previous tokens).1.map Token.unplace,
        (skip previous tokens).2.map Token.unplace) := by
  induction tokens generalizing previous with
  | nil => rfl
  | cons t rest ih =>
      have hprevious : (previous.map Token.unplace).any (fun p => p.kind == .semicolon) =
          previous.any (fun p => p.kind == .semicolon) := by
        cases previous <;> rfl
      rw [List.map_cons, skip, skip, hprevious, Token.unplace_kind]
      split
      · rfl
      · exact ih (some t)

theorem synchronize_unplace (c : Cursor) :
    synchronize c.unplace = (synchronize c).unplace := by
  have hskip := skip_unplace c.advance.previous c.advance.rest
  unfold synchronize
  rw [Cursor.advance_unplace]
  simp [Cursor.unplace, hskip]

theorem Unplaced.recovering {p q : Parse Stmt} (h : Unplaced (Stmt.relabel .unplace) p q) :
    Unplaced (Option.map (Stmt.relabel .unplace)) (recovering p) (recovering q) := by
  intro c
  have hrun := h c
  unfold Parser.recovering
  rw [hrun]
  rcases p c with ⟨reply, c'⟩
  cases reply with
  | ok s => rfl
  | failed => exact congrArg (Prod.mk _) (synchronize_unplace c')
  | outOfFuel => rfl

mutual

theorem declarations_unplaced (n : Nat) (inBlock : Bool) :
    Unplaced (Stmt.relabelList .unplace) (declarations n inBlock) (declarations n inBlock) := by
  match n with
  | 0 => exact .outOfFuel
  | n + 1 =>
      unfold declarations
      refine (Unplaced.at? _).bind fun _ => (Unplaced.at? _).bind fun _ => ?_
      refine .ite (.pure rfl) ?_
      refine (declaration_unplaced n).recovering.bind fun first => ?_
      refine (declarations_unplaced n inBlock).bind fun _ => .pure ?_
      cases first <;> rfl

theorem block_unplaced (n : Nat) :
    Unplaced (Stmt.relabelList .unplace) (block n) (block n) := by
  match n with
  | 0 => exact .outOfFuel
  | n + 1 =>
      unfold block
      refine (declarations_unplaced n true).bind fun body => ?_
      exact (Unplaced.expect _ _).bind fun _ => .pure rfl

theorem declaration_unplaced (n : Nat) :
    Unplaced (Stmt.relabel .unplace) (declaration n) (declaration n) := by
  match n with
  | 0 => exact .outOfFuel
  | n + 1 =>
      unfold declaration
      refine (Unplaced.accept _).bind fun _ => .ite (classDeclaration_unplaced n) ?_
      refine (Unplaced.accept _).bind fun _ => .ite ?_ ?_
      · refine Unplaced.before.bind fun keyword => ?_
        exact (function_unplaced n _ _).bind fun _ => .pure rfl
      · refine (Unplaced.accept _).bind fun _ => ?_
        exact .ite (variableDeclaration_unplaced n) (statement_unplaced n)

theorem classDeclaration_unplaced (n : Nat) :
    Unplaced (Stmt.relabel .unplace) (classDeclaration n) (classDeclaration n) := by
  match n with
  | 0 => exact .outOfFuel
  | n + 1 =>
      unfold classDeclaration
      refine Unplaced.before.bind fun keyword => (Unplaced.expect _ _).bind fun name => ?_
      have rest (parent : Option Reference) : Unplaced (Stmt.relabel .unplace) (do
          let _ ← expect .leftBrace "Expect '\x7b' before class body."
          let methods ← methods n
          let _ ← expect .rightBrace "Expect '\x7d' after class body."
          return Stmt.classDecl ⟨keyword.span.start, ← previousEnd⟩ name parent methods) (do
          let _ ← expect .leftBrace "Expect '\x7b' before class body."
          let methods ← methods n
          let _ ← expect .rightBrace "Expect '\x7d' after class body."
          return Stmt.classDecl ⟨keyword.unplace.span.start, ← previousEnd⟩ name.unplace
            (parent.map (Reference.relabel .unplace)) methods) := by
        refine (Unplaced.expect _ _).bind fun _ => (methods_unplaced n).bind fun methods => ?_
        refine (Unplaced.expect _ _).bind fun _ => ?_
        exact Unplaced.previousEnd.bind fun _ => .pure rfl
      refine (Unplaced.accept _).bind fun _ => .ite ?_ ?_
      · refine (Unplaced.expect _ _).bind fun parent => ?_
        exact (Unplaced.pure (F := Option.map (Reference.relabel .unplace)) rfl).bind rest
      · exact (Unplaced.pure (F := Option.map (Reference.relabel .unplace)) rfl).bind rest

theorem methods_unplaced (n : Nat) :
    Unplaced (FunctionDecl.relabelList .unplace) (methods n) (methods n) := by
  match n with
  | 0 => exact .outOfFuel
  | n + 1 =>
      unfold methods
      refine (Unplaced.at? _).bind fun _ => (Unplaced.at? _).bind fun _ => ?_
      refine .ite (.pure rfl) ?_
      refine Unplaced.peek.bind fun t => (function_unplaced n _ _).bind fun first => ?_
      exact (methods_unplaced n).bind fun _ => .pure rfl

theorem function_unplaced (n : Nat) (role : String) (start : Position) :
    Unplaced (FunctionDecl.relabel .unplace) (function n role start) (function n role {}) := by
  match n with
  | 0 => exact .outOfFuel
  | n + 1 =>
      unfold function
      have rest (name : Token) (ps : List Token) : Unplaced (FunctionDecl.relabel .unplace) (do
          let _ ← expect .rightParen "Expect ')' after parameters."
          let _ ← expect .leftBrace ("Expect '\x7b' before " ++ role ++ " body.")
          let body ← block n
          return .mk ⟨start, ← previousEnd⟩ name ps body) (do
          let _ ← expect .rightParen "Expect ')' after parameters."
          let _ ← expect .leftBrace ("Expect '\x7b' before " ++ role ++ " body.")
          let body ← block n
          return .mk ⟨{}, ← previousEnd⟩ name.unplace (ps.map Token.unplace) body) := by
        refine (Unplaced.expect _ _).bind fun _ => (Unplaced.expect _ _).bind fun _ => ?_
        exact (block_unplaced n).bind fun _ => Unplaced.previousEnd.bind fun _ => .pure rfl
      refine (Unplaced.expect _ _).bind fun name => (Unplaced.expect _ _).bind fun _ => ?_
      refine (Unplaced.at? _).bind fun _ => .ite ?_ ?_
      · exact (Unplaced.pure (F := List.map Token.unplace) rfl).bind (rest name)
      · exact (parameters_unplaced n 0).bind (rest name)

theorem statement_unplaced (n : Nat) :
    Unplaced (Stmt.relabel .unplace) (statement n) (statement n) := by
  match n with
  | 0 => exact .outOfFuel
  | n + 1 =>
      unfold statement
      refine (Unplaced.accept _).bind fun _ => .ite (forStatement_unplaced n) ?_
      refine (Unplaced.accept _).bind fun _ => .ite (ifStatement_unplaced n) ?_
      refine (Unplaced.accept _).bind fun _ => .ite ?_ ?_
      · refine Unplaced.before.bind fun keyword => (expression_unplaced n).bind fun e => ?_
        exact closing_unplaced _ fun _ => rfl
      refine (Unplaced.accept _).bind fun _ => .ite ?_ ?_
      · refine Unplaced.before.bind fun keyword => (Unplaced.at? _).bind fun _ => ?_
        exact optionalExpression_unplaced n fun _ => closing_unplaced _ fun _ => rfl
      refine (Unplaced.accept _).bind fun _ => .ite ?_ ?_
      · refine Unplaced.before.bind fun keyword => (Unplaced.expect _ _).bind fun _ => ?_
        refine (expression_unplaced n).bind fun condition => (Unplaced.expect _ _).bind fun _ => ?_
        refine (statement_unplaced n).bind fun body => ?_
        exact Unplaced.previousEnd.bind fun _ => .pure rfl
      refine (Unplaced.accept _).bind fun _ => .ite ?_ (expressionStatement_unplaced n)
      refine Unplaced.before.bind fun brace => (block_unplaced n).bind fun body => ?_
      exact Unplaced.previousEnd.bind fun _ => .pure rfl

theorem forStatement_unplaced (n : Nat) :
    Unplaced (Stmt.relabel .unplace) (forStatement n) (forStatement n) := by
  match n with
  | 0 => exact .outOfFuel
  | n + 1 =>
      unfold forStatement
      refine Unplaced.before.bind fun keyword => (Unplaced.expect _ _).bind fun _ => ?_
      refine (forInitial_unplaced n).bind fun initial => (Unplaced.at? _).bind fun _ => ?_
      refine optionalExpression_unplaced n fun condition => (Unplaced.expect _ _).bind fun _ => ?_
      refine (Unplaced.at? _).bind fun _ => optionalExpression_unplaced n fun increment => ?_
      refine (Unplaced.expect _ _).bind fun _ => (statement_unplaced n).bind fun body => ?_
      exact Unplaced.previousEnd.bind fun _ => .pure (forLoop_unplaced ..)

theorem ifStatement_unplaced (n : Nat) :
    Unplaced (Stmt.relabel .unplace) (ifStatement n) (ifStatement n) := by
  match n with
  | 0 => exact .outOfFuel
  | n + 1 =>
      unfold ifStatement
      refine Unplaced.before.bind fun keyword => (Unplaced.expect _ _).bind fun _ => ?_
      refine (expression_unplaced n).bind fun condition => (Unplaced.expect _ _).bind fun _ => ?_
      refine (statement_unplaced n).bind fun onTrue => (Unplaced.accept _).bind fun _ => ?_
      have finish (onFalse : Option Stmt) : Unplaced (Stmt.relabel .unplace) (do
          return Stmt.branch ⟨keyword.span.start, ← previousEnd⟩ condition onTrue onFalse)
          (do
            return Stmt.branch ⟨keyword.unplace.span.start, ← previousEnd⟩
              (condition.relabel .unplace) (onTrue.relabel .unplace)
              (onFalse.map (Stmt.relabel .unplace))) := by
        refine Unplaced.previousEnd.bind fun _ => .pure ?_
        cases onFalse <;> rfl
      apply Unplaced.ite
      · exact (statement_unplaced n).some.bind finish
      · exact (Unplaced.pure rfl).bind finish

end

/-! ## Programs -/

theorem program_unplace {tokens : List Token} (h : tokens ≠ []) :
    program (tokens.map Token.unplace) =
      (Stmt.relabelList .unplace (program tokens).1,
        (program tokens).2.map Diagnostic.unplace) := by
  have hrun := declarations_unplaced (fuelFor tokens) false (.start tokens)
  have hfuel : fuelFor (tokens.map Token.unplace) = fuelFor tokens := by simp [fuelFor]
  unfold program
  rw [hfuel, Cursor.start_unplace h, hrun]
  rcases declarations (fuelFor tokens) false (.start tokens) with ⟨reply, c⟩
  cases reply <;> rfl

/-- Tokens that differ in nothing but their places are read as trees that do. -/
theorem program_of_unplace_eq {tokens others : List Token} (h : tokens ≠ [])
    (hsame : tokens.map Token.unplace = others.map Token.unplace) :
    Stmt.relabelList .unplace (program tokens).1 =
        Stmt.relabelList .unplace (program others).1 ∧
      (program tokens).2.map Diagnostic.unplace =
        (program others).2.map Diagnostic.unplace := by
  have hothers : others ≠ [] := by
    rintro rfl
    exact h (List.map_eq_nil_iff.mp hsame)
  have heq := (program_unplace h).symm.trans ((congrArg program hsame).trans
    (program_unplace hothers))
  exact Prod.ext_iff.mp heq

end Parser

end Lox
