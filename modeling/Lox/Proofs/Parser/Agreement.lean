import Lox.Proofs.Parser.Locality

/-!
Readings that agree.

Two cursors are kept in lockstep when they show the same token, remember the same token
and stay so whatever is done to both.  From cursors in lockstep every parser gives the
same reply and leaves cursors in lockstep, and it makes no difference that the second
run has more fuel.  So an invariant of cursors, a change of fuel and a change of the
tokens that are never seen are instances of one statement.
-/

namespace Lox.Parser

structure Lockstep (R : Cursor → Cursor → Prop) : Prop where
  empty : ∀ {c d}, R c d → (d.rest = [] ↔ c.rest = [])
  peek : ∀ {c d}, R c d → d.peek = c.peek
  previous : ∀ {c d}, R c d → d.previous = c.previous
  advance : ∀ {c d}, R c d → R c.advance d.advance
  report : ∀ {c d} problem t, R c d → R (c.report problem t) (d.report problem t)

/-- Unless the first run lacks fuel, the second replies as the first does. -/
def Agree (R : Cursor → Cursor → Prop) (p q : Parse α) : Prop :=
  ∀ c d, R c d → (p c).1 ≠ .outOfFuel → (q d).1 = (p c).1 ∧ R (p c).2 (q d).2

/-! ## Recovery -/

namespace Cursor

def skipped (c : Cursor) : Cursor :=
  { c with previous := (skip c.previous c.rest).1, rest := (skip c.previous c.rest).2 }

def Stops (c : Cursor) : Prop :=
  c.rest = [] ∨ c.kind = .eof ∨ c.previous.any (fun p => p.kind == .semicolon) = true ∨
    startsStatement c.kind = true

theorem skipped_of_stops {c : Cursor} (h : c.Stops) : c.skipped = c := by
  obtain ⟨previous, rest, last, reported⟩ := c
  cases rest with
  | nil => rfl
  | cons t rest =>
      have hstop : (t.kind = .eof || previous.any (fun p => p.kind == .semicolon)
          || startsStatement t.kind) = true := by
        simpa [Stops, kind, peek, or_assoc] using h
      simp only [skipped, skip, hstop, if_true]

theorem skipped_of_not_stops {c : Cursor} (h : ¬c.Stops) : c.skipped = c.advance.skipped := by
  obtain ⟨previous, rest, last, reported⟩ := c
  cases rest with
  | nil => simp [Stops] at h
  | cons t rest =>
      have hgo : ¬(t.kind = .eof || previous.any (fun p => p.kind == .semicolon)
          || startsStatement t.kind) = true := by
        simpa [Stops, kind, peek, or_assoc] using h
      have ht : t.kind ≠ .eof := by
        intro ht
        simp [ht] at hgo
      have hadvance : (Cursor.mk previous (t :: rest) last reported).advance =
          ⟨some t, rest, last, reported⟩ := by simp [advance, ht]
      rw [hadvance]
      simp only [skipped, skip, if_neg hgo]

theorem rest_advance_lt {c : Cursor} (h : ¬c.Stops) : c.advance.rest.length < c.rest.length := by
  obtain ⟨previous, rest, last, reported⟩ := c
  cases rest with
  | nil => simp [Stops] at h
  | cons t rest =>
      have ht : t.kind ≠ .eof := by
        intro ht
        exact h (.inr (.inl ht))
      simp [advance, ht]

end Cursor

namespace Lockstep

variable {R : Cursor → Cursor → Prop} {c d : Cursor}

theorem kind (hR : Lockstep R) (h : R c d) : d.kind = c.kind := by
  simp only [Cursor.kind, hR.peek h]

theorem before (hR : Lockstep R) (h : R c d) : d.before = c.before := by
  simp only [Cursor.before, hR.peek h, hR.previous h]

theorem previousEnd (hR : Lockstep R) (h : R c d) : d.previousEnd = c.previousEnd := by
  simp only [Cursor.previousEnd, hR.peek h, hR.previous h]

theorem stops_iff (hR : Lockstep R) (h : R c d) : d.Stops ↔ c.Stops := by
  simp only [Cursor.Stops, hR.empty h, hR.kind h, hR.previous h]

theorem skipped (hR : Lockstep R) (h : R c d) : R c.skipped d.skipped := by
  induction hlength : c.rest.length using Nat.strongRecOn generalizing c d with
  | ind length ih =>
      by_cases hstops : c.Stops
      · rw [Cursor.skipped_of_stops hstops, Cursor.skipped_of_stops ((hR.stops_iff h).mpr hstops)]
        exact h
      · have hstops' : ¬d.Stops := fun hd => hstops ((hR.stops_iff h).mp hd)
        rw [Cursor.skipped_of_not_stops hstops, Cursor.skipped_of_not_stops hstops']
        have hlt := Cursor.rest_advance_lt hstops
        exact ih _ (by omega) (hR.advance h) rfl

theorem synchronize (hR : Lockstep R) (h : R c d) : R (synchronize c) (synchronize d) :=
  hR.skipped (hR.advance h)

end Lockstep

/-! ## Rules -/

namespace Agree

variable {R : Cursor → Cursor → Prop} {α β : Type} {p q : Parse α} {f g : α → Parse β}

theorem bind (hp : Agree R p q) (hf : ∀ v, Agree R (f v) (g v)) :
    Agree R (p >>= f) (q >>= g) := by
  intro c d h henough
  have hfirst := hp c d h
  change (Parse.bind p f c).1 ≠ .outOfFuel at henough
  change (Parse.bind q g d).1 = (Parse.bind p f c).1 ∧ R (Parse.bind p f c).2 (Parse.bind q g d).2
  unfold Parse.bind at henough ⊢
  rcases hpc : p c with ⟨reply, c'⟩
  rcases hqd : q d with ⟨reply', d'⟩
  rw [hpc, hqd] at hfirst
  rw [hpc] at henough
  cases reply with
  | ok v =>
      obtain ⟨rfl, hrel⟩ := hfirst nofun
      exact hf v c' d' hrel henough
  | failed =>
      obtain ⟨rfl, hrel⟩ := hfirst nofun
      exact ⟨rfl, hrel⟩
  | outOfFuel => exact absurd rfl henough

theorem pure (v : α) : Agree R (Pure.pure v) (Pure.pure v) :=
  fun _ _ h _ => ⟨rfl, h⟩

theorem map {h : α → β} (hp : Agree R p q) : Agree R (h <$> p) (h <$> q) :=
  hp.bind fun v => pure (h v)

theorem ite {b : Prop} [Decidable b] {p' q' : Parse α} (hp : Agree R p q)
    (hq : Agree R p' q') : Agree R (if b then p else p') (if b then q else q') := by
  split
  · exact hp
  · exact hq

theorem iteBind {b : Prop} [Decidable b] {p' q' : Parse α} (hp : Agree R p q)
    (hq : Agree R p' q') (hf : ∀ v, Agree R (f v) (g v)) :
    Agree R (if b then p >>= f else p' >>= f) (if b then q >>= g else q' >>= g) :=
  ite (hp.bind hf) (hq.bind hf)

theorem outOfFuel : Agree R (Parser.outOfFuel : Parse α) q :=
  fun _ _ _ henough => absurd rfl henough

section Steps

variable (hR : Lockstep R)

include hR

theorem peek : Agree R Parser.peek Parser.peek :=
  fun _ _ h _ => ⟨congrArg Reply.ok (hR.peek h), h⟩

theorem before : Agree R Parser.before Parser.before :=
  fun _ _ h _ => ⟨congrArg Reply.ok (hR.before h), h⟩

theorem previousEnd : Agree R Parser.previousEnd Parser.previousEnd :=
  fun _ _ h _ => ⟨congrArg Reply.ok (hR.previousEnd h), h⟩

theorem next : Agree R Parser.next Parser.next :=
  fun _ _ h _ => ⟨congrArg Reply.ok (hR.peek h), hR.advance h⟩

theorem at? (k : Kind) : Agree R (Parser.at? k) (Parser.at? k) := by
  intro c d h _
  simp only [Parser.at?, hR.kind h]
  exact ⟨trivial, h⟩

theorem accept (k : Kind) : Agree R (Parser.accept k) (Parser.accept k) := by
  intro c d h _
  simp only [Parser.accept, hR.kind h]
  split
  · exact ⟨rfl, hR.advance h⟩
  · exact ⟨rfl, h⟩

theorem report (problem : Problem) (t : Token) :
    Agree R (Parser.report problem t) (Parser.report problem t) :=
  fun _ _ h _ => ⟨rfl, hR.report problem t h⟩

theorem fail (problem : Problem) (t : Token) :
    Agree R (Parser.fail problem t : Parse α) (Parser.fail problem t) :=
  fun _ _ h _ => ⟨rfl, hR.report problem t h⟩

theorem expect (k : Kind) (message : String) :
    Agree R (Parser.expect k message) (Parser.expect k message) := by
  intro c d h _
  simp only [Parser.expect, hR.kind h, hR.peek h]
  split
  · exact ⟨rfl, hR.advance h⟩
  · exact ⟨rfl, hR.report _ _ h⟩

theorem recovering {p q : Parse Stmt} (hp : Agree R p q) :
    Agree R (Parser.recovering p) (Parser.recovering q) := by
  intro c d h henough
  have hrun := hp c d h
  unfold Parser.recovering at henough ⊢
  rcases hpc : p c with ⟨reply, c'⟩
  rcases hqd : q d with ⟨reply', d'⟩
  rw [hpc, hqd] at hrun
  rw [hpc] at henough
  cases reply with
  | ok s =>
      obtain ⟨rfl, hrel⟩ := hrun nofun
      exact ⟨rfl, hrel⟩
  | failed =>
      obtain ⟨rfl, hrel⟩ := hrun nofun
      exact ⟨rfl, hR.synchronize hrel⟩
  | outOfFuel => exact absurd rfl henough

theorem counted {problem : Problem} {count : Nat} {items others : Parse (List α)}
    (h : Agree R items others) :
    Agree R (Parser.counted problem count items) (Parser.counted problem count others) := by
  unfold Parser.counted
  apply Agree.ite _ h
  exact (peek hR).bind fun _ => (report hR _ _).bind fun _ => h

theorem separated {item item' : Parse α} {more more' : Parse (List α)}
    (hitem : Agree R item item') (hmore : Agree R more more') :
    Agree R (Parser.separated item more) (Parser.separated item' more') := by
  unfold Parser.separated
  refine hitem.bind fun first => (accept hR .comma).bind fun _ => ?_
  exact .ite (hmore.bind fun _ => .pure _) (.pure _)

end Steps

end Agree

/-! ## Expressions -/

section Functions

variable {R : Cursor → Cursor → Prop}

mutual

theorem expression_agree (hR : Lockstep R) {n m : Nat} (h : n ≤ m) :
    Agree R (expression n) (expression m) := by
  match n, m, h with
  | 0, _, _ => exact .outOfFuel
  | n + 1, m + 1, h =>
      have h : n ≤ m := by omega
      unfold expression
      apply (operation_agree hR h 0).bind
      intro left
      apply (Agree.accept hR .equal).bind
      intro found
      apply Agree.ite _ (.pure left)
      apply (Agree.before hR).bind
      intro equals
      apply (expression_agree hR h).bind
      intro value
      cases left with
      | var | get => exact .pure _
      | _ => exact (Agree.report hR _ _).bind fun _ => .pure _

theorem operation_agree (hR : Lockstep R) {n m : Nat} (h : n ≤ m) (power : Nat) :
    Agree R (operation n power) (operation m power) := by
  match n, m, h with
  | 0, _, _ => exact .outOfFuel
  | n + 1, m + 1, h =>
      have h : n ≤ m := by omega
      unfold operation
      exact (operand_agree hR h).bind fun left => operations_agree hR h power left

theorem operations_agree (hR : Lockstep R) {n m : Nat} (h : n ≤ m) (power : Nat) (left : Expr) :
    Agree R (operations n power left) (operations m power left) := by
  match n, m, h with
  | 0, _, _ => exact .outOfFuel
  | n + 1, m + 1, h =>
      have h : n ≤ m := by omega
      unfold operations
      apply (Agree.peek hR).bind
      intro t
      apply Agree.ite _ (.pure left)
      exact (operator_agree hR h left).bind fun left' => operations_agree hR h power left'

theorem operand_agree (hR : Lockstep R) {n m : Nat} (h : n ≤ m) :
    Agree R (operand n) (operand m) := by
  match n, m, h with
  | 0, _, _ => exact .outOfFuel
  | n + 1, m + 1, h =>
      have h : n ≤ m := by omega
      unfold operand
      apply (Agree.peek hR).bind
      intro t
      generalize t.kind = kind
      cases kind with
      | falseKw | trueKw | nilKw | number | string | thisKw | identifier =>
          exact (Agree.next hR).bind fun _ => .pure _
      | superKw =>
          apply (Agree.next hR).bind
          intro _
          apply (Agree.expect hR .dot _).bind
          intro _
          exact (Agree.expect hR .identifier _).bind fun _ => .pure _
      | leftParen =>
          apply (Agree.next hR).bind
          intro _
          apply (expression_agree hR h).bind
          intro _
          exact (Agree.expect hR .rightParen _).bind fun _ => .pure _
      | bang | minus =>
          apply (Agree.next hR).bind
          intro _
          exact (operation_agree hR h unaryPower).bind fun _ => .pure _
      | _ => exact .fail hR _ _

theorem operator_agree (hR : Lockstep R) {n m : Nat} (h : n ≤ m) (left : Expr) :
    Agree R (operator n left) (operator m left) := by
  match n, m, h with
  | 0, _, _ => exact .outOfFuel
  | n + 1, m + 1, h =>
      have h : n ≤ m := by omega
      unfold operator
      apply (Agree.next hR).bind
      intro t
      generalize t.kind = kind
      cases kind with
      | leftParen =>
          apply (Agree.at? hR .rightParen).bind
          intro _
          apply Agree.iteBind (.pure _) (arguments_agree hR h 0)
          intro _
          exact (Agree.expect hR .rightParen _).bind fun _ => .pure _
      | dot => exact (Agree.expect hR .identifier _).bind fun _ => .pure _
      | _ => exact (operation_agree hR h _).bind fun _ => .pure _

theorem arguments_agree (hR : Lockstep R) {n m : Nat} (h : n ≤ m) (count : Nat) :
    Agree R (arguments n count) (arguments m count) := by
  match n, m, h with
  | 0, _, _ => exact .outOfFuel
  | n + 1, m + 1, h =>
      have h : n ≤ m := by omega
      rw [arguments_succ, arguments_succ]
      exact .counted hR (.separated hR (expression_agree hR h) (arguments_agree hR h (count + 1)))

end

/-! ## Statements -/

theorem parameters_agree (hR : Lockstep R) {n m : Nat} (h : n ≤ m) (count : Nat) :
    Agree R (parameters n count) (parameters m count) := by
  induction n generalizing m count with
  | zero => exact .outOfFuel
  | succ n ih =>
      obtain ⟨m, rfl⟩ : ∃ k, m = k + 1 := ⟨m - 1, by omega⟩
      have h : n ≤ m := by omega
      rw [parameters_succ, parameters_succ]
      exact .counted hR (.separated hR (Agree.expect hR .identifier _) (ih h (count + 1)))

theorem closing_agree {α : Type} (hR : Lockstep R) (kind : Kind) (message : String)
    (f : Position → α) :
    Agree R (do
      let _ ← expect kind message
      return f (← previousEnd)) (do
      let _ ← expect kind message
      return f (← previousEnd)) :=
  (Agree.expect hR kind message).bind fun _ => (Agree.previousEnd hR).bind fun _ => .pure _

section

variable (hR : Lockstep R) {n m : Nat} (h : n ≤ m)

include hR h

theorem variableDeclaration_agree : Agree R (variableDeclaration n) (variableDeclaration m) := by
  unfold variableDeclaration
  apply (Agree.before hR).bind
  intro keyword
  apply (Agree.expect hR .identifier _).bind
  intro name
  apply (Agree.accept hR .equal).bind
  intro found
  apply Agree.iteBind (expression_agree hR h).map (.pure _)
  intro initial
  exact closing_agree hR _ _ _

theorem expressionStatement_agree : Agree R (expressionStatement n) (expressionStatement m) := by
  unfold expressionStatement
  apply (expression_agree hR h).bind
  intro e
  exact closing_agree hR _ _ _

theorem forInitial_agree : Agree R (forInitial n) (forInitial m) := by
  unfold forInitial
  apply (Agree.accept hR .semicolon).bind
  intro none
  apply Agree.ite (.pure _)
  apply (Agree.accept hR .varKw).bind
  intro declared
  apply Agree.ite
  · exact (variableDeclaration_agree hR h).bind fun _ => .pure _
  · exact (expressionStatement_agree hR h).bind fun _ => .pure _

end

mutual

theorem declarations_agree (hR : Lockstep R) {n m : Nat} (h : n ≤ m) (inBlock : Bool) :
    Agree R (declarations n inBlock) (declarations m inBlock) := by
  match n, m, h with
  | 0, _, _ => exact .outOfFuel
  | n + 1, m + 1, h =>
      have h : n ≤ m := by omega
      unfold declarations
      apply (Agree.at? hR .eof).bind
      intro ended
      apply (Agree.at? hR .rightBrace).bind
      intro closed
      apply Agree.ite (.pure _)
      apply (Agree.recovering hR (declaration_agree hR h)).bind
      intro first
      exact (declarations_agree hR h inBlock).bind fun _ => .pure _

theorem block_agree (hR : Lockstep R) {n m : Nat} (h : n ≤ m) :
    Agree R (block n) (block m) := by
  match n, m, h with
  | 0, _, _ => exact .outOfFuel
  | n + 1, m + 1, h =>
      have h : n ≤ m := by omega
      unfold block
      apply (declarations_agree hR h true).bind
      intro body
      exact (Agree.expect hR .rightBrace _).bind fun _ => .pure _

theorem declaration_agree (hR : Lockstep R) {n m : Nat} (h : n ≤ m) :
    Agree R (declaration n) (declaration m) := by
  match n, m, h with
  | 0, _, _ => exact .outOfFuel
  | n + 1, m + 1, h =>
      have h : n ≤ m := by omega
      unfold declaration
      apply (Agree.accept hR .classKw).bind
      intro isClass
      apply Agree.ite (classDeclaration_agree hR h)
      apply (Agree.accept hR .funKw).bind
      intro isFunction
      apply Agree.ite
      · apply (Agree.before hR).bind
        intro keyword
        exact (function_agree hR h _ _).bind fun _ => .pure _
      apply (Agree.accept hR .varKw).bind
      intro isVariable
      exact .ite (variableDeclaration_agree hR h) (statement_agree hR h)

theorem classDeclaration_agree (hR : Lockstep R) {n m : Nat} (h : n ≤ m) :
    Agree R (classDeclaration n) (classDeclaration m) := by
  match n, m, h with
  | 0, _, _ => exact .outOfFuel
  | n + 1, m + 1, h =>
      have h : n ≤ m := by omega
      unfold classDeclaration
      apply (Agree.before hR).bind
      intro keyword
      apply (Agree.expect hR .identifier _).bind
      intro name
      have body (parent : Option Reference) :=
        (Agree.expect hR .leftBrace "Expect '\x7b' before class body.").bind fun _ =>
          (methods_agree hR h).bind fun methods =>
            closing_agree hR .rightBrace "Expect '\x7d' after class body." fun stop =>
              Stmt.classDecl ⟨keyword.span.start, stop⟩ name parent methods
      apply (Agree.accept hR .less).bind
      intro inherits
      apply Agree.ite
      · apply (Agree.expect hR .identifier _).bind
        intro parent
        exact (Agree.pure _).bind body
      · exact (Agree.pure _).bind body

theorem methods_agree (hR : Lockstep R) {n m : Nat} (h : n ≤ m) :
    Agree R (methods n) (methods m) := by
  match n, m, h with
  | 0, _, _ => exact .outOfFuel
  | n + 1, m + 1, h =>
      have h : n ≤ m := by omega
      unfold methods
      apply (Agree.at? hR .rightBrace).bind
      intro closed
      apply (Agree.at? hR .eof).bind
      intro ended
      apply Agree.ite (.pure _)
      apply (Agree.peek hR).bind
      intro t
      apply (function_agree hR h _ _).bind
      intro first
      exact (methods_agree hR h).bind fun _ => .pure _

theorem function_agree (hR : Lockstep R) {n m : Nat} (h : n ≤ m) (role : String)
    (start : Position) :
    Agree R (function n role start) (function m role start) := by
  match n, m, h with
  | 0, _, _ => exact .outOfFuel
  | n + 1, m + 1, h =>
      have h : n ≤ m := by omega
      unfold function
      apply (Agree.expect hR .identifier _).bind
      intro name
      apply (Agree.expect hR .leftParen _).bind
      intro _
      apply (Agree.at? hR .rightParen).bind
      intro _
      apply Agree.iteBind (.pure _) (parameters_agree hR h 0)
      intro parameters
      apply (Agree.expect hR .rightParen _).bind
      intro _
      apply (Agree.expect hR .leftBrace _).bind
      intro _
      apply (block_agree hR h).bind
      intro body
      exact (Agree.previousEnd hR).bind fun _ => .pure _

theorem statement_agree (hR : Lockstep R) {n m : Nat} (h : n ≤ m) :
    Agree R (statement n) (statement m) := by
  match n, m, h with
  | 0, _, _ => exact .outOfFuel
  | n + 1, m + 1, h =>
      have h : n ≤ m := by omega
      unfold statement
      apply (Agree.accept hR .forKw).bind
      intro isFor
      apply Agree.ite (forStatement_agree hR h)
      apply (Agree.accept hR .ifKw).bind
      intro isIf
      apply Agree.ite (ifStatement_agree hR h)
      apply (Agree.accept hR .printKw).bind
      intro isPrint
      apply Agree.ite
      · apply (Agree.before hR).bind
        intro keyword
        exact (expression_agree hR h).bind fun _ => closing_agree hR _ _ _
      apply (Agree.accept hR .returnKw).bind
      intro isReturn
      apply Agree.ite
      · apply (Agree.before hR).bind
        intro keyword
        apply (Agree.at? hR .semicolon).bind
        intro bare
        apply Agree.iteBind (.pure _) (expression_agree hR h).map
        exact fun _ => closing_agree hR _ _ _
      apply (Agree.accept hR .whileKw).bind
      intro isWhile
      apply Agree.ite
      · apply (Agree.before hR).bind
        intro keyword
        apply (Agree.expect hR .leftParen _).bind
        intro _
        apply (expression_agree hR h).bind
        intro condition
        apply (Agree.expect hR .rightParen _).bind
        intro _
        apply (statement_agree hR h).bind
        intro body
        exact (Agree.previousEnd hR).bind fun _ => .pure _
      apply (Agree.accept hR .leftBrace).bind
      intro isBlock
      apply Agree.ite _ (expressionStatement_agree hR h)
      apply (Agree.before hR).bind
      intro brace
      apply (block_agree hR h).bind
      intro body
      exact (Agree.previousEnd hR).bind fun _ => .pure _

theorem forStatement_agree (hR : Lockstep R) {n m : Nat} (h : n ≤ m) :
    Agree R (forStatement n) (forStatement m) := by
  match n, m, h with
  | 0, _, _ => exact .outOfFuel
  | n + 1, m + 1, h =>
      have h : n ≤ m := by omega
      unfold forStatement
      apply (Agree.before hR).bind
      intro keyword
      apply (Agree.expect hR .leftParen _).bind
      intro _
      apply (forInitial_agree hR h).bind
      intro initial
      apply (Agree.at? hR .semicolon).bind
      intro _
      apply Agree.iteBind (.pure _) (expression_agree hR h).map
      intro condition
      apply (Agree.expect hR .semicolon _).bind
      intro conditionEnd
      apply (Agree.at? hR .rightParen).bind
      intro _
      apply Agree.iteBind (.pure _) (expression_agree hR h).map
      intro increment
      apply (Agree.expect hR .rightParen _).bind
      intro _
      apply (statement_agree hR h).bind
      intro body
      exact (Agree.previousEnd hR).bind fun _ => .pure _

theorem ifStatement_agree (hR : Lockstep R) {n m : Nat} (h : n ≤ m) :
    Agree R (ifStatement n) (ifStatement m) := by
  match n, m, h with
  | 0, _, _ => exact .outOfFuel
  | n + 1, m + 1, h =>
      have h : n ≤ m := by omega
      unfold ifStatement
      apply (Agree.before hR).bind
      intro keyword
      apply (Agree.expect hR .leftParen _).bind
      intro _
      apply (expression_agree hR h).bind
      intro condition
      apply (Agree.expect hR .rightParen _).bind
      intro _
      apply (statement_agree hR h).bind
      intro onTrue
      apply (Agree.accept hR .elseKw).bind
      intro found
      apply Agree.iteBind (statement_agree hR h).map (.pure _)
      intro onFalse
      exact (Agree.previousEnd hR).bind fun _ => .pure _

end

end Functions

end Lox.Parser
