import Lox.Proofs.Check
import Lox.Proofs.Grammar.Completeness

/-!
The first statement of a program, read as an expression.

Where a program begins with an expression statement, its text reads as that expression, for
what comes after an expression is ignored; where it begins otherwise, its text is no
expression.  Outside all scopes the resolver leaves an expression as it was read.
-/

namespace Lox

def Stmt.opening? : List Stmt → Option Expr
  | .expression _ e :: _ => some e
  | _ => none

theorem Stmt.opening?_eq_some_iff {program : List Stmt} {e : Expr} :
    opening? program = some e ↔ ∃ span rest, program = .expression span e :: rest := by
  constructor
  · intro h
    unfold opening? at h
    split at h
    · cases h
      exact ⟨_, _, rfl⟩
    · cases h
  · rintro ⟨span, rest, rfl⟩
    rfl

namespace Parser

open Grammar

theorem expression_of_no_start {c : Cursor} (h : startsExpression c.kind = false) (n : Nat) :
    expression (n + 3) c = (.failed, c.report .expectExpression c.peek) := by
  have hoperand : operand (n + 1) c = (.failed, c.report .expectExpression c.peek) := by
    have hpeek : peek c = (.ok c.peek, c) := rfl
    rw [operand, bind_of_ok hpeek]
    change startsExpression c.peek.kind = false at h
    cases hc : c.peek.kind <;> rw [hc] at h <;> first | rfl | cases h
  have hoperation : operation (n + 2) 0 c = (.failed, c.report .expectExpression c.peek) := by
    change Parse.bind (operand (n + 1)) _ c = _
    simp [Parse.bind, hoperand]
  change Parse.bind (operation (n + 2) 0) _ c = _
  simp [Parse.bind, hoperation]

theorem soleExpression_of_no_start {tokens : List Token}
    (h : startsExpression (Cursor.start tokens).kind = false) :
    (soleExpression tokens).2 ≠ [] := by
  obtain ⟨n, hn⟩ : ∃ n, fuelFor tokens = n + 3 := ⟨fuelFor tokens - 3, by unfold fuelFor; omega⟩
  simp [soleExpression, hn, expression_of_no_start h n, Cursor.report]

theorem begins_of_opening?_eq_none {xs : List Token} {s : Stmt} (h : Declaration xs s)
    (hs : Stmt.opening? [s] = none) : Begins (fun k => !startsExpression k) xs := by
  cases h with
  | statement hstatement =>
      cases hstatement with
      | effect heffect =>
          cases heffect
          cases hs
      | print hkind | ret hkind | block hkind | loop hkind | forLoop hkind | branch hkind
      | branchElse hkind => exact .cons (by rw [hkind]; rfl)
  | var hvariable =>
      cases hvariable with
      | plain hkeyword | initialized hkeyword => exact .cons (by rw [hkeyword]; rfl)
  | function hkeyword | classDecl hkeyword => exact .cons (by rw [hkeyword]; rfl)

theorem exists_phrase_of_expression {xs : List Token} {span : Span} {e : Expr}
    (h : Declaration xs (.expression span e)) :
    ∃ ys semicolon, xs = ys ++ [semicolon] ∧ Phrase .assignment ys e ∧
      semicolon.kind = .semicolon := by
  generalize hs : Stmt.expression span e = s at h
  cases h with
  | statement hstatement =>
      cases hstatement with
      | effect heffect =>
          cases heffect with
          | mk hphrase hsemicolon =>
              cases hs
              exact ⟨_, _, rfl, hphrase, hsemicolon⟩
      | @forLoop _ _ _ _ _ _ _ _ initial => cases initial <;> cases hs
      | _ => cases hs
  | var hvariable => cases hvariable <;> cases hs
  | function | classDecl => cases hs

theorem soleExpression_of_phrase {xs rest : List Token} {semicolon : Token} {e : Expr}
    (h : Phrase .assignment xs e) (hxs : ∀ t ∈ xs, t.kind ≠ .eof)
    (hsemicolon : semicolon.kind = .semicolon) (heof : ∃ t ∈ rest, t.kind = .eof) :
    soleExpression (xs ++ semicolon :: rest) = (some e, []) := by
  let c : Cursor := .start (xs ++ semicolon :: rest)
  let c' : Cursor := { c with previous := xs.getLast?, rest := semicolon :: rest }
  have htook : Took c xs c' := ⟨rfl, by simp [c, c', Cursor.start], rfl, rfl, hxs⟩
  have hcloses : Closes c'.kind := by
    change Closes semicolon.kind
    rw [hsemicolon]
    decide
  have hclosed : ∃ t ∈ xs ++ semicolon :: rest, t.kind = .eof := by
    obtain ⟨t, ht, hkind⟩ := heof
    exact ⟨t, by simp [ht], hkind⟩
  have hrun := expression_complete h (fuelFor (xs ++ semicolon :: rest)) htook hcloses
    (expression_enough (.inr hclosed))
  unfold soleExpression
  rw [hrun]
  rfl

/-- A program without problems reads as the expression it begins with, or not at all. -/
theorem soleExpression_of_clean {xs : List Token} {e : Token} (he : e.kind = .eof)
    (hxs : ∀ t ∈ xs, t.kind ≠ .eof) (hclean : (program (xs ++ [e])).2 = []) :
    match Stmt.opening? (program (xs ++ [e])).1 with
    | some first => soleExpression (xs ++ [e]) = (some first, [])
    | none => (soleExpression (xs ++ [e])).2 ≠ [] := by
  obtain ⟨body, hprogram⟩ : ∃ body, program (xs ++ [e]) = (body, []) :=
    ⟨_, Prod.ext rfl hclean⟩
  have hbody := (program_eq_iff he hxs).mp hprogram
  rw [hprogram]
  clear hprogram hclean
  cases hbody with
  | nil =>
      apply soleExpression_of_no_start
      simp [Cursor.start, Cursor.kind, Cursor.peek, he, startsExpression]
  | @cons ys zs s rest hfirst hrest =>
      cases s with
      | expression span first =>
          obtain ⟨ys, semicolon, rfl, hphrase, hsemicolon⟩ := exists_phrase_of_expression hfirst
          have htokens : ys ++ [semicolon] ++ zs ++ [e] = ys ++ semicolon :: (zs ++ [e]) := by simp
          rw [htokens]
          exact soleExpression_of_phrase hphrase (fun t ht => hxs t (by simp [ht])) hsemicolon
            ⟨e, by simp, he⟩
      | _ =>
          obtain ⟨t, ts, rfl, ht⟩ := begins_of_opening?_eq_none hfirst rfl
          apply soleExpression_of_no_start
          simpa [Cursor.start, Cursor.kind, Cursor.peek] using ht

end Parser

theorem parseExpression_of_clean {source : Bytes} (h : (parse source).2.diagnostics = []) :
    match Stmt.opening? (parse source).1 with
    | some first => parseExpression source = (some first, {})
    | none => (parseExpression source).2.diagnostics ≠ [] := by
  obtain ⟨tokens, hscan, hkinds⟩ := scan_tokens source
  have hparts : (scan source).2 = [] ∧ (Parser.program (scan source).1).2 = [] :=
    List.append_eq_nil_iff.mp h
  have hsole := Parser.soleExpression_of_clean (e := Scan.endToken source) rfl hkinds
    (hscan ▸ hparts.2)
  rw [← hscan] at hsole
  change match Stmt.opening? (Parser.program (scan source).1).1 with
    | some first => parseExpression source = (some first, {})
    | none => (parseExpression source).2.diagnostics ≠ []
  cases hopening : Stmt.opening? (Parser.program (scan source).1).1 with
  | some first =>
      simp only [hopening] at hsole
      simp [parseExpression, hsole, hparts.1]
  | none =>
      simp only [hopening] at hsole
      simp [parseExpression, hsole]

/-! ## Expressions outside all scopes -/

namespace Resolution

theorem State.hops?_of_scopes {s : State} (h : s.scopes = []) (name : Bytes) :
    s.hops? name = none := by
  simp [State.hops?, h]

theorem State.resolve_of_scopes {s : State} (h : s.scopes = []) (kind : ReferenceKind)
    (key name : Bytes) {r : Reference} (hr : r.hops = none) :
    (s.resolve kind key name r).1 = r := by
  unfold State.resolve
  rw [hops?_of_scopes h]
  cases r
  cases hr
  rfl

theorem State.use_of_scopes {s : State} (h : s.scopes = []) {r : Reference} (hr : r.hops = none) :
    (s.use r).1 = r := by
  unfold State.use
  exact resolve_of_scopes (by split <;> exact h) _ _ _ hr

theorem State.AtTop.expr {s : State} (h : s.AtTop) (e : Expr) : (expr s e).2.AtTop := by
  have hcore := expr_core s e
  exact ⟨(scopes_of_core hcore).trans h.1, (function_of_core hcore).trans h.2.1,
    (classRole_of_core hcore).trans h.2.2⟩

mutual

theorem expr_of_atTop {s : State} (e : Expr) (h : s.AtTop) (hwf : e.WellFormed) :
    (expr s e).1 = e := by
  cases e with
  | absent | literal => rfl
  | grouping span inner => rw [expr_grouping, expr_of_atTop inner h hwf]
  | unary span operator operand => rw [expr_unary, expr_of_atTop operand h hwf]
  | binary span operator left right =>
      rw [expr_binary, expr_of_atTop left h hwf.1, expr_of_atTop right (h.expr left) hwf.2]
  | logical span operator left right =>
      rw [expr_logical, expr_of_atTop left h hwf.1, expr_of_atTop right (h.expr left) hwf.2]
  | var r => rw [expr_var, State.use_of_scopes h.1 hwf.1]
  | assign target value =>
      rw [expr_assign, expr_of_atTop value h hwf.2.2,
        State.resolve_of_scopes (h.expr value).1 _ _ _ hwf.1]
  | call span callee paren arguments =>
      rw [expr_call, expr_of_atTop callee h hwf.1, exprs_of_atTop arguments (h.expr callee) hwf.2]
  | get span object name => rw [expr_get, expr_of_atTop object h hwf]
  | set span object name value =>
      rw [expr_set, expr_of_atTop value h hwf.2, expr_of_atTop object (h.expr value) hwf.1]
  | thisRef r => rw [expr_thisRef, if_pos h.2.2]
  | superRef r method => rw [expr_superRef, h.2.2]

theorem exprs_of_atTop {s : State} (es : List Expr) (h : s.AtTop) (hwf : Expr.WellFormedList es) :
    (exprs s es).1 = es := by
  cases es with
  | nil => rfl
  | cons e rest =>
      rw [exprs_cons, expr_of_atTop e h hwf.1, exprs_of_atTop rest (h.expr e) hwf.2]

end

theorem opening?_stmts {s : State} (h : s.AtTop) {program : List Stmt}
    (hwf : Stmt.WellFormedList program) :
    Stmt.opening? (stmts s program).1 = Stmt.opening? program := by
  cases program with
  | nil => rfl
  | cons first rest =>
      cases first with
      | expression span e =>
          have he := expr_of_atTop e h hwf.1
          change some (expr s e).1 = some e
          rw [he]
      | branch span condition onTrue onFalse => cases onFalse <;> rfl
      | classDecl span name superclass methods => cases superclass <;> rfl
      | _ => rfl

end Resolution

theorem opening?_check {source : Bytes} (h : (check source).report.diagnostics = []) :
    Stmt.opening? (check source).program = Stmt.opening? (parse source).1 := by
  rw [check_program h]
  exact Resolution.opening?_stmts ⟨rfl, rfl, rfl⟩ (parse_wellFormed source)

end Lox
