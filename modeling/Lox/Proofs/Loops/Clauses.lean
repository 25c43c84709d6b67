import Lox.Proofs.Parser.Triple
import Lox.Proofs.Resolution.Scoped

/-!
The parts of a `for` statement.

A `for` statement is read part by part and then put together as a `while` loop: the
increment comes after the body in a block, and the initial statement comes before the loop
in another one.  So the increment stands one scope deeper than the condition does, and in
a resolved tree its distances count that scope.
-/

namespace Lox

open Resolution (Context Site)

/-- Parts that were left out are `none`. -/
structure ForClauses where
  start : Position
  stop : Position
  initial : Option Stmt
  condition : Option Expr
  conditionEnd : Position
  increment : Option Expr
  body : Stmt

namespace ForClauses

def tree (p : ForClauses) : Stmt :=
  Parser.forLoop p.start p.stop p.initial p.condition p.conditionEnd p.increment p.body

def test (p : ForClauses) : Expr :=
  p.condition.getD (.literal ⟨p.conditionEnd, p.conditionEnd⟩ (.bool true))

def round (p : ForClauses) : Stmt :=
  match p.increment with
  | some e => .block ⟨p.body.span.start, p.stop⟩ [p.body, .expression e.span e]
  | none => p.body

theorem tree_eq (p : ForClauses) :
    p.tree =
      match p.initial with
      | some s => .block ⟨p.start, p.stop⟩ [s, .loop ⟨p.start, p.stop⟩ p.test p.round]
      | none => .loop ⟨p.start, p.stop⟩ p.test p.round := rfl

end ForClauses

namespace Parser

/-! ## Reading -/

def forClauses (n : Nat) : Parse ForClauses := do
  let keyword ← before
  let _ ← expect .leftParen "Expect '(' after 'for'."
  let initial ← forInitial n
  let condition ← if ← at? .semicolon then pure none else some <$> expression n
  let conditionEnd ← expect .semicolon "Expect ';' after loop condition."
  let increment ← if ← at? .rightParen then pure none else some <$> expression n
  let _ ← expect .rightParen "Expect ')' after for clauses."
  let body ← statement n
  return { start := keyword.span.start, stop := ← previousEnd, initial, condition,
           conditionEnd := conditionEnd.span.start, increment, body }

theorem map_bind {α β γ : Type} (g : β → γ) (p : Parse α) (f : α → Parse β) :
    g <$> (p >>= f) = p >>= fun v => g <$> f v := by
  funext c
  change Parse.bind (Parse.bind p f) _ c = Parse.bind p (fun v => Parse.bind (f v) _) c
  unfold Parse.bind
  rcases p c with ⟨reply, c'⟩
  cases reply <;> rfl

theorem forStatement_eq (n : Nat) :
    forStatement (n + 1) = ForClauses.tree <$> forClauses n := by
  unfold forStatement forClauses
  simp only [map_bind, apply_ite]
  rfl

theorem exists_forClauses {n : Nat} {c c' : Cursor} {s : Stmt}
    (h : forStatement (n + 1) c = (.ok s, c')) :
    ∃ p, forClauses n c = (.ok p, c') ∧ p.tree = s := by
  rw [forStatement_eq] at h
  change Parse.bind (forClauses n) (fun p => Parse.pure p.tree) c = _ at h
  unfold Parse.bind at h
  rcases hrun : forClauses n c with ⟨reply, c₁⟩
  rw [hrun] at h
  cases reply with
  | ok p =>
      obtain ⟨hs, rfl⟩ := Prod.mk.inj h
      exact ⟨p, rfl, Reply.ok.inj hs⟩
  | failed | outOfFuel => simp at h

/-! ### Statements declare nothing -/

theorem Yields.any (p : Parse α) : Yields (fun _ => True) p fun _ => True :=
  fun _ _ => ⟨trivial, fun _ _ => trivial⟩

theorem ForClauses.declared?_tree (p : ForClauses) : p.tree.declared? = none := by
  unfold ForClauses.tree forLoop
  cases p.initial <;> rfl

theorem statement_silent (n : Nat) :
    Yields (fun _ => True) (statement n) fun s => s.declared? = none := by
  cases n with
  | zero => exact .outOfFuel
  | succ n =>
      unfold statement
      refine (Yields.any _).bind fun _ _ => .ite (fun _ => ?_) fun _ => ?_
      · cases n with
        | zero => exact .outOfFuel
        | succ n =>
            rw [forStatement_eq]
            exact (Yields.any _).map fun p _ => ForClauses.declared?_tree p
      refine (Yields.any _).bind fun _ _ => .ite (fun _ => ?_) fun _ => ?_
      · cases n with
        | zero => exact .outOfFuel
        | succ n =>
            unfold ifStatement
            refine (Yields.any _).bind fun _ _ => (Yields.any _).bind fun _ _ => ?_
            refine (Yields.any _).bind fun _ _ => (Yields.any _).bind fun _ _ => ?_
            refine (Yields.any _).bind fun _ _ => (Yields.any _).bind fun _ _ => ?_
            refine .iteBind (fun _ => Yields.any _) (fun _ => Yields.any _) fun _ _ => ?_
            exact (Yields.any _).bind fun _ _ => .pure rfl
      refine (Yields.any _).bind fun _ _ => .ite (fun _ => ?_) fun _ => ?_
      · refine (Yields.any _).bind fun _ _ => (Yields.any _).bind fun _ _ => ?_
        exact (Yields.any _).bind fun _ _ => (Yields.any _).bind fun _ _ => .pure rfl
      refine (Yields.any _).bind fun _ _ => .ite (fun _ => ?_) fun _ => ?_
      · refine (Yields.any _).bind fun _ _ => (Yields.any _).bind fun _ _ => ?_
        refine .iteBind (fun _ => Yields.any _) (fun _ => Yields.any _) fun _ _ => ?_
        exact (Yields.any _).bind fun _ _ => (Yields.any _).bind fun _ _ => .pure rfl
      refine (Yields.any _).bind fun _ _ => .ite (fun _ => ?_) fun _ => ?_
      · refine (Yields.any _).bind fun _ _ => (Yields.any _).bind fun _ _ => ?_
        refine (Yields.any _).bind fun _ _ => (Yields.any _).bind fun _ _ => ?_
        exact (Yields.any _).bind fun _ _ => (Yields.any _).bind fun _ _ => .pure rfl
      refine (Yields.any _).bind fun _ _ => .ite (fun _ => ?_) fun _ => ?_
      · refine (Yields.any _).bind fun _ _ => (Yields.any _).bind fun _ _ => ?_
        exact (Yields.any _).bind fun _ _ => .pure rfl
      · unfold expressionStatement
        refine (Yields.any _).bind fun _ _ => (Yields.any _).bind fun _ _ => ?_
        exact (Yields.any _).bind fun _ _ => .pure rfl

theorem forClauses_silent (n : Nat) :
    Yields (fun _ => True) (forClauses n) fun p => p.body.declared? = none := by
  unfold forClauses
  refine (Yields.any _).bind fun _ _ => (Yields.any _).bind fun _ _ => ?_
  refine (Yields.any _).bind fun _ _ => (Yields.any _).bind fun _ _ => ?_
  refine .iteBind (fun _ => Yields.any _) (fun _ => Yields.any _) fun _ _ => ?_
  refine (Yields.any _).bind fun _ _ => (Yields.any _).bind fun _ _ => ?_
  refine .iteBind (fun _ => Yields.any _) (fun _ => Yields.any _) fun _ _ => ?_
  refine (Yields.any _).bind fun _ _ => (statement_silent n).bind fun body hbody => ?_
  exact (Yields.any _).bind fun _ _ => .pure hbody

end Parser

/-! ## Resolved parts -/

/-- One scope more between every use and its binding. -/
def Relabelling.deeper : Relabelling where
  hops := fun hops => hops.map (· + 1)

theorem Reference.exists_lowered {Γ : Context} {x : Bytes} {r : Reference}
    (h : r.hops = Context.hops? ([] :: Γ) x) :
    ∃ r₀ : Reference, r₀.hops = Γ.hops? x ∧ r₀.name = r.name ∧ r₀.relabel .deeper = r := by
  refine ⟨{ r with hops := Γ.hops? x }, rfl, rfl, ?_⟩
  obtain ⟨span, name, hops⟩ := r
  subst h
  simp [Reference.relabel, Relabelling.deeper, Context.hops?_cons]

mutual

/-- What is resolved in a scope without names is resolved around it with shorter distances. -/
theorem Expr.Scoped.exists_lowered {Γ : Context} {site : Site} (e : Expr)
    (h : e.Scoped ([] :: Γ) site) : ∃ e₀ : Expr, e₀.Scoped Γ site ∧ e₀.relabel .deeper = e := by
  cases e with
  | absent => exact ⟨.absent, by simp [Expr.Scoped], rfl⟩
  | literal span value => exact ⟨.literal span value, by simp [Expr.Scoped], rfl⟩
  | grouping span inner =>
      simp only [Expr.Scoped] at h
      obtain ⟨inner₀, hinner, rfl⟩ := Expr.Scoped.exists_lowered inner h
      exact ⟨.grouping span inner₀, by simpa only [Expr.Scoped], rfl⟩
  | unary span operator operand =>
      simp only [Expr.Scoped] at h
      obtain ⟨operand₀, hoperand, rfl⟩ := Expr.Scoped.exists_lowered operand h
      exact ⟨.unary span operator operand₀, by simpa only [Expr.Scoped], rfl⟩
  | binary span operator left right =>
      simp only [Expr.Scoped] at h
      obtain ⟨left₀, hleft, rfl⟩ := Expr.Scoped.exists_lowered left h.1
      obtain ⟨right₀, hright, rfl⟩ := Expr.Scoped.exists_lowered right h.2
      exact ⟨.binary span operator left₀ right₀, by simp only [Expr.Scoped]; exact ⟨hleft, hright⟩,
        rfl⟩
  | logical span operator left right =>
      simp only [Expr.Scoped] at h
      obtain ⟨left₀, hleft, rfl⟩ := Expr.Scoped.exists_lowered left h.1
      obtain ⟨right₀, hright, rfl⟩ := Expr.Scoped.exists_lowered right h.2
      exact ⟨.logical span operator left₀ right₀, by simp only [Expr.Scoped]; exact ⟨hleft, hright⟩,
        rfl⟩
  | var r =>
      simp only [Expr.Scoped] at h
      obtain ⟨r₀, hhops, hname, rfl⟩ := Reference.exists_lowered h.1
      exact ⟨.var r₀, by simp only [Expr.Scoped]; exact ⟨hhops, h.2⟩, rfl⟩
  | assign target value =>
      simp only [Expr.Scoped] at h
      obtain ⟨target₀, hhops, hname, rfl⟩ := Reference.exists_lowered h.1
      obtain ⟨value₀, hvalue, rfl⟩ := Expr.Scoped.exists_lowered value h.2.2
      exact ⟨.assign target₀ value₀, by simp only [Expr.Scoped]; exact ⟨hhops, h.2.1, hvalue⟩, rfl⟩
  | call span callee paren arguments =>
      simp only [Expr.Scoped] at h
      obtain ⟨callee₀, hcallee, rfl⟩ := Expr.Scoped.exists_lowered callee h.1
      obtain ⟨arguments₀, harguments, rfl⟩ := Expr.ScopedList.exists_lowered arguments h.2
      exact ⟨.call span callee₀ paren arguments₀,
        by simp only [Expr.Scoped]; exact ⟨hcallee, harguments⟩, rfl⟩
  | get span object name =>
      simp only [Expr.Scoped] at h
      obtain ⟨object₀, hobject, rfl⟩ := Expr.Scoped.exists_lowered object h
      exact ⟨.get span object₀ name, by simpa only [Expr.Scoped], rfl⟩
  | set span object name value =>
      simp only [Expr.Scoped] at h
      obtain ⟨object₀, hobject, rfl⟩ := Expr.Scoped.exists_lowered object h.1
      obtain ⟨value₀, hvalue, rfl⟩ := Expr.Scoped.exists_lowered value h.2
      exact ⟨.set span object₀ name value₀, by simp only [Expr.Scoped]; exact ⟨hobject, hvalue⟩,
        rfl⟩
  | thisRef r =>
      simp only [Expr.Scoped] at h
      obtain ⟨r₀, hhops, hname, rfl⟩ := Reference.exists_lowered h.2
      exact ⟨.thisRef r₀, by simp only [Expr.Scoped]; exact ⟨h.1, hhops⟩, rfl⟩
  | superRef r method =>
      simp only [Expr.Scoped] at h
      obtain ⟨r₀, hhops, hname, rfl⟩ := Reference.exists_lowered h.1
      refine ⟨.superRef r₀ method, ?_, rfl⟩
      obtain ⟨-, hsome, hthis⟩ := h
      simp only [Expr.Scoped]
      refine ⟨hhops, fun hchecked => ?_, fun d hd => ?_⟩
      · simpa [Reference.relabel, Relabelling.deeper] using hsome hchecked
      obtain ⟨k, hk, hfound⟩ := hthis (d + 1) (by simp_all [Reference.relabel, Relabelling.deeper])
      obtain ⟨j, hj, hjk⟩ : ∃ j, Γ.hops? (utf8 "this") = some j ∧ j + 1 = k := by
        simpa [Context.hops?_cons] using hfound
      exact ⟨j, by omega, hj⟩

theorem Expr.ScopedList.exists_lowered {Γ : Context} {site : Site} (es : List Expr)
    (h : Expr.ScopedList ([] :: Γ) site es) :
    ∃ es₀ : List Expr, Expr.ScopedList Γ site es₀ ∧ Expr.relabelList .deeper es₀ = es := by
  cases es with
  | nil => exact ⟨[], by simp [Expr.ScopedList], rfl⟩
  | cons e rest =>
      simp only [Expr.ScopedList] at h
      obtain ⟨e₀, he, rfl⟩ := Expr.Scoped.exists_lowered e h.1
      obtain ⟨rest₀, hrest, rfl⟩ := Expr.ScopedList.exists_lowered rest h.2
      exact ⟨e₀ :: rest₀, by simp only [Expr.ScopedList]; exact ⟨he, hrest⟩, rfl⟩

end

namespace ForClauses

def unresolve (r : ForClauses) : ForClauses :=
  { r with
    initial := r.initial.map fun s => s.relabel .unresolve
    condition := r.condition.map fun e => e.relabel .unresolve
    increment := r.increment.map fun e => e.relabel .unresolve
    body := r.body.relabel .unresolve }

/-- The scopes around the condition and the increment: an initial statement adds one. -/
def header (Γ : Context) (r : ForClauses) : Context :=
  match r.initial with
  | none => Γ
  | some s => s.contextAfter ([] :: Γ)

/-- The parts of a round are resolved in `Δ`; an increment puts the body into a block. -/
structure RoundScoped (Δ : Context) (r : ForClauses) : Prop where
  condition : ∀ e ∈ r.condition, e.Scoped Δ {}
  increment : ∀ e ∈ r.increment, e.Scoped Δ {}
  body : r.body.Scoped (if r.increment.isSome then [] :: Δ else Δ)
  silent : r.body.declared? = none

structure Scoped (Γ : Context) (r : ForClauses) : Prop where
  initial : ∀ s ∈ r.initial, s.Scoped ([] :: Γ)
  round : r.RoundScoped (r.header Γ)

/-- The parts with the increment as it stands in the block that it shares with the body. -/
def deepen (r : ForClauses) : ForClauses :=
  { r with increment := r.increment.map fun e => e.relabel .deeper }

end ForClauses

/-! ## From a resolved tree to its parts -/

section Shapes

variable {s : Stmt} {span : Span}

theorem Expr.span_unresolve (e : Expr) : (e.relabel .unresolve).span = e.span := by
  cases e <;> rfl

theorem Stmt.span_unresolve (s : Stmt) : (s.relabel .unresolve).span = s.span := by
  cases s with
  | branch span condition onTrue onFalse => cases onFalse <;> rfl
  | function f => cases f; rfl
  | _ => rfl

theorem Stmt.declared?_unresolve (s : Stmt) :
    (s.relabel .unresolve).declared? = s.declared? := by
  cases s with
  | branch span condition onTrue onFalse => cases onFalse <;> rfl
  | function f => cases f; rfl
  | _ => rfl

theorem Stmt.eq_expression_of_unresolve {e : Expr}
    (h : s.relabel .unresolve = .expression span e) :
    ∃ e', s = .expression span e' ∧ e'.relabel .unresolve = e := by
  cases s with
  | branch span condition onTrue onFalse => cases onFalse <;> simp [Stmt.relabel] at h
  | _ => simp_all [Stmt.relabel, Relabelling.unresolve]

theorem Stmt.eq_block_of_unresolve {body : List Stmt}
    (h : s.relabel .unresolve = .block span body) :
    ∃ body', s = .block span body' ∧ Stmt.relabelList .unresolve body' = body := by
  cases s with
  | branch span condition onTrue onFalse => cases onFalse <;> simp [Stmt.relabel] at h
  | _ => simp_all [Stmt.relabel, Relabelling.unresolve]

theorem Stmt.eq_loop_of_unresolve {condition : Expr} {body : Stmt}
    (h : s.relabel .unresolve = .loop span condition body) :
    ∃ condition' body', s = .loop span condition' body' ∧
      condition'.relabel .unresolve = condition ∧ body'.relabel .unresolve = body := by
  cases s with
  | branch span condition onTrue onFalse => cases onFalse <;> simp [Stmt.relabel] at h
  | _ => simp_all [Stmt.relabel, Relabelling.unresolve]

theorem Stmt.eq_pair_of_unresolve {body : List Stmt} {a b : Stmt}
    (h : Stmt.relabelList .unresolve body = [a, b]) :
    ∃ a' b', body = [a', b'] ∧ a'.relabel .unresolve = a ∧ b'.relabel .unresolve = b := by
  match body with
  | [] => simp [Stmt.relabelList] at h
  | [_] => simp [Stmt.relabelList] at h
  | [a', b'] => exact ⟨a', b', rfl, by simpa [Stmt.relabelList] using h⟩
  | _ :: _ :: _ :: _ => simp [Stmt.relabelList] at h

end Shapes

namespace ForClauses

variable {p : ForClauses} {Γ : Context}

theorem exists_test {e : Expr} (h : e.relabel .unresolve = p.test) (he : e.Scoped Γ {}) :
    ∃ condition : Option Expr, (condition.map fun e => e.relabel .unresolve) = p.condition ∧
      (∀ x ∈ condition, x.Scoped Γ {}) ∧ e = test { p with condition } := by
  unfold test at h
  cases hcondition : p.condition with
  | none =>
      rw [hcondition] at h
      refine ⟨none, rfl, by simp, ?_⟩
      cases e <;> simp_all [Expr.relabel, test, Relabelling.unresolve]
  | some x =>
      rw [hcondition] at h
      exact ⟨some e, congrArg some h, by simpa using he, rfl⟩

theorem exists_round {b : Stmt} (h : b.relabel .unresolve = p.round) (hb : b.Scoped Γ)
    (hsilent : p.body.declared? = none) :
    ∃ (body : Stmt) (increment : Option Expr), body.relabel .unresolve = p.body ∧
      (increment.map fun e => e.relabel .unresolve) = p.increment ∧
      (∀ e ∈ increment, e.Scoped Γ {}) ∧
      body.Scoped (if increment.isSome then [] :: Γ else Γ) ∧
      b = round (deepen { p with body, increment }) := by
  unfold round at h
  cases hincrement : p.increment with
  | none =>
      rw [hincrement] at h
      exact ⟨b, none, h, rfl, by simp, by simpa using hb, rfl⟩
  | some e =>
      rw [hincrement] at h
      obtain ⟨stmts, rfl, hstmts⟩ := Stmt.eq_block_of_unresolve h
      obtain ⟨body, last, rfl, hbody, hlast⟩ := Stmt.eq_pair_of_unresolve hstmts
      obtain ⟨e', rfl, he'⟩ := Stmt.eq_expression_of_unresolve hlast
      have hquiet : body.declared? = none := by
        rw [← Stmt.declared?_unresolve, hbody, hsilent]
      simp only [Stmt.Scoped, Stmt.ScopedList,
        Stmt.contextAfter_of_declared?_eq_none hquiet] at hb
      obtain ⟨e₀, he₀, hdeeper⟩ := Expr.Scoped.exists_lowered e' hb.2.1
      refine ⟨body, some e₀, hbody, ?_, by simpa using he₀, by simpa using hb.1, ?_⟩
      · rw [← he', ← hdeeper, Option.map_some, Expr.relabel_relabel]
        rfl
      · have hspan : e'.span = e.span := by rw [← he', Expr.span_unresolve]
        have hspan' : body.span = p.body.span := by rw [← hbody, Stmt.span_unresolve]
        simp [round, deepen, hdeeper, hspan, hspan']

theorem exists_loop {l : Stmt} (initial : Option Stmt)
    (h : l.relabel .unresolve = .loop ⟨p.start, p.stop⟩ p.test p.round) (hl : l.Scoped Γ)
    (hsilent : p.body.declared? = none) :
    ∃ r : ForClauses, r.initial = initial ∧
      r.unresolve = { p with initial := initial.map fun s => s.relabel .unresolve } ∧
      r.RoundScoped Γ ∧ l = .loop ⟨r.start, r.stop⟩ r.deepen.test r.deepen.round := by
  obtain ⟨e, b, rfl, he, hb⟩ := Stmt.eq_loop_of_unresolve h
  simp only [Stmt.Scoped] at hl
  obtain ⟨condition, hcondition, hcscoped, rfl⟩ := exists_test he hl.1
  obtain ⟨body, increment, hbody, hincrement, hiscoped, hbscoped, rfl⟩ :=
    exists_round hb hl.2.1 hsilent
  have hquiet : body.declared? = none := by
    rw [← Stmt.declared?_unresolve, hbody, hsilent]
  refine ⟨{ p with initial, condition, increment, body }, rfl, ?_,
    ⟨hcscoped, hiscoped, hbscoped, hquiet⟩, rfl⟩
  simp [unresolve, hcondition, hincrement, hbody]

/-- A resolved tree that was read as a `for` statement has resolved parts. -/
theorem exists_resolved {s : Stmt} (h : s.relabel .unresolve = p.tree) (hs : s.Scoped Γ)
    (hsilent : p.body.declared? = none) :
    ∃ r : ForClauses, r.unresolve = p ∧ r.Scoped Γ ∧ r.deepen.tree = s := by
  rw [tree_eq] at h
  cases hinitial : p.initial with
  | none =>
      rw [hinitial] at h
      obtain ⟨r, hnone, hr, hround, rfl⟩ := exists_loop none h hs hsilent
      refine ⟨r, ?_, ⟨by simp [hnone], ?_⟩, ?_⟩
      · rw [hr, Option.map_none, ← hinitial]
      · simpa only [header, hnone] using hround
      · simp [tree_eq, deepen, hnone]
  | some i =>
      rw [hinitial] at h
      obtain ⟨stmts, rfl, hstmts⟩ := Stmt.eq_block_of_unresolve h
      obtain ⟨first, l, rfl, hfirst, hl⟩ := Stmt.eq_pair_of_unresolve hstmts
      simp only [Stmt.Scoped, Stmt.ScopedList] at hs
      obtain ⟨r, hsome, hr, hround, rfl⟩ := exists_loop (some first) hl hs.2.1 hsilent
      refine ⟨r, ?_, ⟨by simpa [hsome] using hs.1, ?_⟩, ?_⟩
      · rw [hr, Option.map_some, hfirst, ← hinitial]
      · simpa only [header, hsome] using hround
      · have hstart : r.unresolve.start = p.start := by rw [hr]
        have hstop : r.unresolve.stop = p.stop := by rw [hr]
        simp only [tree_eq, deepen, hsome, ← hstart, ← hstop]
        rfl

end ForClauses

end Lox
