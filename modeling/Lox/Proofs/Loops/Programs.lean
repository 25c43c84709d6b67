import Lox.Proofs.Loops.Locations

/-!
The `for` statements of a program.

Wherever a `for` statement stands in a checked program, in a block, a branch, another loop,
a function or a method, its resolved tree runs as the loop that was written down.
-/

namespace Lox

open Resolution (Context)

/-! ## Statements inside statements -/

def Resolution.Context.methods (Γ : Context) (name : Token) : Option Reference → Context
  | none => [utf8 "this"] :: Γ.declare name.lexeme
  | some _ => [utf8 "this"] :: [utf8 "super"] :: Γ.declare name.lexeme

/-- The statement stands with the scopes `Δ` around it in statements that stand with `Γ`. -/
inductive Stmt.Stands (s : Stmt) (Δ : Context) : Context → List Stmt → Prop where
  | first (rest : List Stmt) : Stands s Δ Δ (s :: rest)
  | later {Γ : Context} (t : Stmt) {rest : List Stmt} (h : Stands s Δ (t.contextAfter Γ) rest) :
      Stands s Δ Γ (t :: rest)
  | block {Γ : Context} (span : Span) {body : List Stmt} (rest : List Stmt)
      (h : Stands s Δ ([] :: Γ) body) : Stands s Δ Γ (.block span body :: rest)
  | onTrue {Γ : Context} (span : Span) (condition : Expr) {onTrue : Stmt} (onFalse : Option Stmt)
      (rest : List Stmt) (h : Stands s Δ Γ [onTrue]) :
      Stands s Δ Γ (.branch span condition onTrue onFalse :: rest)
  | onFalse {Γ : Context} (span : Span) (condition : Expr) (onTrue : Stmt) {onFalse : Stmt}
      (rest : List Stmt) (h : Stands s Δ Γ [onFalse]) :
      Stands s Δ Γ (.branch span condition onTrue (some onFalse) :: rest)
  | loop {Γ : Context} (span : Span) (condition : Expr) {body : Stmt} (rest : List Stmt)
      (h : Stands s Δ Γ [body]) : Stands s Δ Γ (.loop span condition body :: rest)
  | function {Γ : Context} {f : FunctionDecl} (rest : List Stmt)
      (h : Stands s Δ (f.parameters.map Token.lexeme :: Γ.declare f.name.lexeme) f.body) :
      Stands s Δ Γ (.function f :: rest)
  | method {Γ : Context} (span : Span) (name : Token) (parent : Option Reference)
      {methods : List FunctionDecl} {f : FunctionDecl} (rest : List Stmt) (hf : f ∈ methods)
      (h : Stands s Δ (f.parameters.map Token.lexeme :: Γ.methods name parent) f.body) :
      Stands s Δ Γ (.classDecl span name parent methods :: rest)

theorem Stmt.Stands.scoped {s : Stmt} {Γ Δ : Context} {body : List Stmt}
    (h : s.Stands Δ Γ body) (hbody : Stmt.ScopedList Γ body) : s.Scoped Δ := by
  induction h with
  | first rest =>
      simp only [Stmt.ScopedList] at hbody
      exact hbody.1
  | later t h ih =>
      simp only [Stmt.ScopedList] at hbody
      exact ih hbody.2
  | block span rest h ih =>
      simp only [Stmt.ScopedList, Stmt.Scoped] at hbody
      exact ih hbody.1
  | onTrue span condition onFalse rest h ih =>
      cases onFalse with
      | none =>
          simp only [Stmt.ScopedList, Stmt.Scoped] at hbody
          exact ih ⟨hbody.1.2.1, trivial⟩
      | some onFalse =>
          simp only [Stmt.ScopedList, Stmt.Scoped] at hbody
          exact ih ⟨hbody.1.2.1, trivial⟩
  | onFalse span condition onTrue rest h ih =>
      simp only [Stmt.ScopedList, Stmt.Scoped] at hbody
      exact ih ⟨hbody.1.2.2.2.1, trivial⟩
  | loop span condition rest h ih =>
      simp only [Stmt.ScopedList, Stmt.Scoped] at hbody
      exact ih ⟨hbody.1.2.1, trivial⟩
  | function rest h ih =>
      simp only [Stmt.ScopedList, Stmt.Scoped] at hbody
      exact ih ((FunctionDecl.scoped_iff _ _).mp hbody.1.2).2.2
  | method span name parent rest hf h ih =>
      cases parent with
      | none =>
          simp only [Stmt.ScopedList, Stmt.Scoped] at hbody
          have hmethod := FunctionDecl.scoped_of_mem hbody.1.2 _ hf
          exact ih ((FunctionDecl.scoped_iff _ _).mp hmethod).2.2
      | some parent =>
          simp only [Stmt.ScopedList, Stmt.Scoped] at hbody
          have hmethod := FunctionDecl.scoped_of_mem hbody.1.2.2 _ hf
          exact ih ((FunctionDecl.scoped_iff _ _).mp hmethod).2.2

/-! ## Loops of a program -/

/--
A `for` statement of a checked program, put together from the parts `p` that were read.
From every state of the machine its tree ends just as the loop over its parts, each resolved
where it stands in the header, with the same machine afterwards, and does not end if the loop
does not.  And from every state that corresponds to one with locations, that loop does what
the loop with locations does: the condition, the body and the increment of every round start
from the one environment that the initial statement leaves.
-/
theorem for_runs_as_loop (source : Bytes) (hclean : (check source).report.diagnostics = [])
    {n : Nat} {c c' : Parser.Cursor} {read : Stmt}
    (hread : Parser.forStatement (n + 1) c = (.ok read, c')) {Γ : Context} {s : Stmt}
    (hstands : s.Stands Γ [] (check source).program) (hs : s.relabel .unresolve = read) :
    ∃ p r : ForClauses, Parser.forClauses n c = (.ok p, c') ∧ r.unresolve = p ∧ r.Scoped Γ ∧
      (∀ (m : Machine) (out : Outcome Signal), out.fault? ≠ some .outOfFuel →
        ((∃ k, Machine.exec k s m = out) ↔ ∃ k, Machine.forLoop k r m = out)) ∧
      ∀ (k : Nat) (w : Lexical.World) (m : Machine) (state : Lexical.State) (ρ : Lexical.Env),
        Lexical.Related w m state → Lexical.EnvRel w none Γ m.current ρ →
        Lexical.Exact w Γ m.current →
          Lexical.Ends (fun _ => False) m.current w Lexical.SignalRel
            (Machine.forLoop k r m) (Lexical.forLoop k ρ p state) := by
  have htop : Resolution.State.AtTop {} := ⟨rfl, rfl, rfl⟩
  obtain ⟨hprogram, -⟩ := checkFrom_scoped htop hclean
  obtain ⟨p, hp, htree⟩ := Parser.exists_forClauses hread
  have hsilent : p.body.declared? = none :=
    (Parser.forClauses_silent n c trivial).2 p (by rw [hp])
  obtain ⟨r, rfl, hr, rfl⟩ :=
    ForClauses.exists_resolved (hs.trans htree.symm) (hstands.scoped hprogram) hsilent
  refine ⟨r.unresolve, r, hp, rfl, hr, fun m out hout => Machine.exec_iff_forLoop hr m out hout, ?_⟩
  intro k w m state ρ hrelated henv hexact
  exact Lexical.forLoop_sim k henv hexact (fun hfree => hfree) hr m state hrelated rfl
    fun _ hfree => hfree.elim

/-- A loop whose body makes a function that keeps the loop variable. -/
def sharingSource : Bytes :=
  utf8 "for (var i = 0; i < 2; i = i + 1) { fun show() { print i; } show(); }"

def sharingCursor : Parser.Cursor := (Parser.Cursor.start (scan sharingSource).1).advance

def sharingTree : Stmt := (check sharingSource).program.headD (.block {} [])

theorem sharing_program_eq : (check sharingSource).program = [sharingTree] := rfl

theorem forStatement_sharing : Parser.forStatement 40 sharingCursor =
    (.ok (sharingTree.relabel .unresolve), (Parser.forStatement 40 sharingCursor).2) := rfl

theorem for_runs_as_loop_sharing :
    (check sharingSource).report.diagnostics = [] ∧
    sharingTree.Stands [] [] (check sharingSource).program ∧
    ∃ p r : ForClauses,
      Parser.forClauses 39 sharingCursor = (.ok p, (Parser.forStatement 40 sharingCursor).2) ∧
      r.unresolve = p ∧ r.Scoped [] ∧
      (∀ (m : Machine) (out : Outcome Signal), out.fault? ≠ some .outOfFuel →
        ((∃ k, Machine.exec k sharingTree m = out) ↔ ∃ k, Machine.forLoop k r m = out)) ∧
      ∀ (k : Nat) (w : Lexical.World) (m : Machine) (state : Lexical.State) (ρ : Lexical.Env),
        Lexical.Related w m state → Lexical.EnvRel w none [] m.current ρ →
        Lexical.Exact w [] m.current →
          Lexical.Ends (fun _ => False) m.current w Lexical.SignalRel
            (Machine.forLoop k r m) (Lexical.forLoop k ρ p state) := by
  have hstands : sharingTree.Stands [] [] (check sharingSource).program := by
    rw [sharing_program_eq]
    exact .first []
  exact ⟨rfl, hstands, for_runs_as_loop sharingSource rfl forStatement_sharing hstands rfl⟩

end Lox
