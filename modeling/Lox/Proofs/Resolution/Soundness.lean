import Lox.Proofs.Resolution.Scoped
import Lox.Proofs.Resolution.Walk

/-!
A walk that reports nothing leaves a scoped tree.

The stack of the resolver holds the names of the context, in the same order, and the
walk changes nothing in a tree but the distances of its references.
-/

namespace Lox.Resolution

/-! ## Problems are only added -/

section Reports

variable (s : State)

private theorem prefix_of_logAfter {α : Type} (walk : State → α × State)
    (h : ∀ s es ds, walk (State.logAfter s es ds) =
      ((walk s).1, (walk s).2.logAfter es ds)) :
    s.reported <+: (walk s).2.reported := by
  have hWalk := h s.core s.entries s.reported
  rw [State.core_logAfter] at hWalk
  rw [hWalk]
  exact List.prefix_append _ _

theorem expr_reported (e : Expr) : s.reported <+: (expr s e).2.reported :=
  prefix_of_logAfter s (fun s => expr s e) fun s es ds => expr_logAfter es ds s e

theorem exprs_reported (es : List Expr) : s.reported <+: (exprs s es).2.reported :=
  prefix_of_logAfter s (fun s => exprs s es) fun s es' ds => exprs_logAfter es' ds s es

theorem expr?_reported (e : Option Expr) : s.reported <+: (expr? s e).2.reported :=
  prefix_of_logAfter s (fun s => expr? s e) fun s es ds => expr?_logAfter es ds s e

theorem stmt_reported (st : Stmt) : s.reported <+: (stmt s st).2.reported :=
  prefix_of_logAfter s (fun s => stmt s st) fun s es ds => stmt_logAfter es ds s st

theorem stmts_reported (body : List Stmt) : s.reported <+: (stmts s body).2.reported :=
  prefix_of_logAfter s (fun s => stmts s body) fun s es ds => stmts_logAfter es ds s body

theorem function_reported (role : FunctionRole) (f : FunctionDecl) :
    s.reported <+: (function s role f).2.reported :=
  prefix_of_logAfter s (fun s => function s role f)
    fun s es ds => function_logAfter es ds s role f

theorem functions_reported (methods : List FunctionDecl) :
    s.reported <+: (functions s methods).2.reported :=
  prefix_of_logAfter s (fun s => functions s methods)
    fun s es ds => functions_logAfter es ds s methods

theorem declare_reported (name : Token) : s.reported <+: (s.declare name).reported :=
  prefix_of_logAfter s (fun s => ((), s.declare name))
    fun s es ds => by simp

theorem parameters_reported (ps : List Token) : s.reported <+: (parameters s ps).reported :=
  prefix_of_logAfter s (fun s => ((), parameters s ps)) fun s es ds => by simp

@[simp] theorem define_reported (name : Token) : (s.define name).reported = s.reported := by
  unfold State.define
  split <;> rfl

end Reports

theorem clean_split {a b c : List Diagnostic} (hab : a <+: b) (hbc : b <+: c)
    (h : c = a) : b = a ∧ c = b := by
  subst h
  have hb : b = c := (hab.eq_of_length (Nat.le_antisymm hab.length_le hbc.length_le)).symm
  exact ⟨hb, hb.symm⟩

/-! ## The stack as a context -/

def contextOf (scopes : List Frame) : Context := scopes.map fun frame => frame.map Prod.fst

theorem hops?_contextOf (s : State) (name : Bytes) :
    (contextOf s.scopes).hops? name = s.hops? name := by
  unfold Context.hops? contextOf State.hops?
  rw [List.findIdx?_map]
  congr 1
  funext frame
  rw [Bool.eq_iff_iff]
  simp [Bindings.has_iff_mem]

/-- The state stands for a context; `pending` is a name that is declared but not ready. -/
structure Tracks (s : State) (Γ : Context) (pending : Option Bytes) : Prop where
  context : contextOf s.scopes = Γ
  subclass : s.classRole = .subclass →
    ∃ k, Γ.hops? (utf8 "this") = some k ∧ Γ.hops? (utf8 "super") = some (k + 1)
  initializing : ∀ x ∈ pending, s.isInitializing x = true

namespace Tracks

variable {s t : State} {Γ : Context} {pending : Option Bytes}

theorem ofScopes (h : Tracks s Γ pending) (hscopes : t.scopes = s.scopes)
    (hrole : t.classRole = s.classRole) : Tracks t Γ pending where
  context := by rw [hscopes, h.context]
  subclass := by rw [hrole]; exact h.subclass
  initializing := by
    intro x hx
    unfold State.isInitializing
    rw [hscopes]
    exact h.initializing x hx

theorem ofCore (h : Tracks s Γ pending) (hcore : t.core = s.core) : Tracks t Γ pending :=
  h.ofScopes (State.scopes_of_core hcore) (State.classRole_of_core hcore)

theorem hops? (h : Tracks s Γ pending) (name : Bytes) : s.hops? name = Γ.hops? name := by
  rw [← hops?_contextOf, h.context]

end Tracks

@[simp] theorem State.resolve_hops (s : State) (kind : ReferenceKind) (key name : Bytes)
    (r : Reference) : (s.resolve kind key name r).1.hops = s.hops? key := by
  unfold State.resolve
  cases h : s.hops? key <;> rfl

@[simp] theorem State.resolve_name (s : State) (kind : ReferenceKind) (key name : Bytes)
    (r : Reference) : (s.resolve kind key name r).1.name = r.name := by
  unfold State.resolve
  split <;> rfl

@[simp] theorem State.report_hops? (s : State) (p : Problem) (t : Token) (name : Bytes) :
    (s.report p t).hops? name = s.hops? name := rfl

@[simp] theorem State.use_hops (s : State) (r : Reference) :
    (s.use r).1.hops = s.hops? r.name.lexeme := by
  unfold State.use
  split <;> simp

@[simp] theorem State.use_name (s : State) (r : Reference) : (s.use r).1.name = r.name := by
  unfold State.use
  split <;> simp

theorem State.resolve_reported (s : State) (kind : ReferenceKind) (key name : Bytes)
    (r : Reference) : (s.resolve kind key name r).2.reported = s.reported := by
  unfold State.resolve
  split <;> rfl

theorem State.not_isInitializing_of_use {s : State} {r : Reference}
    (h : (s.use r).2.reported = s.reported) : s.isInitializing r.name.lexeme = false := by
  cases hInit : s.isInitializing r.name.lexeme with
  | false => rfl
  | true =>
      simp [State.use, hInit, State.resolve_reported, State.report] at h

/-! ## Expressions -/

mutual

theorem expr_scoped (s : State) (e : Expr) {Γ : Context} {pending : Option Bytes}
    (hs : Tracks s Γ pending) (hwf : e.WellFormed)
    (hclean : (expr s e).2.reported = s.reported) : (expr s e).1.Scoped Γ { pending } := by
  cases e with
  | absent | literal => simp [Expr.Scoped]
  | grouping span inner =>
      simp only [Expr.WellFormed, Expr.Scoped, expr_grouping] at hwf hclean ⊢
      exact expr_scoped s inner hs hwf hclean
  | unary span operator operand =>
      simp only [Expr.WellFormed, Expr.Scoped, expr_unary] at hwf hclean ⊢
      exact expr_scoped s operand hs hwf hclean
  | binary span operator left right | logical span operator left right =>
      simp only [Expr.WellFormed, Expr.Scoped, expr_binary, expr_logical] at hwf hclean ⊢
      obtain ⟨hLeft, hRight⟩ :=
        clean_split (expr_reported s left) (expr_reported (expr s left).2 right) hclean
      exact ⟨expr_scoped s left hs hwf.1 hLeft,
        expr_scoped _ right (hs.ofCore (expr_core s left)) hwf.2 hRight⟩
  | var r =>
      simp only [Expr.Scoped, expr_var, State.use_hops, State.use_name] at hclean ⊢
      refine ⟨hs.hops? _, fun hpending => ?_⟩
      have hready := State.not_isInitializing_of_use hclean
      rw [hs.initializing _ hpending] at hready
      contradiction
  | assign target value =>
      simp only [Expr.WellFormed, Expr.Scoped, expr_assign, State.resolve_reported,
        State.resolve_hops, State.resolve_name] at hwf hclean ⊢
      exact ⟨(hs.ofCore (expr_core s value)).hops? _, hwf.2.1,
        expr_scoped s value hs hwf.2.2 hclean⟩
  | call span callee paren arguments =>
      simp only [Expr.WellFormed, Expr.Scoped, expr_call] at hwf hclean ⊢
      obtain ⟨hCallee, hArguments⟩ :=
        clean_split (expr_reported s callee) (exprs_reported (expr s callee).2 arguments) hclean
      exact ⟨expr_scoped s callee hs hwf.1 hCallee,
        exprs_scoped _ arguments (hs.ofCore (expr_core s callee)) hwf.2 hArguments⟩
  | get span object name =>
      simp only [Expr.WellFormed, Expr.Scoped, expr_get] at hwf hclean ⊢
      exact expr_scoped s object hs hwf hclean
  | set span object name value =>
      simp only [Expr.WellFormed, Expr.Scoped, expr_set] at hwf hclean ⊢
      obtain ⟨hValue, hObject⟩ :=
        clean_split (expr_reported s value) (expr_reported (expr s value).2 object) hclean
      exact ⟨expr_scoped _ object (hs.ofCore (expr_core s value)) hwf.1 hObject,
        expr_scoped s value hs hwf.2 hValue⟩
  | thisRef r =>
      simp only [Expr.WellFormed, expr_thisRef] at hwf hclean ⊢
      by_cases hrole : s.classRole = .none
      · simp [hrole, State.report] at hclean
      · simp only [hrole, if_false, Expr.Scoped, State.resolve_name, State.resolve_hops]
        exact ⟨hwf.2, hs.hops? _⟩
  | superRef r method =>
      simp only [expr_superRef] at hclean ⊢
      cases hrole : s.classRole with
      | none | plain => simp [hrole, State.report] at hclean
      | subclass =>
          obtain ⟨k, hThis, hSuper⟩ := hs.subclass hrole
          simp only [Expr.Scoped, State.resolve_hops, hs.hops?, hSuper]
          exact ⟨trivial, fun _ => rfl, fun d hd => ⟨k, (Option.mem_some.mp hd).symm, hThis⟩⟩

theorem exprs_scoped (s : State) (es : List Expr) {Γ : Context} {pending : Option Bytes}
    (hs : Tracks s Γ pending) (hwf : Expr.WellFormedList es)
    (hclean : (exprs s es).2.reported = s.reported) :
    Expr.ScopedList Γ { pending } (exprs s es).1 := by
  cases es with
  | nil => simp [Expr.ScopedList]
  | cons e rest =>
      simp only [Expr.WellFormedList, Expr.ScopedList, exprs_cons] at hwf hclean ⊢
      obtain ⟨hFirst, hRest⟩ :=
        clean_split (expr_reported s e) (exprs_reported (expr s e).2 rest) hclean
      exact ⟨expr_scoped s e hs hwf.1 hFirst,
        exprs_scoped _ rest (hs.ofCore (expr_core s e)) hwf.2 hRest⟩

end

/-! ## Declarations -/

namespace Tracks

variable {s : State} {Γ : Context} {pending : Option Bytes}

theorem openScope (h : Tracks s Γ none) : Tracks s.openScope ([] :: Γ) none where
  context := by simp [State.openScope, State.openWith, contextOf, ← h.context]
  subclass := by
    intro hrole
    obtain ⟨k, hk, hk'⟩ := h.subclass hrole
    exact ⟨k + 1, by simp [Context.hops?_cons, hk], by simp [Context.hops?_cons, hk']⟩
  initializing := by simp

theorem declare (h : Tracks s Γ none) {name : Token} (hname : name.Nameable)
    (hclean : (s.declare name).reported = s.reported) :
    Declarable Γ name ∧
      Tracks (s.declare name) (Γ.declare name.lexeme) (Γ.initializing name.lexeme) := by
  obtain ⟨hThis, hSuper⟩ := hname
  obtain ⟨hcontext, hsubclass, -⟩ := h
  cases hs : s.scopes with
  | nil =>
      obtain rfl : Γ = [] := by rw [← hcontext, hs]; rfl
      have hsame : s.declare name = s := by simp [State.declare, hs]
      rw [hsame]
      exact ⟨⟨⟨hThis, hSuper⟩, by simp⟩, hcontext, hsubclass, by simp [Context.initializing]⟩
  | cons frame outer =>
      obtain rfl : Γ = frame.map Prod.fst :: contextOf outer := by rw [← hcontext, hs]; rfl
      cases hhas : frame.has name.lexeme with
      | true => simp [State.declare, hs, hhas, State.report] at hclean
      | false =>
          have hfresh : name.lexeme ∉ frame.map Prod.fst := by
            rw [← Bindings.has_iff_mem, hhas]
            simp
          have hstate : s.declare name =
              { s with scopes := frame.set name.lexeme false :: outer } := by
            simp [State.declare, hs, hhas]
          rw [hstate]
          refine ⟨⟨⟨hThis, hSuper⟩, by simpa using hfresh⟩, ?_, ?_, ?_⟩
          · simp [contextOf, Bindings.keys_set, hhas]
          · intro hrole
            obtain ⟨k, hk, hk'⟩ := hsubclass hrole
            exact ⟨k, by rw [Context.hops?_declare_of_ne _ hThis.symm, hk],
              by rw [Context.hops?_declare_of_ne _ hSuper.symm, hk']⟩
          · intro x hx
            obtain rfl : name.lexeme = x := by simpa [Context.initializing] using hx
            simp [State.isInitializing]

theorem define {name : Token} (h : Tracks s (Γ.declare name.lexeme) pending) :
    Tracks (s.define name) (Γ.declare name.lexeme) none := by
  obtain ⟨hcontext, hsubclass, -⟩ := h
  cases hs : s.scopes with
  | nil =>
      have hsame : s.define name = s := by simp [State.define, hs]
      rw [hsame]
      exact ⟨hcontext, hsubclass, by simp⟩
  | cons frame outer =>
      have hstate : s.define name =
          { s with scopes := frame.set name.lexeme true :: outer } := by
        simp [State.define, hs]
      have hhas : frame.has name.lexeme = true := by
        rw [Bindings.has_iff_mem]
        cases Γ with
        | nil => simp [contextOf, hs] at hcontext
        | cons names Γ =>
            simp only [contextOf, hs, List.map_cons, Context.declare_cons, List.cons.injEq]
              at hcontext
            simp [hcontext.1]
      rw [hstate]
      refine ⟨?_, hsubclass, by simp⟩
      rw [← hcontext]
      simp [contextOf, hs, Bindings.keys_set, hhas]

theorem declare_define (h : Tracks s Γ none) {name : Token} (hname : name.Nameable)
    (hclean : (s.declare name).reported = s.reported) :
    Declarable Γ name ∧
      Tracks ((s.declare name).define name) (Γ.declare name.lexeme) none :=
  ⟨(h.declare hname hclean).1, (h.declare hname hclean).2.define⟩

theorem parameters {names : List Bytes} (h : Tracks s (names :: Γ) none) {ps : List Token}
    (hps : ∀ p ∈ ps, p.Nameable) (hnodup : names.Nodup)
    (hclean : (Resolution.parameters s ps).reported = s.reported) :
    (names ++ ps.map Token.lexeme).Nodup ∧
      Tracks (Resolution.parameters s ps) ((names ++ ps.map Token.lexeme) :: Γ) none := by
  induction ps generalizing s names with
  | nil => simpa using ⟨hnodup, h⟩
  | cons p rest ih =>
      have hstep : Resolution.parameters s (p :: rest) =
          Resolution.parameters ((s.declare p).define p) rest := rfl
      rw [hstep] at hclean ⊢
      have hrest := parameters_reported ((s.declare p).define p) rest
      rw [define_reported] at hrest
      obtain ⟨hFirst, hRest⟩ := clean_split (declare_reported s p) hrest hclean
      obtain ⟨hdeclarable, htracks⟩ := h.declare_define (hps p (by simp)) hFirst
      have hnew : (names ++ [p.lexeme]).Nodup := by
        have : p.lexeme ∉ names := by simpa using hdeclarable.2
        simp [List.nodup_append, hnodup]
        intro a ha heq
        exact this (heq ▸ ha)
      have hnext := ih htracks (fun q hq => hps q (by simp [hq])) hnew
        (by rw [hRest, define_reported])
      simpa using hnext

theorem inClass (h : Tracks s Γ none) {name : Token} (hname : name.Nameable)
    (hclean : (s.inClass name).reported = s.reported) :
    Declarable Γ name ∧ Tracks (s.inClass name) (Γ.declare name.lexeme) none := by
  have hplain : Tracks { s with classRole := .plain } Γ none :=
    ⟨h.context, by simp, by simp⟩
  exact hplain.declare_define hname (by simpa [State.inClass] using hclean)

theorem leaveClass {t : State} (h : Tracks s Γ none) {name : Token} (hname : name.Nameable)
    (hcontext : contextOf t.scopes = Γ.declare name.lexeme) (hrole : t.classRole = s.classRole) :
    Tracks t (Γ.declare name.lexeme) none where
  context := hcontext
  subclass := by
    intro hsub
    obtain ⟨k, hk, hk'⟩ := h.subclass (hrole ▸ hsub)
    exact ⟨k, by rw [Context.hops?_declare_of_ne _ hname.1.symm, hk],
      by rw [Context.hops?_declare_of_ne _ hname.2.symm, hk']⟩
  initializing := by simp

theorem openThis (h : Tracks s Γ none) (hrole : s.classRole ≠ .subclass) :
    Tracks (s.openWith [(utf8 "this", true)]) ([utf8 "this"] :: Γ) none where
  context := by simp [State.openWith, contextOf, ← h.context]
  subclass := fun hsub => absurd hsub hrole
  initializing := by simp

theorem openSuperThis (h : contextOf s.scopes = Γ) :
    Tracks ((s.openWith [(utf8 "super", true)]).openWith [(utf8 "this", true)])
      ([utf8 "this"] :: [utf8 "super"] :: Γ) none where
  context := by simp [State.openWith, contextOf, ← h]
  subclass := fun _ => ⟨0, by simp [Context.hops?_cons], by
    have hne : utf8 "super" ≠ utf8 "this" := by decide
    simp [Context.hops?_cons, hne]⟩
  initializing := by simp

end Tracks

theorem superclass_reported (s : State) (name : Token) (r : Reference) :
    s.reported <+: (superclass s name r).2.reported :=
  prefix_of_logAfter s (fun s => superclass s name r) fun s es ds => by simp

theorem superclass_clean {s : State} {name : Token} {r : Reference}
    (h : (superclass s name r).2.reported = s.reported) :
    r.name.lexeme ≠ name.lexeme ∧ (superclass s name r).1.hops = s.hops? r.name.lexeme := by
  by_cases hsame : r.name.lexeme = name.lexeme
  · have hgrows := (prefix_of_logAfter { s.report .selfInherit r.name with classRole := .subclass }
      (fun s => s.use r) fun s es ds => by simp).length_le
    simp only [superclass, hsame, if_true] at h
    rw [h] at hgrows
    simp only [State.report, List.length_append, List.length_singleton] at hgrows
    omega
  · exact ⟨hsame, by simp only [superclass, hsame, if_false, State.use_hops]; rfl⟩

@[simp] theorem superclass_name (s : State) (name : Token) (r : Reference) :
    (superclass s name r).1.name = r.name := by
  unfold superclass
  simp

/-! ## Statements -/

@[simp] theorem function_name (s : State) (role : FunctionRole) (f : FunctionDecl) :
    (function s role f).1.name = f.name := by
  cases f
  rfl

@[simp] theorem stmt_declared? (s : State) (st : Stmt) :
    (stmt s st).1.declared? = st.declared? := by
  cases st with
  | branch span condition onTrue onFalse => cases onFalse <;> rfl
  | classDecl span name parent methods => cases parent <;> rfl
  | function f => simp [Stmt.declared?]
  | _ => rfl

theorem expr?_scoped (s : State) (e : Option Expr) {Γ : Context} {pending : Option Bytes}
    (hs : Tracks s Γ pending) (hwf : ∀ x ∈ e, x.WellFormed)
    (hclean : (expr? s e).2.reported = s.reported) :
    ∀ x ∈ (expr? s e).1, x.Scoped Γ { pending } := by
  cases e with
  | none => simp
  | some e =>
      simp only [expr?_some, Option.mem_some, forall_eq'] at hclean ⊢
      exact expr_scoped s e hs (hwf e rfl) hclean

theorem beforeReturn_reported (s : State) (keyword : Token) (value : Option Expr) :
    s.reported <+: (s.beforeReturn keyword value).reported :=
  prefix_of_logAfter s (fun s => ((), s.beforeReturn keyword value)) fun s es ds => by simp

mutual

theorem stmt_scoped (s : State) (st : Stmt) {Γ : Context} (hs : Tracks s Γ none)
    (hwf : st.WellFormed) (hclean : (stmt s st).2.reported = s.reported) :
    (stmt s st).1.Scoped Γ ∧ Tracks (stmt s st).2 (st.contextAfter Γ) none := by
  cases st with
  | expression span e | print span e =>
      simp only [Stmt.WellFormed, Stmt.Scoped, stmt_expression, stmt_print] at hwf hclean ⊢
      exact ⟨expr_scoped s e hs hwf hclean, hs.ofCore (expr_core s e)⟩
  | var span name initial =>
      simp only [Stmt.WellFormed, stmt_var, define_reported] at hwf hclean ⊢
      obtain ⟨hName, hInitial⟩ :=
        clean_split (declare_reported s name) (expr?_reported (s.declare name) initial) hclean
      obtain ⟨hdeclarable, hdeclared⟩ := hs.declare hwf.1 hName
      have hscoped := expr?_scoped _ initial hdeclared hwf.2 hInitial
      refine ⟨?_, (hdeclared.ofCore (expr?_core _ initial)).define⟩
      cases initial with
      | none => simpa [Stmt.Scoped] using hdeclarable
      | some e => exact ⟨hdeclarable, by simpa using hscoped⟩
  | block span body =>
      simp only [Stmt.WellFormed, Stmt.Scoped, stmt_block] at hwf hclean ⊢
      have hframe := stmts_sameFrame s.openScope body
      exact ⟨stmts_scoped _ body hs.openScope hwf hclean,
        hs.ofScopes hframe.scopes_closeScope hframe.classRole⟩
  | branch span condition onTrue onFalse =>
      have hCondition := hs.ofCore (expr_core s condition)
      cases onFalse with
      | none =>
          simp only [Stmt.WellFormed, Stmt.Scoped, stmt_branch_none] at hwf hclean ⊢
          obtain ⟨hc, ht, hnone⟩ := hwf
          obtain ⟨h₁, h₂⟩ := clean_split (expr_reported s condition)
            (stmt_reported (expr s condition).2 onTrue) hclean
          obtain ⟨hTrue, hAfter⟩ := stmt_scoped _ onTrue hCondition ht h₂
          simp only [Stmt.contextAfter, hnone] at hAfter
          exact ⟨⟨expr_scoped s condition hs hc h₁, hTrue, by simpa using hnone⟩, hAfter⟩
      | some onFalse =>
          simp only [Stmt.WellFormed, Stmt.Scoped, stmt_branch_some] at hwf hclean ⊢
          obtain ⟨hc, ht, hnone, hf, hnone'⟩ := hwf
          have hpre := (expr_reported s condition).trans
            (stmt_reported (expr s condition).2 onTrue)
          obtain ⟨h₁₂, h₃⟩ := clean_split hpre (stmt_reported _ onFalse) hclean
          obtain ⟨h₁, h₂⟩ := clean_split (expr_reported s condition)
            (stmt_reported (expr s condition).2 onTrue) h₁₂
          obtain ⟨hTrue, hAfter⟩ := stmt_scoped _ onTrue hCondition ht h₂
          simp only [Stmt.contextAfter, hnone] at hAfter
          obtain ⟨hFalse, hAfter'⟩ := stmt_scoped _ onFalse hAfter hf h₃
          simp only [Stmt.contextAfter, hnone'] at hAfter'
          exact ⟨⟨expr_scoped s condition hs hc h₁, hTrue, by simpa using hnone, hFalse,
            by simpa using hnone'⟩, hAfter'⟩
  | loop span condition body =>
      simp only [Stmt.WellFormed, Stmt.Scoped, stmt_loop] at hwf hclean ⊢
      obtain ⟨hc, hb, hnone⟩ := hwf
      obtain ⟨h₁, h₂⟩ := clean_split (expr_reported s condition)
        (stmt_reported (expr s condition).2 body) hclean
      obtain ⟨hBody, hAfter⟩ := stmt_scoped _ body (hs.ofCore (expr_core s condition)) hb h₂
      simp only [Stmt.contextAfter, hnone] at hAfter
      exact ⟨⟨expr_scoped s condition hs hc h₁, hBody, by simpa using hnone⟩, hAfter⟩
  | function f =>
      simp only [Stmt.WellFormed, Stmt.Scoped, stmt_function, function_name] at hwf hclean ⊢
      have hpre := function_reported ((s.declare f.name).define f.name) .function f
      rw [define_reported] at hpre
      obtain ⟨hName, hBody⟩ := clean_split (declare_reported s f.name) hpre hclean
      obtain ⟨hdeclarable, hdeclared⟩ := hs.declare_define hwf.1 hName
      exact ⟨⟨hdeclarable, function_scoped _ .function f hdeclared hwf.2 (by
        rw [hBody, define_reported])⟩, hdeclared.ofCore (function_core _ .function f)⟩
  | ret span keyword value =>
      simp only [Stmt.WellFormed, stmt_ret] at hwf hclean ⊢
      obtain ⟨-, hValue⟩ := clean_split (beforeReturn_reported s keyword value)
        (expr?_reported _ value) hclean
      have hs' := hs.ofCore (State.beforeReturn_core s keyword value)
      have hscoped := expr?_scoped _ value hs' hwf hValue
      refine ⟨?_, hs'.ofCore (expr?_core _ value)⟩
      cases value with
      | none => simp [Stmt.Scoped]
      | some e => simpa [Stmt.Scoped] using hscoped
  | classDecl span name parent methods =>
      simp only [Stmt.WellFormed] at hwf
      obtain ⟨hname, hparent, hmethods⟩ := hwf
      have hname' : s.reported <+: (s.inClass name).reported := by
        simpa [State.inClass] using declare_reported { s with classRole := .plain } name
      cases parent with
      | none =>
          simp only [stmt_classDecl_none, Stmt.Scoped] at hclean ⊢
          obtain ⟨h₁, h₂⟩ := clean_split hname' (functions_reported
            ((s.inClass name).openWith [(utf8 "this", true)]) methods) hclean
          obtain ⟨hdeclarable, hclass⟩ := hs.inClass hname h₁
          have hrole : (s.inClass name).classRole = .plain :=
            ((SameFrame.declare _ name).trans (SameFrame.define _ name)).classRole
          have hMethods := functions_core ((s.inClass name).openWith [(utf8 "this", true)]) methods
          have hscopes := (SameFrame.ofCore hMethods).scopes_closeScope
          exact ⟨⟨hdeclarable, functions_scoped _ methods
            (hclass.openThis (by simp [hrole])) hmethods h₂⟩,
            hs.leaveClass hname ((congrArg contextOf hscopes).trans hclass.context) rfl⟩
      | some parent =>
          simp only [stmt_classDecl_some, Stmt.Scoped, superclass_name] at hclean ⊢
          have hparent' := superclass_reported (s.inClass name) name parent
          obtain ⟨h₁₂, h₃⟩ := clean_split (hname'.trans hparent') (functions_reported
            (((superclass (s.inClass name) name parent).2.openWith
              [(utf8 "super", true)]).openWith [(utf8 "this", true)]) methods) hclean
          obtain ⟨h₁, h₂⟩ := clean_split hname' hparent' h₁₂
          obtain ⟨hdeclarable, hclass⟩ := hs.inClass hname h₁
          obtain ⟨hne, hhops⟩ := superclass_clean h₂
          have hcontext : contextOf (superclass (s.inClass name) name parent).2.scopes =
              Γ.declare name.lexeme := by
            rw [superclass_scopes, hclass.context]
          have hMethods := functions_core
            (((superclass (s.inClass name) name parent).2.openWith
              [(utf8 "super", true)]).openWith [(utf8 "this", true)]) methods
          have hscopes := congrArg List.tail (SameFrame.ofCore hMethods).scopes_closeScope
          refine ⟨⟨hdeclarable, ?_, functions_scoped _ methods (Tracks.openSuperThis hcontext)
            hmethods h₃⟩, hs.leaveClass hname ((congrArg contextOf hscopes).trans hcontext) rfl⟩
          rw [hhops, hclass.hops?, Context.hops?_declare_of_ne _ hne]

theorem stmts_scoped (s : State) (body : List Stmt) {Γ : Context} (hs : Tracks s Γ none)
    (hwf : Stmt.WellFormedList body) (hclean : (stmts s body).2.reported = s.reported) :
    Stmt.ScopedList Γ (stmts s body).1 := by
  cases body with
  | nil => simp [Stmt.ScopedList]
  | cons st rest =>
      simp only [Stmt.WellFormedList, Stmt.ScopedList, stmts_cons] at hwf hclean ⊢
      obtain ⟨hFirst, hRest⟩ :=
        clean_split (stmt_reported s st) (stmts_reported (stmt s st).2 rest) hclean
      obtain ⟨hscoped, hAfter⟩ := stmt_scoped s st hs hwf.1 hFirst
      refine ⟨hscoped, ?_⟩
      rw [Stmt.contextAfter, stmt_declared?]
      exact stmts_scoped _ rest hAfter hwf.2 hRest

theorem function_scoped (s : State) (role : FunctionRole) (f : FunctionDecl) {Γ : Context}
    (hs : Tracks s Γ none) (hwf : f.WellFormed)
    (hclean : (function s role f).2.reported = s.reported) :
    (function s role f).1.Scoped Γ := by
  cases f with
  | mk span name ps body =>
      simp only [FunctionDecl.WellFormed, FunctionDecl.Scoped, function_mk] at hwf hclean ⊢
      obtain ⟨hParameters, hBody⟩ := clean_split
        (parameters_reported ({ s with function := role } : State).openScope ps)
        (stmts_reported (s.inFunction role ps) body) hclean
      have hopen := (hs.ofScopes (t := { s with function := role }) rfl rfl).openScope
      obtain ⟨hnodup, hinner⟩ := hopen.parameters hwf.1 (by simp) hParameters
      exact ⟨hwf.1, by simpa using hnodup, stmts_scoped _ body hinner hwf.2 hBody⟩

theorem functions_scoped (s : State) (methods : List FunctionDecl) {Γ : Context}
    (hs : Tracks s Γ none) (hwf : FunctionDecl.WellFormedList methods)
    (hclean : (functions s methods).2.reported = s.reported) :
    FunctionDecl.ScopedList Γ (functions s methods).1 := by
  cases methods with
  | nil => simp [FunctionDecl.ScopedList]
  | cons f rest =>
      simp only [FunctionDecl.WellFormedList, FunctionDecl.ScopedList, functions_cons]
        at hwf hclean ⊢
      obtain ⟨hFirst, hRest⟩ := clean_split (function_reported s _ f)
        (functions_reported (function s (methodRole f.name.lexeme) f).2 rest) hclean
      exact ⟨function_scoped s _ f hs hwf.1 hFirst,
        functions_scoped _ rest (hs.ofCore (function_core s _ f)) hwf.2 hRest⟩

end

/-! ## The tree is otherwise unchanged -/

@[simp] theorem State.resolve_unresolve (s : State) (kind : ReferenceKind) (key name : Bytes)
    (r : Reference) :
    (s.resolve kind key name r).1.relabel .unresolve = r.relabel .unresolve := by
  unfold State.resolve
  split <;> rfl

@[simp] theorem State.use_unresolve (s : State) (r : Reference) :
    (s.use r).1.relabel .unresolve = r.relabel .unresolve := by
  unfold State.use
  split <;> simp

mutual

theorem expr_unresolve (s : State) (e : Expr) :
    (expr s e).1.relabel .unresolve = e.relabel .unresolve := by
  cases e with
  | absent | literal => rfl
  | grouping span inner => simp [Expr.relabel, expr_unresolve s inner]
  | unary span operator operand => simp [Expr.relabel, expr_unresolve s operand]
  | binary span operator left right | logical span operator left right =>
      simp [Expr.relabel, expr_unresolve s left, expr_unresolve (expr s left).2 right]
  | var r => simp [Expr.relabel]
  | assign target value => simp [Expr.relabel, expr_unresolve s value]
  | call span callee paren arguments =>
      simp [Expr.relabel, expr_unresolve s callee, exprs_unresolve (expr s callee).2 arguments]
  | get span object name => simp [Expr.relabel, expr_unresolve s object]
  | set span object name value =>
      simp [Expr.relabel, expr_unresolve s value, expr_unresolve (expr s value).2 object]
  | thisRef r =>
      rw [expr_thisRef]
      split <;> simp [Expr.relabel]
  | superRef r method =>
      rw [expr_superRef]
      split <;> simp [Expr.relabel]

theorem exprs_unresolve (s : State) (es : List Expr) :
    Expr.relabelList .unresolve (exprs s es).1 = Expr.relabelList .unresolve es := by
  cases es with
  | nil => rfl
  | cons e rest =>
      simp [Expr.relabelList, expr_unresolve s e, exprs_unresolve (expr s e).2 rest]

end

theorem expr?_unresolve (s : State) (e : Option Expr) :
    (expr? s e).1.map (fun x => x.relabel .unresolve) = e.map fun x => x.relabel .unresolve := by
  cases e <;> simp [expr_unresolve]

theorem superclass_unresolve (s : State) (name : Token) (r : Reference) :
    (superclass s name r).1.relabel .unresolve = r.relabel .unresolve := by
  unfold superclass
  simp

mutual

theorem stmt_unresolve (s : State) (st : Stmt) :
    (stmt s st).1.relabel .unresolve = st.relabel .unresolve := by
  cases st with
  | expression span e | print span e => simp [Stmt.relabel, expr_unresolve]
  | var span name initial => simp [Stmt.relabel, expr?_unresolve]
  | block span body => simp [Stmt.relabel, stmts_unresolve s.openScope body]
  | branch span condition onTrue onFalse =>
      have hTrue := stmt_unresolve (expr s condition).2 onTrue
      cases onFalse with
      | none => simp [Stmt.relabel, expr_unresolve, hTrue]
      | some onFalse =>
          have hFalse := stmt_unresolve (stmt (expr s condition).2 onTrue).2 onFalse
          simp [Stmt.relabel, expr_unresolve, hTrue, hFalse]
  | loop span condition body =>
      simp [Stmt.relabel, expr_unresolve, stmt_unresolve (expr s condition).2 body]
  | function f => simp [Stmt.relabel, function_unresolve _ _ f]
  | ret span keyword value => simp [Stmt.relabel, expr?_unresolve]
  | classDecl span name parent methods =>
      cases parent <;>
        simp [Stmt.relabel, superclass_unresolve, functions_unresolve _ methods]

theorem stmts_unresolve (s : State) (body : List Stmt) :
    Stmt.relabelList .unresolve (stmts s body).1 = Stmt.relabelList .unresolve body := by
  cases body with
  | nil => rfl
  | cons st rest =>
      simp [Stmt.relabelList, stmt_unresolve s st, stmts_unresolve (stmt s st).2 rest]

theorem function_unresolve (s : State) (role : FunctionRole) (f : FunctionDecl) :
    (function s role f).1.relabel .unresolve = f.relabel .unresolve := by
  cases f with
  | mk span name ps body => simp [FunctionDecl.relabel, stmts_unresolve _ body]

theorem functions_unresolve (s : State) (methods : List FunctionDecl) :
    FunctionDecl.relabelList .unresolve (functions s methods).1 =
      FunctionDecl.relabelList .unresolve methods := by
  cases methods with
  | nil => rfl
  | cons f rest =>
      simp [FunctionDecl.relabelList, function_unresolve s _ f,
        functions_unresolve (function s _ f).2 rest]

end

/-! ## Whole programs -/

/-- Outside all scopes, functions and classes, where every program starts. -/
def State.AtTop (s : State) : Prop :=
  s.scopes = [] ∧ s.function = .none ∧ s.classRole = .none

theorem State.AtTop.tracks {s : State} (h : s.AtTop) : Tracks s [] none where
  context := by rw [h.1]; rfl
  subclass := by simp [h.2.2]
  initializing := by simp

theorem State.AtTop.eq_logAfter {s : State} (h : s.AtTop) :
    s = State.logAfter {} s.entries s.reported := by
  obtain ⟨hscopes, hfunction, hrole⟩ := h
  cases s
  simp_all [State.logAfter]

theorem State.AtTop.ofSameFrame {s t : State} (h : s.AtTop) (hframe : SameFrame s t) :
    t.AtTop := by
  obtain ⟨hscopes, hfunction, hrole⟩ := h
  refine ⟨List.eq_nil_of_length_eq_zero ?_, hframe.function.trans hfunction,
    hframe.classRole.trans hrole⟩
  rw [hframe.depth, hscopes]
  rfl

theorem resolveFrom_atTop {s : State} (h : s.AtTop) (program : List Stmt) :
    (resolveFrom s program).2.AtTop :=
  State.AtTop.ofSameFrame (s := { s with reported := [] }) h (stmts_sameFrame _ program)

/-- A well-formed program that resolves without problems is scoped, and it is the program as it
was read but for its distances. -/
theorem resolveFrom_scoped {s : State} (h : s.AtTop) {program : List Stmt}
    (hwf : Stmt.WellFormedList program)
    (hclean : (resolveFrom s program).1.diagnostics = []) :
    Stmt.ScopedList [] (resolveFrom s program).1.program ∧
      Stmt.relabelList .unresolve (resolveFrom s program).1.program = program := by
  have htop : State.AtTop { s with reported := [] } := h
  refine ⟨stmts_scoped _ program htop.tracks hwf hclean, ?_⟩
  exact (stmts_unresolve _ program).trans (Stmt.relabelList_unresolve program hwf)

end Lox.Resolution
