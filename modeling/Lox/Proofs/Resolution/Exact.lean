import Lox.Proofs.Parser.WellFormed
import Lox.Proofs.Resolution.Placement

/-!
The resolver computes the static analysis, no more and no less.

Whatever the walk adds to its log at a form of tree is what the points of the tree ask
for.  A value is resolved before the target of its assignment and before the object of
its property, so problems and entries come in the order of the walk; the points come in
the order of the text, and the two are compared up to order.
-/

namespace Lox.Resolution

/-! ## What a walk adds to the log -/

/--
From `s` to `t` the walk has logged what the points `before` ask for, and has turned them
into the points `after` by writing in their distances.
-/
structure Settles (s t : State) (before after : List Point) : Prop where
  reported : t.reported.Perm (s.reported ++ before.filterMap Point.violation?)
  entries : t.entries.Perm (s.entries ++ before.filterMap Point.entry?)
  located : after = before.map Point.located

namespace Settles

variable {s t u : State} {before after before' after' : List Point}

theorem silent (hreported : t.reported = s.reported) (hentries : t.entries = s.entries) :
    Settles s t [] [] := ⟨by simp [hreported], by simp [hentries], rfl⟩

theorem point {p q : Point} (hreported : t.reported = s.reported ++ p.violation?.toList)
    (hentries : t.entries = s.entries ++ p.entry?.toList) (hq : q = p.located) :
    Settles s t [p] [q] where
  reported := by rw [hreported, List.filterMap_cons]; cases p.violation? <;> simp
  entries := by rw [hentries, List.filterMap_cons]; cases p.entry? <;> simp
  located := by simp [hq]

theorem append (h : Settles s t before after) (k : Settles t u before' after') :
    Settles s u (before ++ before') (after ++ after') where
  reported := by
    rw [List.filterMap_append, ← List.append_assoc]
    exact k.reported.trans (h.reported.append_right _)
  entries := by
    rw [List.filterMap_append, ← List.append_assoc]
    exact k.entries.trans (h.entries.append_right _)
  located := by rw [h.located, k.located, List.map_append]

/-- The walk may take two parts of a tree in another order than the text has them. -/
theorem appendBefore (h : Settles s t before after) (k : Settles t u before' after') :
    Settles s u (before' ++ before) (after' ++ after) where
  reported := (h.append k).reported.trans
    ((List.perm_append_comm.filterMap _).append_left _)
  entries := (h.append k).entries.trans ((List.perm_append_comm.filterMap _).append_left _)
  located := by rw [h.located, k.located, List.map_append]

end Settles

/-! ### One point -/

theorem State.resolve_eq (s : State) (kind : ReferenceKind) (key name : Bytes) (r : Reference) :
    s.resolve kind key name r =
      ({ r with hops := s.hops? key },
        { s with entries := s.entries ++
          ((s.hops? key).map fun hops => (⟨kind, name, r.span, hops⟩ : Entry)).toList }) := by
  unfold State.resolve
  cases h : s.hops? key <;> simp

theorem State.use_eq (s : State) (r : Reference) :
    s.use r =
      State.resolve
        (if s.isInitializing r.name.lexeme then s.report .selfInitializer r.name else s)
        .var r.name.lexeme r.name.lexeme r := rfl

theorem with_hops_none {r : Reference} (h : r.hops = none) :
    { r with hops := none } = r := by
  cases r
  simp_all

def State.beforeSuperclass (s : State) (name : Token) (r : Reference) : State :=
  { (if r.name.lexeme = name.lexeme then s.report .selfInherit r.name else s) with
    classRole := .subclass }

theorem superclass_eq (s : State) (name : Token) (r : Reference) :
    superclass s name r = (s.beforeSuperclass name r).use r := rfl

theorem Settles.openWith (s : State) (frame : Frame) : Settles s (s.openWith frame) [] [] :=
  .silent rfl rfl

theorem Settles.define (s : State) (name : Token) : Settles s (s.define name) [] [] :=
  .silent (define_reported s name) (State.define_entries s name)

namespace Framed

variable {s : State} {place : Place} {pending : Option Bytes}

theorem settles_use (h : Framed s place pending) {r : Reference} (hname : r.name.Nameable) :
    Settles s (s.use r).2 [{ place, pending, node := .read r }]
      [{ place, pending, node := .read (s.use r).1 }] := by
  have hdistance : (Point.mk place pending (.read r)).distance? = s.hops? r.name.lexeme :=
    (h.hops?_name hname).symm
  have hpending := h.initializing r.name.lexeme
  rw [State.use_eq, State.resolve_eq]
  by_cases hread : s.isInitializing r.name.lexeme = true
  · refine .point ?_ ?_ ?_
    · simp [hread, State.report, Point.violation?, hpending.mp hread]
    · simp [hread, Point.entry?, hdistance]
      rfl
    · simp [hread, Point.located, hdistance]
  · refine .point ?_ ?_ ?_
    · simp [hread, Point.violation?, mt hpending.mpr hread]
    · simp [hread, Point.entry?, hdistance]
    · simp [hread, Point.located, hdistance]

theorem settles_assign (h : Framed s place pending) {r : Reference} (hname : r.name.Nameable) :
    Settles s (s.resolve .assign r.name.lexeme r.name.lexeme r).2
      [{ place, pending, node := .assigned r }]
      [{ place, pending,
         node := .assigned (s.resolve .assign r.name.lexeme r.name.lexeme r).1 }] := by
  have hdistance : (Point.mk place pending (.assigned r)).distance? = s.hops? r.name.lexeme :=
    (h.hops?_name hname).symm
  rw [State.resolve_eq]
  refine .point ?_ ?_ ?_
  · simp [Point.violation?]
  · simp [Point.entry?, hdistance]
  · simp [Point.located, hdistance]

theorem settles_declare (h : Framed s place pending) (hopen : place.Open) (name : Token) :
    Settles s (s.declare name) [{ place, node := .declared name }]
      [{ place, node := .declared name }] := by
  refine .point ?_ (by simp [Point.entry?]) rfl
  rw [State.declare_reported_eq, head?_any_has_of_holds h.scopes, ← hopen.neighbours_eq]
  by_cases hname : name.lexeme ∈ place.neighbours <;> simp [Point.violation?, hname]

theorem settles_declare_define (h : Framed s place pending) (hopen : place.Open) (name : Token) :
    Settles s ((s.declare name).define name) [{ place, node := .declared name }]
      [{ place, node := .declared name }] :=
  (h.settles_declare hopen name).appendBefore (Settles.define _ name)

theorem settles_inClass (h : Framed s place none) (hopen : place.Open) (name : Token) :
    Settles s (s.inClass name) [{ place, node := .declared name }]
      [{ place, node := .declared name }] := by
  have hplain : Framed { s with classRole := .plain } place none := h.ofScopes rfl
  have hname := hplain.settles_declare_define hopen name
  exact ⟨hname.reported, hname.entries, hname.located⟩

theorem settles_superclass (h : Framed s place none) (name : Token) {r : Reference}
    (hname : r.name.Nameable) :
    Settles s (superclass s name r).2
      [{ place, node := .inherits name r.name }, { place, node := .read r }]
      [{ place, node := .inherits name r.name },
        { place, node := .read (superclass s name r).1 }] := by
  have hcheck : Settles s (s.beforeSuperclass name r)
      [{ place, node := .inherits name r.name }] [{ place, node := .inherits name r.name }] := by
    unfold State.beforeSuperclass
    by_cases hsame : r.name.lexeme = name.lexeme <;> refine .point ?_ ?_ rfl <;>
      simp [hsame, State.report, Point.violation?, Point.entry?]
  have hscopes : (s.beforeSuperclass name r).scopes = s.scopes := by
    unfold State.beforeSuperclass
    split <;> rfl
  rw [superclass_eq]
  exact hcheck.append ((h.ofScopes hscopes).settles_use hname)

end Framed

namespace Mirrors

variable {s : State} {place : Place} {pending : Option Bytes}

theorem settles_this (h : Mirrors s place pending) {r : Reference} (hr : r.hops = none) :
    Settles s (expr s (.thisRef r)).2 [{ place, pending, node := .this r }]
      ((expr s (.thisRef r)).1.points place pending) := by
  have hclass := h.classRole
  rw [expr_thisRef]
  by_cases hrole : s.classRole = .none
  · rw [hrole, ClassRole.inherits?] at hclass
    rw [if_pos hrole, Expr.points]
    refine .point ?_ ?_ ?_
    · simp [State.report, Point.violation?, ← hclass]
    · simp [State.report, Point.entry?, Point.distance?, Point.bound, ← hclass]
    · simp [Point.located, Point.distance?, Point.bound, ← hclass,
        with_hops_none hr]
  · obtain ⟨inherits, hinherits⟩ : ∃ inherits, place.class? = some inherits := by
      rw [← hclass]
      cases hs : s.classRole <;> simp_all [ClassRole.inherits?]
    have hdistance : (Point.mk place pending (.this r)).distance? = s.hops? (utf8 "this") := by
      rw [h.hops?_this hinherits]
      simp [Point.distance?, Point.bound, hinherits]
    rw [if_neg hrole, State.resolve_eq, Expr.points]
    refine .point ?_ ?_ ?_
    · simp [Point.violation?, hinherits]
    · simp [Point.entry?, hdistance]
    · simp [Point.located, hdistance]

theorem settles_super (h : Mirrors s place pending) {r : Reference} (hr : r.hops = none)
    (method : Token) :
    Settles s (expr s (.superRef r method)).2 [{ place, pending, node := .super r method }]
      ((expr s (.superRef r method)).1.points place pending) := by
  have hclass := h.classRole
  rw [expr_superRef]
  cases hrole : s.classRole with
  | none | plain =>
      rw [hrole, ClassRole.inherits?] at hclass
      simp only [Expr.points]
      refine .point ?_ ?_ ?_
      · simp [State.report, Point.violation?, ← hclass]
      · simp [State.report, Point.entry?, Point.distance?, Point.bound, ← hclass]
      · simp [Point.located, Point.distance?, Point.bound, ← hclass,
          with_hops_none hr]
  | subclass =>
      rw [hrole, ClassRole.inherits?] at hclass
      have hdistance : (Point.mk place pending (.super r method)).distance? =
          s.hops? (utf8 "super") := by
        rw [h.hops?_super hclass.symm]
        simp [Point.distance?, Point.bound, ← hclass]
      simp only [State.resolve_eq, Expr.points]
      refine .point ?_ ?_ ?_
      · simp [Point.violation?, ← hclass]
      · simp [Point.entry?, hdistance]
      · simp [Point.located, hdistance]

theorem settles_return (h : Mirrors s place pending) (keyword : Token) (value : Option Expr) :
    Settles s (s.beforeReturn keyword value)
      [{ place, node := .returned keyword value.isSome }]
      [{ place, node := .returned keyword value.isSome }] := by
  have hfunction := h.function
  unfold State.beforeReturn
  cases hrole : s.function with
  | none =>
      rw [hrole, FunctionRole.initializer?] at hfunction
      refine .point ?_ ?_ rfl
      · simp [State.report, hrole, Point.violation?, ← hfunction]
      · simp [State.report, hrole, Point.entry?]
  | function | method =>
      rw [hrole, FunctionRole.initializer?] at hfunction
      refine .point ?_ ?_ rfl
      · simp [hrole, Point.violation?, ← hfunction]
      · simp [hrole, Point.entry?]
  | initializer =>
      rw [hrole, FunctionRole.initializer?] at hfunction
      cases hvalue : value.isSome <;> refine .point ?_ ?_ rfl <;>
        simp [State.report, hrole, Point.violation?, Point.entry?, ← hfunction]

end Mirrors

/-! ## Expressions -/

mutual

theorem expr_settles (s : State) (e : Expr) {place : Place} {pending : Option Bytes}
    (hs : Mirrors s place pending) (hwf : e.WellFormed) :
    Settles s (expr s e).2 (e.points place pending) ((expr s e).1.points place pending) := by
  cases e with
  | absent | literal => exact .silent rfl rfl
  | grouping span inner =>
      simp only [Expr.WellFormed, Expr.points, expr_grouping] at hwf ⊢
      exact expr_settles s inner hs hwf
  | unary span operator operand =>
      simp only [Expr.WellFormed, Expr.points, expr_unary] at hwf ⊢
      exact expr_settles s operand hs hwf
  | binary span operator left right | logical span operator left right =>
      simp only [Expr.WellFormed, Expr.points, expr_binary, expr_logical] at hwf ⊢
      exact (expr_settles s left hs hwf.1).append
        (expr_settles _ right (hs.ofCore (expr_core s left)) hwf.2)
  | var r =>
      simp only [Expr.WellFormed, Expr.points, expr_var] at hwf ⊢
      exact hs.settles_use hwf.2
  | assign target value =>
      simp only [Expr.WellFormed, Expr.points, expr_assign] at hwf ⊢
      exact (expr_settles s value hs hwf.2.2).appendBefore
        ((hs.ofCore (expr_core s value)).settles_assign hwf.2.1)
  | call span callee paren arguments =>
      simp only [Expr.WellFormed, Expr.points, expr_call] at hwf ⊢
      exact (expr_settles s callee hs hwf.1).append
        (exprs_settles _ arguments (hs.ofCore (expr_core s callee)) hwf.2)
  | get span object name =>
      simp only [Expr.WellFormed, Expr.points, expr_get] at hwf ⊢
      exact expr_settles s object hs hwf
  | set span object name value =>
      simp only [Expr.WellFormed, Expr.points, expr_set] at hwf ⊢
      exact (expr_settles s value hs hwf.2).appendBefore
        (expr_settles _ object (hs.ofCore (expr_core s value)) hwf.1)
  | thisRef r =>
      simp only [Expr.WellFormed] at hwf
      exact hs.settles_this hwf.1
  | superRef r method =>
      simp only [Expr.WellFormed] at hwf
      exact hs.settles_super hwf method

theorem exprs_settles (s : State) (es : List Expr) {place : Place} {pending : Option Bytes}
    (hs : Mirrors s place pending) (hwf : Expr.WellFormedList es) :
    Settles s (exprs s es).2 (Expr.pointsList place pending es)
      (Expr.pointsList place pending (exprs s es).1) := by
  cases es with
  | nil => exact .silent rfl rfl
  | cons e rest =>
      simp only [Expr.WellFormedList, Expr.pointsList, exprs_cons] at hwf ⊢
      exact (expr_settles s e hs hwf.1).append
        (exprs_settles _ rest (hs.ofCore (expr_core s e)) hwf.2)

end

theorem expr?_settles (s : State) (e : Option Expr) {place : Place} {pending : Option Bytes}
    (hs : Mirrors s place pending) (hwf : ∀ x ∈ e, x.WellFormed) :
    Settles s (expr? s e).2 (Expr.points? place pending e)
      (Expr.points? place pending (expr? s e).1) := by
  cases e with
  | none => exact .silent rfl rfl
  | some e => exact expr_settles s e hs (hwf e rfl)

/-! ## Statements -/

@[simp] theorem expr?_isSome (s : State) (e : Option Expr) :
    (expr? s e).1.isSome = e.isSome := by
  cases e <;> rfl

namespace Mirrors

variable {s : State} {place : Place}

theorem parameters (initializer : Bool) (names : List Bytes)
    (h : Mirrors s (.function initializer names :: place) none) (ps : List Token) :
    Settles s (Resolution.parameters s ps) (declarations (.function initializer names :: place) ps)
        (declarations (.function initializer names :: place) ps) ∧
      Mirrors (Resolution.parameters s ps)
        (.function initializer (names ++ ps.map Token.lexeme) :: place) none := by
  induction ps generalizing s names with
  | nil => exact ⟨.silent rfl rfl, by simpa [Resolution.parameters] using h⟩
  | cons p rest ih =>
      obtain ⟨hRest, hAfter⟩ := ih _ (h.declare_define trivial p)
      rw [List.append_assoc] at hAfter
      exact ⟨(h.settles_declare_define trivial p).append hRest, hAfter⟩

end Mirrors

mutual

theorem stmt_settles (s : State) (st : Stmt) {place : Place} (hs : Mirrors s place none)
    (hopen : place.Open) (hwf : st.WellFormed) :
    Settles s (stmt s st).2 (st.points place) ((stmt s st).1.points place) ∧
      Mirrors (stmt s st).2 (st.placeAfter place) none := by
  cases st with
  | expression span e | print span e =>
      simp only [Stmt.WellFormed, Stmt.points, stmt_expression, stmt_print] at hwf ⊢
      exact ⟨expr_settles s e hs hwf, hs.ofCore (expr_core s e)⟩
  | var span name initial =>
      simp only [Stmt.WellFormed, Stmt.points, stmt_var] at hwf ⊢
      have hdeclared := hs.declare hopen name
      have hinitial := expr?_settles _ initial hdeclared hwf.2
      refine ⟨((hs.settles_declare hopen name).append hinitial).appendBefore
        (Settles.define _ name), ?_⟩
      exact hs.ofDeclared ((hdeclared.ofCore (expr?_core _ initial)).toFramed.define hopen)
        (stmt_sameFrame s (.var span name initial))
  | block span body =>
      simp only [Stmt.WellFormed, Stmt.points, stmt_block] at hwf ⊢
      have hBody := stmts_settles _ body hs.openScope trivial hwf
      have hscopes := (stmts_sameFrame s.openScope body).scopes_closeScope
      exact ⟨⟨hBody.reported, hBody.entries, hBody.located⟩,
        hs.back hscopes (stmt_sameFrame s (.block span body))⟩
  | branch span condition onTrue onFalse =>
      have hCondition := hs.ofCore (expr_core s condition)
      cases onFalse with
      | none =>
          simp only [Stmt.WellFormed, Stmt.points, stmt_branch_none] at hwf ⊢
          obtain ⟨hc, ht, hnone⟩ := hwf
          obtain ⟨hTrue, hAfter⟩ := stmt_settles _ onTrue hCondition hopen ht
          rw [Stmt.placeAfter_of_declared?_eq_none hnone] at hAfter
          exact ⟨(expr_settles s condition hs hc).append hTrue, hAfter⟩
      | some onFalse =>
          simp only [Stmt.WellFormed, Stmt.points, stmt_branch_some] at hwf ⊢
          obtain ⟨hc, ht, hnone, hf, hnone'⟩ := hwf
          obtain ⟨hTrue, hAfter⟩ := stmt_settles _ onTrue hCondition hopen ht
          rw [Stmt.placeAfter_of_declared?_eq_none hnone] at hAfter
          obtain ⟨hFalse, hAfter'⟩ := stmt_settles _ onFalse hAfter hopen hf
          rw [Stmt.placeAfter_of_declared?_eq_none hnone'] at hAfter'
          exact ⟨((expr_settles s condition hs hc).append hTrue).append hFalse, hAfter'⟩
  | loop span condition body =>
      simp only [Stmt.WellFormed, Stmt.points, stmt_loop] at hwf ⊢
      obtain ⟨hc, hb, hnone⟩ := hwf
      obtain ⟨hBody, hAfter⟩ :=
        stmt_settles _ body (hs.ofCore (expr_core s condition)) hopen hb
      rw [Stmt.placeAfter_of_declared?_eq_none hnone] at hAfter
      exact ⟨(expr_settles s condition hs hc).append hBody, hAfter⟩
  | function f =>
      simp only [Stmt.WellFormed, Stmt.points, stmt_function, function_name] at hwf ⊢
      have hdeclared := hs.declare_define hopen f.name
      have hBody := function_settles _ .function f hdeclared rfl hwf.2
      exact ⟨(hs.settles_declare_define hopen f.name).append hBody,
        hdeclared.ofCore (function_core _ .function f)⟩
  | ret span keyword value =>
      simp only [Stmt.WellFormed, Stmt.points, stmt_ret] at hwf ⊢
      have hcore := State.beforeReturn_core s keyword value
      have hValue := expr?_settles _ value (hs.ofCore hcore) hwf
      rw [expr?_isSome]
      exact ⟨(hs.settles_return keyword value).append hValue,
        hs.ofCore ((expr?_core _ value).trans hcore)⟩
  | classDecl span name parent methods =>
      simp only [Stmt.WellFormed] at hwf
      obtain ⟨-, hparent, hmethods⟩ := hwf
      have hName := hs.settles_inClass hopen name
      have hclass := hs.toFramed.inClass hopen name
      cases parent with
      | none =>
          simp only [Stmt.points, stmt_classDecl_none]
          have hMethods := functions_settles _ methods (hs.openThis hopen name) hmethods
          have hAll := hName.append ((Settles.openWith _ _).append hMethods)
          have hscopes := (SameFrame.ofCore (functions_core
            ((s.inClass name).openWith [(utf8 "this", true)]) methods)).scopes_closeScope
          exact ⟨⟨hAll.reported, hAll.entries, hAll.located⟩,
            hs.ofDeclared (hclass.ofScopes hscopes)
              (stmt_sameFrame s (.classDecl span name none methods))⟩
      | some parent =>
          simp only [Stmt.points, stmt_classDecl_some, superclass_name]
          have hParent := hclass.settles_superclass name (hparent parent rfl).2
          have hMethods := functions_settles _ methods (hs.openSuperThis hopen name parent) hmethods
          have hOpen := (Settles.openWith (superclass (s.inClass name) name parent).2
            [(utf8 "super", true)]).append (Settles.openWith _ [(utf8 "this", true)])
          have hAll := (hName.append hParent).append (hOpen.append hMethods)
          have hscopes := congrArg List.tail (SameFrame.ofCore (functions_core
            (((superclass (s.inClass name) name parent).2.openWith
              [(utf8 "super", true)]).openWith [(utf8 "this", true)]) methods)).scopes_closeScope
          exact ⟨⟨hAll.reported, hAll.entries, hAll.located⟩,
            hs.ofDeclared (hclass.ofScopes (hscopes.trans (superclass_scopes _ name parent)))
              (stmt_sameFrame s (.classDecl span name (some parent) methods))⟩

theorem stmts_settles (s : State) (body : List Stmt) {place : Place} (hs : Mirrors s place none)
    (hopen : place.Open) (hwf : Stmt.WellFormedList body) :
    Settles s (stmts s body).2 (Stmt.pointsList place body)
      (Stmt.pointsList place (stmts s body).1) := by
  cases body with
  | nil => exact .silent rfl rfl
  | cons st rest =>
      simp only [Stmt.WellFormedList, Stmt.pointsList, stmts_cons] at hwf ⊢
      obtain ⟨hFirst, hAfter⟩ := stmt_settles s st hs hopen hwf.1
      have hRest := stmts_settles _ rest hAfter (st.placeAfter_open hopen) hwf.2
      rw [show (stmt s st).1.placeAfter place = st.placeAfter place by
        simp [Stmt.placeAfter]]
      exact hFirst.append hRest

theorem function_settles (s : State) (role : FunctionRole) (f : FunctionDecl) {place : Place}
    {initializer : Bool} (hs : Mirrors s place none)
    (hrole : role.initializer? = some initializer) (hwf : f.WellFormed) :
    Settles s (function s role f).2 (f.points place initializer)
      ((function s role f).1.points place initializer) := by
  cases f with
  | mk span name ps body =>
      simp only [FunctionDecl.WellFormed, FunctionDecl.points, function_mk] at hwf ⊢
      obtain ⟨hParameters, hInside⟩ := (hs.openFunction hrole).parameters initializer [] ps
      have hBody := stmts_settles _ body hInside trivial hwf.2
      have hAll := hParameters.append hBody
      exact ⟨hAll.reported, hAll.entries, hAll.located⟩

theorem functions_settles (s : State) (methods : List FunctionDecl) {place : Place}
    (hs : Mirrors s place none) (hwf : FunctionDecl.WellFormedList methods) :
    Settles s (functions s methods).2 (FunctionDecl.pointsList place methods)
      (FunctionDecl.pointsList place (functions s methods).1) := by
  cases methods with
  | nil => exact .silent rfl rfl
  | cons f rest =>
      simp only [FunctionDecl.WellFormedList, FunctionDecl.pointsList, functions_cons,
        function_name] at hwf ⊢
      exact (function_settles s _ f hs (methodRole_initializer? _) hwf.1).append
        (functions_settles _ rest (hs.ofCore (function_core s _ f)) hwf.2)

end

/-! ## Whole programs -/

theorem mirrors_start : Mirrors {} [] none where
  scopes := .nil
  initializing := by simp [State.isInitializing]
  function := rfl
  classRole := rfl

/--
For every source, the problems of its program are the rules that its points break, and the
local references are those of the points with a local binding, one for each point and no
others.  The resolved program has the same points with these distances written in, and but
for the distances it is the program as it was read.
-/
theorem resolve_exact (source : Bytes) :
    let program := (parse source).1
    let outcome := resolve program
    let points := Stmt.pointsList [] program
    outcome.diagnostics.Perm (points.filterMap Point.violation?) ∧
      outcome.entries.Perm (points.filterMap Point.entry?) ∧
      Stmt.pointsList [] outcome.program = points.map Point.located ∧
      Stmt.relabelList .unresolve outcome.program = program := by
  intro program outcome points
  have hwf : Stmt.WellFormedList program := parse_wellFormed source
  have hsettles := stmts_settles {} program mirrors_start trivial hwf
  have htree := (stmts_unresolve {} program).trans (Stmt.relabelList_unresolve program hwf)
  exact ⟨hsettles.reported, hsettles.entries, hsettles.located, htree⟩

-- A second `a` in the scope of a parameter, read in its own initializer, in a class that names
-- itself: three problems, and still the two local reads are found.
example :
    let points := Stmt.pointsList []
      (parse (utf8 "class A < A { f(a) { var a = a; return this; } }")).1
    (points.filterMap Point.violation?).length = 3 ∧
      points.filterMap Point.distance? = [0, 1] := by
  decide +kernel

end Lox.Resolution
