import Lox.Proofs.Rendering.Words
import Lox.Tree.Dump

/-!
The dump of a tree is faithful.

Two trees that were read from sources and have one dump are the same: their nodes, the ranges of
these, the names, the operators, the values and the parts that are there or not.  All that the
dump leaves out is where the tokens of a node and the superclass of a class stand.
-/

namespace Lox

/-! ## What a dump leaves out -/

def Relabelling.unplaceTokens : Relabelling where
  token := Token.unplace

@[simp] theorem Relabelling.unplaceTokens_span (s : Span) :
    Relabelling.unplaceTokens.span s = s := rfl

@[simp] theorem Relabelling.unplaceTokens_token (t : Token) :
    Relabelling.unplaceTokens.token t = t.unplace := rfl

def Expr.sketch (e : Expr) : Expr := e.relabel .unplaceTokens

mutual

/-- The places of tokens are forgotten, and all of the place of a superclass. -/
def Stmt.sketch : Stmt → Stmt
  | .expression span e => .expression span e.sketch
  | .print span e => .print span e.sketch
  | .var span name initial => .var span name.unplace (initial.map Expr.sketch)
  | .block span body => .block span (Stmt.sketchList body)
  | .branch span condition onTrue none => .branch span condition.sketch onTrue.sketch none
  | .branch span condition onTrue (some onFalse) =>
      .branch span condition.sketch onTrue.sketch (some onFalse.sketch)
  | .loop span condition body => .loop span condition.sketch body.sketch
  | .function f => .function f.sketch
  | .ret span keyword value => .ret span keyword.unplace (value.map Expr.sketch)
  | .classDecl span name superclass methods =>
      .classDecl span name.unplace (superclass.map (Reference.relabel .unplace))
        (FunctionDecl.sketchList methods)

def Stmt.sketchList : List Stmt → List Stmt
  | [] => []
  | s :: rest => s.sketch :: Stmt.sketchList rest

def FunctionDecl.sketch : FunctionDecl → FunctionDecl
  | .mk span name parameters body =>
      .mk span name.unplace (parameters.map Token.unplace) (Stmt.sketchList body)

def FunctionDecl.sketchList : List FunctionDecl → List FunctionDecl
  | [] => []
  | f :: rest => f.sketch :: FunctionDecl.sketchList rest

end

def Tree.sketch : Tree → Tree
  | .expr e => .expr e.sketch
  | .stmt s => .stmt s.sketch

def Tree.dump : Tree → Json
  | .expr e => e.dump
  | .stmt s => s.dump

/-! ## Lists of parts -/

theorem Expr.dumpList_eq_map (es : List Expr) : Expr.dumpList es = es.map Expr.dump := by
  induction es with
  | nil => rfl
  | cons e rest ih => simp [Expr.dumpList, ih]

theorem Stmt.dumpList_eq_map (body : List Stmt) : Stmt.dumpList body = body.map Stmt.dump := by
  induction body with
  | nil => rfl
  | cons s rest ih => simp [Stmt.dumpList, ih]

theorem Stmt.sketchList_eq_map (body : List Stmt) :
    Stmt.sketchList body = body.map Stmt.sketch := by
  induction body with
  | nil => rfl
  | cons s rest ih => simp [Stmt.sketchList, ih]

theorem FunctionDecl.dumpList_eq_map (fs : List FunctionDecl) :
    FunctionDecl.dumpList fs = (fs.map Stmt.function).map Stmt.dump := by
  induction fs with
  | nil => rfl
  | cons f rest ih => simp [FunctionDecl.dumpList, Stmt.dump, ih]

theorem FunctionDecl.sketchList_eq_map (fs : List FunctionDecl) :
    FunctionDecl.sketchList fs = fs.map FunctionDecl.sketch := by
  induction fs with
  | nil => rfl
  | cons f rest ih => simp [FunctionDecl.sketchList, ih]

theorem map_eq_map_of_imp {f : α → β} {g : α → γ} {xs ys : List α} (h : xs.map f = ys.map f)
    (himp : ∀ x ∈ xs, ∀ y ∈ ys, f x = f y → g x = g y) : xs.map g = ys.map g := by
  induction xs generalizing ys with
  | nil => simp_all
  | cons x xs ih =>
      cases ys with
      | nil => simp at h
      | cons y ys =>
          simp only [List.map_cons, List.cons.injEq] at h ⊢
          refine ⟨himp x (by simp) y (by simp) h.1, ih h.2 ?_⟩
          exact fun a ha b hb => himp a (by simp [ha]) b (by simp [hb])

/-! ## Fields -/

@[simp] theorem Position.dump_inj {p q : Position} : p.dump = q.dump ↔ p = q := by
  obtain ⟨offset, line, column⟩ := p
  obtain ⟨offset', line', column'⟩ := q
  simp [Position.dump, and_comm, and_assoc]

@[simp] theorem Span.dump_inj {s t : Span} : s.dump = t.dump ↔ s = t := by
  obtain ⟨start, stop⟩ := s
  obtain ⟨start', stop'⟩ := t
  simp [Span.dump, and_comm]

@[simp] theorem Literal.dump_inj {l l' : Literal} : l.dump = l'.dump ↔ l = l' := by
  cases l <;> cases l' <;> simp [Literal.dump]

@[simp] theorem lexemeField_inj {key key' : String} {t u : Token} :
    lexemeField key t = lexemeField key' u ↔ key = key' ∧ t.lexeme = u.lexeme := by
  simp [lexemeField]

@[simp] theorem spanField_inj {s t : Span} : spanField s = spanField t ↔ s = t := by
  simp [spanField]

@[simp] theorem kindField_inj {name name' : String} :
    kindField name = kindField name' ↔ name = name' := by
  simp [kindField]

/-! ## Kinds of nodes -/

def Json.kind? : Json → Option Json
  | .object fields => fields.lookup "kind"
  | _ => none

def Expr.kindName? : Expr → Option String
  | .absent => none
  | .literal _ _ => some "Literal"
  | .grouping _ _ => some "Grouping"
  | .unary _ _ _ => some "Unary"
  | .binary _ _ _ _ => some "Binary"
  | .logical _ _ _ _ => some "Logical"
  | .var _ => some "Variable"
  | .assign _ _ => some "Assign"
  | .call _ _ _ _ => some "Call"
  | .get _ _ _ => some "Get"
  | .set _ _ _ _ => some "Set"
  | .thisRef _ => some "This"
  | .superRef _ _ => some "Super"

def Stmt.kindName : Stmt → String
  | .expression _ _ => "ExprStmt"
  | .print _ _ => "PrintStmt"
  | .var _ _ _ => "VarStmt"
  | .block _ _ => "BlockStmt"
  | .branch _ _ _ _ => "IfStmt"
  | .loop _ _ _ => "WhileStmt"
  | .function _ => "FunctionStmt"
  | .ret _ _ _ => "ReturnStmt"
  | .classDecl _ _ _ _ => "ClassStmt"

theorem Expr.kind?_dump (e : Expr) :
    e.dump.kind? = e.kindName?.map fun name => .text (utf8 name) := by
  cases e <;> rfl

theorem Stmt.kind?_dump (s : Stmt) : s.dump.kind? = some (.text (utf8 s.kindName)) := by
  cases s with
  | var span name initial => cases initial <;> rfl
  | branch span condition onTrue onFalse => cases onFalse <;> rfl
  | function f => cases f; rfl
  | ret span keyword value => cases value <;> rfl
  | classDecl span name superclass methods => cases superclass <;> rfl
  | _ => rfl

theorem Expr.kindName?_eq {a b : Expr} (h : a.dump = b.dump) : a.kindName? = b.kindName? := by
  have hkind := congrArg Json.kind? h
  rw [kind?_dump, kind?_dump] at hkind
  cases ha : a.kindName? <;> cases hb : b.kindName? <;> simp_all

theorem Stmt.kindName_eq {a b : Stmt} (h : a.dump = b.dump) : a.kindName = b.kindName := by
  have hkind := congrArg Json.kind? h
  simpa [kind?_dump] using hkind

theorem Expr.dump_ne_dump (e : Expr) (s : Stmt) : e.dump ≠ s.dump := by
  intro h
  have hkind := congrArg Json.kind? h
  rw [e.kind?_dump, s.kind?_dump] at hkind
  cases e <;> cases s <;> simp [kindName?, Stmt.kindName] at hkind

/-! ## Expressions -/

theorem Reference.Uses.sketch_eq {k : Kind} {r r' : Reference} (h : r.Uses k) (h' : r'.Uses k)
    (hspan : r.span = r'.span) (hname : r.name.unplace = r'.name.unplace) :
    r.relabel .unplaceTokens = r'.relabel .unplaceTokens := by
  simp [Reference.relabel, hspan, hname, h.hops, h'.hops]

theorem Expr.sketch_eq {a b : Expr} (ha : a.AllWorded) (hb : b.AllWorded)
    (h : a.dump = b.dump) : a.sketch = b.sketch := by
  -- the induction is on the nodes of the first tree; the dump says of which kind the second is
  induction ha generalizing b with
  | @intro a here _ ih =>
      have here' := hb.here
      have hkind := kindName?_eq h
      have below (x : Expr) (hx : x ∈ a.operands) (y : Expr) (hy : y ∈ b.operands)
          (hdump : x.dump = y.dump) : x.sketch = y.sketch :=
        ih x hx (hb.operands y hy) hdump
      clear ih
      cases a with
      | absent => exact here.elim
      | literal span value =>
          cases b with
          | literal span' value' =>
              simp [Expr.dump] at h
              simp [Expr.sketch, Expr.relabel, h]
          | _ => simp [kindName?] at hkind
      | grouping span inner =>
          cases b with
          | grouping span' inner' =>
              simp [Expr.dump] at h
              have hinner := below inner (by simp [operands]) inner' (by simp [operands]) h.1
              simpa [Expr.sketch, Expr.relabel, h] using hinner
          | _ => simp [kindName?] at hkind
      | unary span operator operand =>
          cases b with
          | unary span' operator' operand' =>
              simp [Expr.dump] at h
              have hoperator := here.1.unplace_eq here'.1 h.1
              have hoperand :=
                below operand (by simp [operands]) operand' (by simp [operands]) h.2.1
              simpa [Expr.sketch, Expr.relabel, h, hoperator] using hoperand
          | _ => simp [kindName?] at hkind
      | binary span operator left right =>
          cases b with
          | binary span' operator' left' right' =>
              simp [Expr.dump] at h
              obtain ⟨hl, hlexeme, hr, rfl⟩ := h
              have hoperator := here.1.unplace_eq here'.1 hlexeme
              have hleft := below left (by simp [operands]) left' (by simp [operands]) hl
              have hright := below right (by simp [operands]) right' (by simp [operands]) hr
              simpa [Expr.sketch, Expr.relabel, hoperator] using ⟨hleft, hright⟩
          | _ => simp [kindName?] at hkind
      | logical span operator left right =>
          cases b with
          | logical span' operator' left' right' =>
              simp [Expr.dump] at h
              obtain ⟨hl, hlexeme, hr, rfl⟩ := h
              have hoperator := here.1.unplace_eq here'.1 hlexeme
              have hleft := below left (by simp [operands]) left' (by simp [operands]) hl
              have hright := below right (by simp [operands]) right' (by simp [operands]) hr
              simpa [Expr.sketch, Expr.relabel, hoperator] using ⟨hleft, hright⟩
          | _ => simp [kindName?] at hkind
      | var r =>
          cases b with
          | var r' =>
              simp [Expr.dump] at h
              have hname := here.name.toGenuine.unplace_eq here'.name.toGenuine h.1
              simpa [Expr.sketch, Expr.relabel] using here.sketch_eq here' h.2 hname
          | _ => simp [kindName?] at hkind
      | assign target value =>
          cases b with
          | assign target' value' =>
              simp [Expr.dump] at h
              have hname := here.name.toGenuine.unplace_eq here'.name.toGenuine h.1
              have hvalue := below value (by simp [operands]) value' (by simp [operands]) h.2.2
              simpa [Expr.sketch, Expr.relabel] using
                ⟨here.sketch_eq here' h.2.1 hname, hvalue⟩
          | _ => simp [kindName?] at hkind
      | call span callee paren arguments =>
          cases b with
          | call span' callee' paren' arguments' =>
              simp [Expr.dump, Expr.dumpList_eq_map] at h
              obtain ⟨ha, hc, rfl⟩ := h
              have hcallee := below callee (by simp [operands]) callee' (by simp [operands]) hc
              have hparen := here.unplace_eq here' (by decide)
              have harguments : arguments.map Expr.sketch = arguments'.map Expr.sketch :=
                map_eq_map_of_imp ha fun x hx y hy =>
                  below x (by simp [operands, hx]) y (by simp [operands, hy])
              simpa [Expr.sketch, Expr.relabel, Expr.relabelList_eq_map, hparen] using
                ⟨hcallee, harguments⟩
          | _ => simp [kindName?] at hkind
      | get span object name =>
          cases b with
          | get span' object' name' =>
              simp [Expr.dump] at h
              have hname := here.toGenuine.unplace_eq here'.toGenuine h.1
              have hobject :=
                below object (by simp [operands]) object' (by simp [operands]) h.2.1
              simpa [Expr.sketch, Expr.relabel, h, hname] using hobject
          | _ => simp [kindName?] at hkind
      | set span object name value =>
          cases b with
          | set span' object' name' value' =>
              simp [Expr.dump] at h
              obtain ⟨hn, ho, rfl, hv⟩ := h
              have hname := here.toGenuine.unplace_eq here'.toGenuine hn
              have hobject := below object (by simp [operands]) object' (by simp [operands]) ho
              have hvalue := below value (by simp [operands]) value' (by simp [operands]) hv
              simpa [Expr.sketch, Expr.relabel, hname] using ⟨hobject, hvalue⟩
          | _ => simp [kindName?] at hkind
      | thisRef r =>
          cases b with
          | thisRef r' =>
              simp [Expr.dump] at h
              have hname := here.name.unplace_eq here'.name (by decide)
              simpa [Expr.sketch, Expr.relabel] using here.sketch_eq here' h hname
          | _ => simp [kindName?] at hkind
      | superRef r method =>
          cases b with
          | superRef r' method' =>
              simp [Expr.dump] at h
              have hname := here.1.name.unplace_eq here'.1.name (by decide)
              have hmethod := here.2.toGenuine.unplace_eq here'.2.toGenuine h.1
              simpa [Expr.sketch, Expr.relabel] using
                ⟨here.1.sketch_eq here'.1 h.2 hname, hmethod⟩
          | _ => simp [kindName?] at hkind

/-! ## Statements -/

theorem Reference.Uses.unplace_eq {k : Kind} {r r' : Reference} (h : r.Uses k) (h' : r'.Uses k)
    (hname : r.name.lexeme = r'.name.lexeme) : r.relabel .unplace = r'.relabel .unplace := by
  have hname := h.name.toGenuine.unplace_eq h'.name.toGenuine hname
  simp [Reference.relabel, Relabelling.unplace, hname, h.hops, h'.hops]

theorem Stmt.sketch_eq {a b : Stmt} (ha : a.AllWorded) (hb : b.AllWorded)
    (h : a.dump = b.dump) : a.sketch = b.sketch := by
  induction ha generalizing b with
  | @intro a here hexpressions _ ih =>
      have here' := hb.here
      have hkind := kindName_eq h
      have expr (x : Expr) (hx : x ∈ a.expressions) (y : Expr) (hy : y ∈ b.expressions)
          (hdump : x.dump = y.dump) : x.sketch = y.sketch :=
        Expr.sketch_eq (hexpressions x hx) (hb.expressions y hy) hdump
      have stmt (s : Stmt) (hs : s ∈ a.statements) (t : Stmt) (ht : t ∈ b.statements)
          (hdump : s.dump = t.dump) : s.sketch = t.sketch :=
        ih s hs (hb.statements t ht) hdump
      have list (hlist : a.statements.map Stmt.dump = b.statements.map Stmt.dump) :
          a.statements.map Stmt.sketch = b.statements.map Stmt.sketch :=
        map_eq_map_of_imp hlist stmt
      clear ih
      cases a with
      | expression span e =>
          cases b with
          | expression span' e' =>
              simp [Stmt.dump] at h
              have he := expr e (by simp [expressions]) e' (by simp [expressions]) h.1
              simpa [Stmt.sketch, h] using he
          | _ => simp [kindName] at hkind
      | print span e =>
          cases b with
          | print span' e' =>
              simp [Stmt.dump] at h
              have he := expr e (by simp [expressions]) e' (by simp [expressions]) h.1
              simpa [Stmt.sketch, h] using he
          | _ => simp [kindName] at hkind
      | var span name initial =>
          cases b with
          | var span' name' initial' =>
              obtain _ | e := initial <;> obtain _ | e' := initial' <;>
                simp [Stmt.dump, kindField] at h
              case none.none =>
                have hname := here.toGenuine.unplace_eq here'.toGenuine h.1
                simp [Stmt.sketch, h, hname]
              case some.some =>
                have he := expr e (by simp [expressions]) e' (by simp [expressions]) h.1
                have hname := here.toGenuine.unplace_eq here'.toGenuine h.2.1
                simpa [Stmt.sketch, h, hname] using he
          | _ => simp [kindName] at hkind
      | block span body =>
          cases b with
          | block span' body' =>
              simp [Stmt.dump, Stmt.dumpList_eq_map] at h
              have hbody : body.map Stmt.sketch = body'.map Stmt.sketch := list h.2
              simpa [Stmt.sketch, Stmt.sketchList_eq_map, h] using hbody
          | _ => simp [kindName] at hkind
      | branch span condition onTrue onFalse =>
          cases b with
          | branch span' condition' onTrue' onFalse' =>
              obtain _ | s := onFalse <;> obtain _ | s' := onFalse' <;>
                simp [Stmt.dump, kindField] at h
              case none.none =>
                have hcondition := expr condition (by simp [expressions]) condition'
                  (by simp [expressions]) h.1
                have htrue := stmt onTrue (by simp [statements]) onTrue'
                  (by simp [statements]) h.2.2
                simpa [Stmt.sketch, h] using ⟨hcondition, htrue⟩
              case some.some =>
                obtain ⟨hc, hf, rfl, ht⟩ := h
                have hcondition := expr condition (by simp [expressions]) condition'
                  (by simp [expressions]) hc
                have htrue := stmt onTrue (by simp [statements]) onTrue'
                  (by simp [statements]) ht
                have hfalse := stmt s (by simp [statements]) s' (by simp [statements]) hf
                simpa [Stmt.sketch] using ⟨hcondition, htrue, hfalse⟩
          | _ => simp [kindName] at hkind
      | loop span condition body =>
          cases b with
          | loop span' condition' body' =>
              simp [Stmt.dump] at h
              obtain ⟨hdump, hc, rfl⟩ := h
              have hcondition := expr condition (by simp [expressions]) condition'
                (by simp [expressions]) hc
              have hbody := stmt body (by simp [statements]) body' (by simp [statements]) hdump
              simpa [Stmt.sketch] using ⟨hcondition, hbody⟩
          | _ => simp [kindName] at hkind
      | function f =>
          cases b with
          | function f' =>
              obtain ⟨span, name, ps, body⟩ := f
              obtain ⟨span', name', ps', body'⟩ := f'
              simp [Stmt.dump, FunctionDecl.dump, Stmt.dumpList_eq_map] at h
              obtain ⟨hdump, hlexeme, hlexemes, rfl⟩ := h
              have hname := here.1.toGenuine.unplace_eq here'.1.toGenuine hlexeme
              have hps : ps.map Token.unplace = ps'.map Token.unplace :=
                map_eq_map_of_imp hlexemes fun p hp p' hp' hlexeme =>
                  (here.2 p hp).toGenuine.unplace_eq (here'.2 p' hp').toGenuine
                    (Json.text.inj hlexeme)
              have hbody : body.map Stmt.sketch = body'.map Stmt.sketch := list hdump
              simpa [Stmt.sketch, FunctionDecl.sketch, Stmt.sketchList_eq_map, hps] using
                ⟨hname, hbody⟩
          | _ => simp [kindName] at hkind
      | ret span keyword value =>
          cases b with
          | ret span' keyword' value' =>
              have hkeyword := here.unplace_eq here' (by decide)
              obtain _ | e := value <;> obtain _ | e' := value' <;>
                simp [Stmt.dump, kindField] at h
              case none.none => simp [Stmt.sketch, h, hkeyword]
              case some.some =>
                have he := expr e (by simp [expressions]) e' (by simp [expressions]) h.2
                simpa [Stmt.sketch, h, hkeyword] using he
          | _ => simp [kindName] at hkind
      | classDecl span name superclass methods =>
          cases b with
          | classDecl span' name' superclass' methods' =>
              have hmethods (hdump : (methods.map Stmt.function).map Stmt.dump =
                  (methods'.map Stmt.function).map Stmt.dump) :
                  methods.map FunctionDecl.sketch = methods'.map FunctionDecl.sketch := by
                have hsketch : (methods.map Stmt.function).map Stmt.sketch =
                    (methods'.map Stmt.function).map Stmt.sketch := list hdump
                rw [List.map_map, List.map_map] at hsketch
                exact map_eq_map_of_imp hsketch fun _ _ _ _ => Stmt.function.inj
              obtain _ | r := superclass <;> obtain _ | r' := superclass' <;>
                simp [Stmt.dump, FunctionDecl.dumpList_eq_map, -List.map_map] at h
              case none.none =>
                have hname := here.toGenuine.unplace_eq here'.toGenuine h.2.1
                simpa [Stmt.sketch, FunctionDecl.sketchList_eq_map, h, hname] using hmethods h.1
              case some.some =>
                obtain ⟨hdump, hlexeme, rfl, hparent⟩ := h
                have hname := here.toGenuine.unplace_eq here'.toGenuine hlexeme
                have hr : r.Uses .identifier :=
                  (hexpressions (.var r) (by simp [expressions])).here
                have hr' : r'.Uses .identifier :=
                  (hb.expressions (.var r') (by simp [expressions])).here
                simpa [Stmt.sketch, FunctionDecl.sketchList_eq_map, hname] using
                  ⟨hr.unplace_eq hr' hparent, hmethods hdump⟩
          | _ => simp [kindName] at hkind

/-! ## Trees of sources -/

/-- Trees with one dump are the same, but for where their tokens and superclasses stand. -/
theorem dump_faithful {source other : Bytes} {a b : Tree} (ha : a.OfSource source)
    (hb : b.OfSource other) (h : a.dump = b.dump) : a.sketch = b.sketch := by
  cases a with
  | expr e =>
      cases b with
      | expr e' => exact congrArg Tree.expr (Expr.sketch_eq ha.worded hb.worded h)
      | stmt s' => exact absurd h (e.dump_ne_dump s')
  | stmt s =>
      cases b with
      | expr e' => exact absurd h.symm (e'.dump_ne_dump s)
      | stmt s' => exact congrArg Tree.stmt (Stmt.sketch_eq ha.worded hb.worded h)

def sumAt (offset : Int) : Expr :=
  let place (start stop : Int) : Span := ⟨⟨start, 1, start + 1⟩, ⟨stop, 1, stop + 1⟩⟩
  let name (word : Bytes) (start : Int) : Expr :=
    .var { span := place start (start + 1),
           name := ⟨.identifier, word, .nil, 1, place start (start + 1)⟩ }
  .binary (place 0 6) ⟨.plus, utf8 "+", .nil, 1, place offset (offset + 1)⟩
    (name (utf8 "a") 0) (name (utf8 "b") 5)

theorem dump_faithful_sumAt :
    (parseExpression (utf8 "a +  b")).1 = some (sumAt 2) ∧
      (parseExpression (utf8 "a  + b")).1 = some (sumAt 3) ∧
      (sumAt 2).dump = (sumAt 3).dump ∧ (sumAt 2).sketch = (sumAt 3).sketch := by
  have h₂ : (parseExpression (utf8 "a +  b")).1 = some (sumAt 2) := rfl
  have h₃ : (parseExpression (utf8 "a  + b")).1 = some (sumAt 3) := rfl
  have hsketch := dump_faithful (.expression h₂) (.expression h₃) rfl
  exact ⟨h₂, h₃, rfl, Tree.expr.inj hsketch⟩

end Lox
