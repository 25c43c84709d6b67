import Lox.Proofs.Course.Globals
import Lox.Proofs.Instances.Running

/-!
The points of a run.

A point is a part of a run at its start: what is to be evaluated or executed, on which machine,
and the values that those who wait for it still have in hand.  From a point the run enters the
next ones as the evaluation goes on, also where the part as a whole fails or does not end.  The
points that are reached are those entered from the start of a program or of an expression, on a
machine as earlier runs have left it.
-/

namespace Lox.Instances

open Machine (eval evalList callValue callClosure exec execList execLoop execProgram newScope
  newObject bindThis isFull bindParameters)

inductive Task where
  | eval (n : Nat) (e : Expr)
  | evalList (n : Nat) (es : List Expr)
  | call (n : Nat) (f : Value) (arguments : List Value) (paren : Token)
  /-- The body of a function, method or initializer. -/
  | body (n : Nat) (code : Closure) (arguments : List Value) (paren : Token)
  | exec (n : Nat) (s : Stmt)
  | execList (n : Nat) (body : List Stmt)
  | loop (n : Nat) (condition : Expr) (body : Stmt)
  | program (n : Nat) (program : List Stmt)

structure Point where
  task : Task
  machine : Machine
  hand : List Value

def Task.values : Task → List Value
  | .call _ f arguments _ => f :: arguments
  | .body _ _ arguments _ => arguments
  | _ => []

/-- The value is in a scope, in a field, in hand, or in the call that is to be made. -/
def Point.Has (p : Point) (v : Value) : Prop :=
  p.machine.Holds v ∨ v ∈ p.hand ∨ v ∈ p.task.values

/--
The run of a task on a machine goes on to the run of a task that is part of it.  The list has
the values that are kept in hand meanwhile.
-/
inductive Goes : Task → Machine → List Value → Task → Machine → Prop
  | grouping : Goes (.eval (n + 1) (.grouping span e)) m [] (.eval n e) m
  | operand : Goes (.eval (n + 1) (.unary span operator e)) m [] (.eval n e) m
  | left : Goes (.eval (n + 1) (.binary span operator left right)) m [] (.eval n left) m
  | right (h : eval n left m = .done v m₁) :
      Goes (.eval (n + 1) (.binary span operator left right)) m [v] (.eval n right) m₁
  | decider : Goes (.eval (n + 1) (.logical span operator left right)) m [] (.eval n left) m
  | undecided (h : eval n left m = .done v m₁) (hopen : Machine.decides operator v = false) :
      Goes (.eval (n + 1) (.logical span operator left right)) m [] (.eval n right) m₁
  | assigned : Goes (.eval (n + 1) (.assign target e)) m [] (.eval n e) m
  | callee : Goes (.eval (n + 1) (.call span callee paren arguments)) m [] (.eval n callee) m
  | arguments (h : eval n callee m = .done f m₁) :
      Goes (.eval (n + 1) (.call span callee paren arguments)) m [f] (.evalList n arguments) m₁
  | call (hcallee : eval n callee m = .done f m₁)
      (harguments : evalList n arguments m₁ = .done vs m₂) :
      Goes (.eval (n + 1) (.call span callee paren arguments)) m [] (.call n f vs paren) m₂
  | owner : Goes (.eval (n + 1) (.get span object name)) m [] (.eval n object) m
  | receiver : Goes (.eval (n + 1) (.set span object name value)) m [] (.eval n object) m
  | stored (h : eval n object m = .done (.object i c) m₁) :
      Goes (.eval (n + 1) (.set span object name value)) m [.object i c] (.eval n value) m₁
  | first : Goes (.evalList (n + 1) (e :: rest)) m [] (.eval n e) m
  | others (h : eval n e m = .done v m₁) :
      Goes (.evalList (n + 1) (e :: rest)) m [v] (.evalList n rest) m₁
  | function (harity : vs.length = code.arity) :
      Goes (.call (n + 1) (.function i code) vs paren) m [.function i code]
        (.body n code vs paren) m
  | construction (harity : vs.length = c.arity) (hinit : c.initializer? = some method)
      (hobject : newObject c m = .done object m₁)
      (hcode : bindThis method object m₁ = .done code m₂) :
      Goes (.call (n + 1) (.classObject c) vs paren) m [object, .classObject c]
        (.body n code vs paren) m₂
  | activation (hroom : isFull m = .done false m)
      (hbind : bindParameters [] code.declaration.parameters vs
        { m with depth := m.depth + 1 } = .done bindings m₁)
      (hscope : newScope code.scope bindings m₁ = .done scope m₂) :
      Goes (.body (n + 1) code vs paren) m vs
        (.execList n code.declaration.body) { m₂ with current := scope }
  | expression : Goes (.exec (n + 1) (.expression span e)) m [] (.eval n e) m
  | print : Goes (.exec (n + 1) (.print span e)) m [] (.eval n e) m
  | initial : Goes (.exec (n + 1) (.var span name (some e))) m [] (.eval n e) m
  | block (h : newScope m.current [] m = .done scope m₁) :
      Goes (.exec (n + 1) (.block span body)) m [] (.execList n body)
        { m₁ with current := scope }
  | condition :
      Goes (.exec (n + 1) (.branch span condition onTrue onFalse)) m [] (.eval n condition) m
  | onTrue (h : eval n condition m = .done v m₁) (htrue : v.isTruthy = true) :
      Goes (.exec (n + 1) (.branch span condition onTrue onFalse)) m [] (.exec n onTrue) m₁
  | onFalse (h : eval n condition m = .done v m₁) (hfalse : v.isTruthy = false) :
      Goes (.exec (n + 1) (.branch span condition onTrue (some s))) m [] (.exec n s) m₁
  | loop : Goes (.exec (n + 1) (.loop span condition s)) m [] (.loop n condition s) m
  | returned : Goes (.exec (n + 1) (.ret span keyword (some e))) m [] (.eval n e) m
  | statement : Goes (.execList (n + 1) (s :: body)) m [] (.exec n s) m
  | statements (h : exec n s m = .done .normal m₁) :
      Goes (.execList (n + 1) (s :: body)) m [] (.execList n body) m₁
  | test : Goes (.loop (n + 1) condition s) m [] (.eval n condition) m
  | round (h : eval n condition m = .done v m₁) (htrue : v.isTruthy = true) :
      Goes (.loop (n + 1) condition s) m [] (.exec n s) m₁
  | rounds (h : eval n condition m = .done v m₁) (htrue : v.isTruthy = true)
      (hround : exec n s m₁ = .done .normal m₂) :
      Goes (.loop (n + 1) condition s) m [] (.loop n condition s) m₂
  | declaration : Goes (.program n (s :: program)) m [] (.exec n s) m
  | declarations (h : exec n s m = .done signal m₁) :
      Goes (.program n (s :: program)) m [] (.program n program) m₁

/-! ## Reached points -/

/-- The program is read from a source.  Its references may have any distances: none, those of
a resolution, or others. -/
def IsProgram (program : List Stmt) : Prop :=
  ∃ source, Stmt.relabelList .unresolve program = (parse source).1

def IsExpression (e : Expr) : Prop :=
  ∃ source, (parseExpression source).1 = some (e.relabel .unresolve)

/-- A machine that is new, or as earlier runs have left it, also those that failed. -/
inductive Idle : Machine → Prop
  | start (natives : List Native) (limit : Nat) (clock : List Int) :
      Idle (.start natives limit clock)
  | program {m : Machine} {program : List Stmt} (h : Idle m) (hprogram : IsProgram program)
      (n : Nat) : Idle (execProgram n program m).machine
  | expression {m : Machine} {e : Expr} (h : Idle m) (he : IsExpression e) (n : Nat) :
      Idle (eval n e m).machine
  | output {m : Machine} (h : Idle m) : Idle m.takeOutput.2

inductive Reached : Point → Prop
  | program {m : Machine} {program : List Stmt} (h : Idle m) (hprogram : IsProgram program)
      (n : Nat) : Reached ⟨.program n program, m, []⟩
  | expression {m : Machine} {e : Expr} (h : Idle m) (he : IsExpression e) (n : Nat) :
      Reached ⟨.eval n e, m, []⟩
  | goes {t t' : Task} {m m' : Machine} {hand kept : List Value} (h : Reached ⟨t, m, hand⟩)
      (hgoes : Goes t m kept t' m') : Reached ⟨t', m', kept ++ hand⟩

/-! ### Programs and sessions -/

theorem isProgram_parse (source : Bytes) : IsProgram (parse source).1 :=
  ⟨source, Stmt.relabelList_unresolve _ (parse_wellFormed source)⟩

theorem isProgram_resolved (s : Resolution.State) (source : Bytes) :
    IsProgram (Resolution.resolveFrom s (parse source).1).1.program :=
  ⟨source, (Resolution.stmts_unresolve _ (parse source).1).trans
    (Stmt.relabelList_unresolve _ (parse_wellFormed source))⟩

theorem isProgram_checked (s : Resolution.State) (source : Bytes) :
    IsProgram (checkFrom s source).1.program := by
  unfold checkFrom
  dsimp only
  split
  · exact isProgram_parse source
  · exact isProgram_resolved s source

theorem isExpression_parse {source : Bytes} {e : Expr} (h : (parseExpression source).1 = some e) :
    IsExpression e :=
  ⟨source, by rw [h, Expr.relabel_unresolve e (parseExpression_wellFormed source e h)]⟩

theorem Idle.run {s : Session} (h : Idle s.machine) (source : Bytes) :
    Idle (s.run source).2.machine := by
  have hrun := h.program (isProgram_checked s.resolution source) Machine.ample
  unfold Session.run
  dsimp only
  split
  · exact h
  · unfold Machine.interpret
    cases hp : execProgram Machine.ample (checkFrom s.resolution source).1.program s.machine <;>
      rw [hp] at hrun <;> exact hrun

theorem Idle.evaluate {s : Session} (h : Idle s.machine) (source : Bytes) :
    Idle (s.evaluate source).2.2.machine := by
  unfold Session.evaluate
  dsimp only
  split
  · exact h
  next hread =>
    obtain ⟨e, he⟩ := exists_parseExpression_eq (Bool.eq_false_iff.mpr hread)
    have hrun := h.expression (isExpression_parse he) Machine.ample
    rw [he]
    unfold Machine.evaluate
    cases hv : eval Machine.ample e s.machine <;> simp only [Option.getD_some, hv] <;>
      rw [hv] at hrun <;> exact hrun

/-- Every session leaves its machine so. -/
theorem idle_after {s : Session} (h : Idle s.machine) (steps : List Session.Step) :
    Idle (s.after steps).machine := by
  induction steps generalizing s with
  | nil => exact h
  | cons step rest ih =>
      refine ih ?_
      cases step with
      | run source => exact (h.run source).output
      | evaluate source => exact (h.evaluate source).output
      | globals => exact h.output

/-! ## What holds at every point -/

def Task.Owned (m : Machine) : Task → Prop
  | .eval _ e => e.Named
  | .evalList _ es => Expr.NamedList es
  | .call _ f arguments _ => f.Owned m ∧ ∀ v ∈ arguments, v.Owned m
  | .body _ code arguments _ => code.Owned m ∧ ∀ v ∈ arguments, v.Owned m
  | .exec _ s => s.Named
  | .execList _ statements | .program _ statements => Stmt.NamedList statements
  | .loop _ condition s => condition.Named ∧ s.Named

structure Point.Owned (p : Point) : Prop where
  task : p.task.Owned p.machine
  machine : p.machine.Owned
  hand : ∀ v ∈ p.hand, v.Owned p.machine

section

variable {m m' : Machine}

theorem eval_done {n : Nat} {e : Expr} {v : Value} (he : e.Named) (hm : m.Owned)
    (hrun : eval n e m = .done v m') : m.Grows m' ∧ m'.Owned ∧ v.Owned m' :=
  (Machine.eval_guarded n e he).done hm hrun

theorem exec_done {n : Nat} {s : Stmt} {signal : Signal} (hs : s.Named) (hm : m.Owned)
    (hrun : exec n s m = .done signal m') : m.Grows m' ∧ m'.Owned := by
  obtain ⟨hgrows, hm', -⟩ := (Machine.exec_guarded n s hs).done hm hrun
  exact ⟨hgrows, hm'⟩

theorem entered (hgrows : m.Grows m') (hm' : m'.Owned) (i : Nat) :
    m.Grows { m' with current := i } ∧ ({ m' with current := i } : Machine).Owned :=
  ⟨hgrows.trans (.alike ⟨rfl, rfl⟩), hm'.alike ⟨rfl, rfl⟩⟩

/-- From point to point nothing is lost. -/
theorem Goes.owned {t t' : Task} {kept : List Value} (h : Goes t m kept t' m')
    (ht : t.Owned m) (hm : m.Owned) :
    m.Grows m' ∧ m'.Owned ∧ t'.Owned m' ∧ ∀ v ∈ kept, v.Owned m' := by
  have stays {t : Task} (ht : t.Owned m) :
      m.Grows m ∧ m.Owned ∧ t.Owned m ∧ ∀ v ∈ ([] : List Value), v.Owned m :=
    ⟨.refl m, hm, ht, by simp⟩
  cases h with
  | grouping | operand | owner =>
      simp only [Task.Owned, Expr.Named, Expr.relabel, Expr.WellFormed] at ht
      exact stays ht
  | assigned =>
      simp only [Task.Owned, Expr.Named, Expr.relabel, Expr.WellFormed] at ht
      exact stays ht.2.2
  | callee | left | decider | receiver =>
      simp only [Task.Owned, Expr.Named, Expr.relabel, Expr.WellFormed] at ht
      exact stays ht.1
  | right h =>
      simp only [Task.Owned, Expr.Named, Expr.relabel, Expr.WellFormed] at ht
      obtain ⟨hgrows, hm', hv⟩ := eval_done ht.1 hm h
      exact ⟨hgrows, hm', ht.2, List.forall_mem_singleton.mpr hv⟩
  | undecided h hopen =>
      simp only [Task.Owned, Expr.Named, Expr.relabel, Expr.WellFormed] at ht
      obtain ⟨hgrows, hm', -⟩ := eval_done ht.1 hm h
      exact ⟨hgrows, hm', ht.2, by simp⟩
  | arguments h =>
      simp only [Task.Owned, Expr.Named, Expr.relabel, Expr.WellFormed] at ht
      obtain ⟨hgrows, hm', hf⟩ := eval_done ht.1 hm h
      exact ⟨hgrows, hm', ht.2, List.forall_mem_singleton.mpr hf⟩
  | call hcallee harguments =>
      simp only [Task.Owned, Expr.Named, Expr.relabel, Expr.WellFormed] at ht
      obtain ⟨hgrows, hm₁, hf⟩ := eval_done ht.1 hm hcallee
      obtain ⟨hgrows', hm', hvs⟩ := (Machine.evalList_guarded _ _ ht.2).done hm₁ harguments
      exact ⟨hgrows.trans hgrows', hm', ⟨hf.mono hgrows', hvs⟩, by simp⟩
  | stored h =>
      simp only [Task.Owned, Expr.Named, Expr.relabel, Expr.WellFormed] at ht
      obtain ⟨hgrows, hm', hobject⟩ := eval_done ht.1 hm h
      exact ⟨hgrows, hm', ht.2, List.forall_mem_singleton.mpr hobject⟩
  | first =>
      simp only [Task.Owned, Expr.NamedList, Expr.relabelList, Expr.WellFormedList] at ht
      exact stays ht.1
  | others h =>
      simp only [Task.Owned, Expr.NamedList, Expr.relabelList, Expr.WellFormedList] at ht
      obtain ⟨hgrows, hm', hv⟩ := eval_done ht.1 hm h
      exact ⟨hgrows, hm', ht.2, List.forall_mem_singleton.mpr hv⟩
  | function harity =>
      obtain ⟨hcode, hvs⟩ := ht
      exact ⟨.refl m, hm, ⟨hcode, hvs⟩, List.forall_mem_singleton.mpr hcode⟩
  | construction harity hinit hobject hcode =>
      obtain ⟨hc, hvs⟩ := ht
      obtain ⟨hgrows, hm₁, rfl, hobject⟩ := (Run.Guarded.newObject hc).done hm hobject
      obtain ⟨hgrows', hm', hcode⟩ :=
        (Machine.bindThis_guarded (hc _ _ hinit) hobject).done hm₁ hcode
      have hlater := hgrows.trans hgrows'
      refine ⟨hlater, hm', ⟨hcode, Value.owned_list_mono hlater hvs⟩, ?_⟩
      exact List.forall_mem_cons.mpr ⟨Value.Owned.mono hgrows' hobject,
        List.forall_mem_singleton.mpr hc⟩
  | activation hroom hbind hscope =>
      obtain ⟨hcode, hvs⟩ := ht
      have hdeeper : m.Alike { m with depth := m.depth + 1 } := ⟨rfl, rfl⟩
      have hvs' := Value.owned_list_mono (.alike hdeeper) hvs
      obtain ⟨hgrows, hm₁, hbound⟩ :=
        (Run.Guarded.bindParameters _ hvs').done (hm.alike hdeeper) hbind
      obtain ⟨hgrows', hm₂, -⟩ := (Run.Guarded.newScope _ hbound).done hm₁ hscope
      obtain ⟨hlater, hm'⟩ :=
        entered ((Machine.Grows.alike hdeeper).trans (hgrows.trans hgrows')) hm₂ _
      exact ⟨hlater, hm', hcode.named.body, Value.owned_list_mono hlater hvs⟩
  | expression | print =>
      simp only [Task.Owned, Stmt.Named, Stmt.relabel, Stmt.WellFormed] at ht
      exact stays ht
  | initial =>
      simp only [Task.Owned, Stmt.Named, Stmt.relabel, Stmt.WellFormed] at ht
      exact stays (ht.2 _ rfl)
  | block h =>
      simp only [Task.Owned, Stmt.Named, Stmt.relabel, Stmt.WellFormed] at ht
      obtain ⟨hgrows, hm₁, -⟩ := (Run.Guarded.newScope m.current .nil).done hm h
      obtain ⟨hlater, hm'⟩ := entered hgrows hm₁ _
      exact ⟨hlater, hm', ht, by simp⟩
  | @condition _ _ _ _ onFalse =>
      cases onFalse <;> simp only [Task.Owned, Stmt.Named, Stmt.relabel, Stmt.WellFormed] at ht <;>
        exact stays ht.1
  | @onTrue _ _ _ _ _ _ _ onFalse h htrue =>
      cases onFalse <;> simp only [Task.Owned, Stmt.Named, Stmt.relabel, Stmt.WellFormed] at ht <;>
        obtain ⟨hgrows, hm', -⟩ := eval_done ht.1 hm h <;>
        exact ⟨hgrows, hm', ht.2.1, by simp⟩
  | onFalse h hfalse =>
      simp only [Task.Owned, Stmt.Named, Stmt.relabel, Stmt.WellFormed] at ht
      obtain ⟨hgrows, hm', -⟩ := eval_done ht.1 hm h
      exact ⟨hgrows, hm', ht.2.2.2.1, by simp⟩
  | loop =>
      simp only [Task.Owned, Stmt.Named, Stmt.relabel, Stmt.WellFormed] at ht
      exact stays ⟨ht.1, ht.2.1⟩
  | returned =>
      simp only [Task.Owned, Stmt.Named, Stmt.relabel, Stmt.WellFormed] at ht
      exact stays (ht _ rfl)
  | statement | declaration =>
      simp only [Task.Owned, Stmt.NamedList, Stmt.relabelList, Stmt.WellFormedList] at ht
      exact stays ht.1
  | statements h | declarations h =>
      simp only [Task.Owned, Stmt.NamedList, Stmt.relabelList, Stmt.WellFormedList] at ht
      obtain ⟨hgrows, hm'⟩ := exec_done ht.1 hm h
      exact ⟨hgrows, hm', ht.2, by simp⟩
  | test => exact stays ht.1
  | round h htrue =>
      obtain ⟨hgrows, hm', -⟩ := eval_done ht.1 hm h
      exact ⟨hgrows, hm', ht.2, by simp⟩
  | rounds h htrue hround =>
      obtain ⟨hgrows, hm₁, -⟩ := eval_done ht.1 hm h
      obtain ⟨hgrows', hm'⟩ := exec_done ht.2 hm₁ hround
      exact ⟨hgrows.trans hgrows', hm', ht, by simp⟩

end

theorem IsProgram.named {program : List Stmt} (h : IsProgram program) :
    Stmt.NamedList program := by
  obtain ⟨source, hsource⟩ := h
  unfold Stmt.NamedList
  rw [hsource]
  exact parse_wellFormed source

theorem IsExpression.named {e : Expr} (h : IsExpression e) : e.Named := by
  obtain ⟨source, hsource⟩ := h
  exact parseExpression_wellFormed source _ hsource

theorem Idle.owned {m : Machine} (h : Idle m) : m.Owned := by
  induction h with
  | start natives limit clock =>
      intro v hv
      obtain ⟨f, rfl⟩ := Machine.holds_start hv
      trivial
  | program h hprogram n ih => exact (Machine.execProgram_guarded n _ hprogram.named ih).2.1
  | expression h he n ih => exact (Machine.eval_guarded n _ he.named ih).2.1
  | output h ih => exact ih.alike ⟨rfl, rfl⟩

theorem Reached.owned {p : Point} (h : Reached p) : p.Owned := by
  induction h with
  | program h hprogram n => exact ⟨hprogram.named, h.owned, by simp⟩
  | expression h he n => exact ⟨he.named, h.owned, by simp⟩
  | goes h hgoes ih =>
      obtain ⟨hgrows, hmachine, htask, hkept⟩ := hgoes.owned ih.task ih.machine
      refine ⟨htask, hmachine, fun v hv => ?_⟩
      rcases List.mem_append.mp hv with hv | hv
      · exact hkept v hv
      · exact (ih.hand v hv).mono hgrows

theorem Point.Owned.has {p : Point} (h : p.Owned) {v : Value} (hv : p.Has v) :
    v.Owned p.machine := by
  rcases hv with hv | hv | hv
  · exact h.machine v hv
  · exact h.hand v hv
  · have htask := h.task
    unfold Task.values at hv
    split at hv
    next heq =>
      rw [heq] at htask
      exact (List.forall_mem_cons.mpr htask) v hv
    next heq =>
      rw [heq] at htask
      exact htask.2 v hv
    next => cases hv

end Lox.Instances
