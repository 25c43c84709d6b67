import Lox.Proofs.Course.Tracked

/-!
Every move of an evaluation is fair.

The bodies of blocks and functions run inside scopes of their own, so they declare nothing
global, whatever is called from where.  Outside of all blocks and functions only the
statements of the program itself are run, and a branch or a loop among them declares
nothing.
-/

namespace Lox

/-- The statement can stand outside all scopes and declares only what may be global. -/
def Stmt.Permitted (N : Bytes → Prop) (s : Stmt) : Prop :=
  s.Scoped [] ∧ ∀ t ∈ s.declared?, N t.lexeme

theorem Stmt.Permitted.of_silent {N : Bytes → Prop} {s : Stmt} (h : s.Scoped [])
    (hnone : s.declared? = none) : s.Permitted N :=
  ⟨h, by simp [hnone]⟩

def Run.Looks (p : Run α) : Prop := ∀ m, (p m).machine = m

namespace Machine

open Run

theorem bindingAt_looks (id hops : Nat) (name : Bytes) : Looks (bindingAt id hops name) := by
  intro m
  unfold bindingAt
  split <;> rfl

theorem read_looks (r : Reference) : Looks (read r) := by
  intro m
  unfold read
  split
  · exact bindingAt_looks _ _ _ m
  · split <;> rfl

theorem Settles.looks {t : Token} {unknown : Prop} {p : Run Value} (h : Settles t unknown p) :
    Looks p := by
  cases h with
  | atom => exact fun _ => rfl
  | blame => exact fun _ => rfl

end Machine

namespace Course

open Machine (Alike Orderly)
open Recorded (Place Traced bindThis functionOf methodFrom getProperty getSuper newObject
  declareClass eval evalList callValue callClosure exec execList execLoop execProgram)
open Run (Safe)

variable {N : Bytes → Prop}

/-! ## Native functions and methods -/

theorem applyNative_tracked {m : Machine} (f : Native) (vs : List Value) (paren : Token) :
    Tracked N m (Traced.move .other (Machine.applyNative f vs paren))
      (Machine.applyNative f vs paren) := by
  refine .move fun hm => .alike hm ?_
  obtain ⟨clock, ⟨l, hdone⟩ | ⟨text, hfault⟩⟩ := Machine.applyNative_cases f vs paren m
  · rw [hdone]
    exact ⟨rfl, rfl⟩
  · rw [hfault]
    exact ⟨rfl, rfl⟩

theorem bindThis_tracked {m : Machine} {method : Closure} {receiver : Value}
    (hmethod : method.Sound Token.Any m.scopes 1) (hreceiver : receiver.Sound Token.Any m.scopes) :
    Tracked N m (bindThis method receiver) (Machine.bindThis method receiver) := by
  obtain ⟨k, hk, hfit⟩ := hmethod
  have hthis : Bindings.All (Value.Sound Token.Any m.scopes) [(utf8 "this", receiver)] :=
    .single _ hreceiver
  unfold bindThis Machine.bindThis
  exact (Tracked.newScope hk hthis).bind (Safe.newScope hk hthis) fun _ _ _ _ => .pure _

theorem functionOf_tracked {m : Machine} (code : Closure) (home : Option Home) :
    Tracked N m (functionOf code home) (Machine.functionOf code) := by
  unfold functionOf Machine.functionOf
  exact Tracked.newIdentity.bind Safe.newIdentity fun _ _ _ _ => .noting (.pure _)

theorem methodFrom_tracked {m : Machine} {c : ClassObject} {receiver : Value} (name : Token)
    (hc : c.Sound Token.Any m.scopes) (hreceiver : receiver.Sound Token.Any m.scopes) :
    Tracked N m (methodFrom c receiver name) (Machine.methodFrom c receiver name) := by
  unfold methodFrom Machine.methodFrom
  cases hmethod : c.method? name.lexeme with
  | some method =>
      have hsound := hc _ _ hmethod
      exact (bindThis_tracked hsound hreceiver).bind (Machine.bindThis_safe hsound hreceiver)
        fun code _ _ _ => functionOf_tracked code _
  | none => exact .raise _ _

theorem getProperty_tracked {m : Machine} (id : Nat) {c : ClassObject} (name : Token)
    (hc : c.Sound Token.Any m.scopes) :
    Tracked N m (getProperty id c name) (Machine.getProperty id c name) := by
  unfold getProperty Machine.getProperty
  refine (Tracked.look rfl).bind (Safe.field? id name.lexeme) fun found m₁ h₁ _ => ?_
  cases found with
  | some v => exact .pure v
  | none => exact methodFrom_tracked name (hc.mono h₁.scopes) (hc.mono h₁.scopes)

theorem getSuper_tracked {m : Machine} {r : Reference} (method : Token) {k : Nat}
    (hr : r.Fit Token.Any k) (hk : m.scopes.Reaches m.current k) :
    Tracked N m (getSuper r method) (Machine.getSuper r method) := by
  unfold getSuper Machine.getSuper
  cases hhops : r.hops with
  | none => exact .raise _ _
  | some hops =>
      have hle : hops ≤ k := Nat.le_of_lt (hr.2 hops hhops)
      refine (Tracked.look rfl).bind (Safe.currentScope hk) fun scope m₁ _ hscope => ?_
      refine (Tracked.look (Machine.bindingAt_looks _ _ _ _)).bind
        (Safe.bindingAt _ (hscope.of_le hle)) fun parent m₂ h₂ hparent => ?_
      have hinner := (h₂.scopes.reaches hscope).of_le (Nat.le_trans (Nat.sub_le hops 1) hle)
      refine (Tracked.look (Machine.bindingAt_looks _ _ _ _)).bind (Safe.bindingAt _ hinner)
        fun receiver m₃ h₃ hreceiver => ?_
      cases parent with
      | classObject c =>
          have hc : c.Sound Token.Any m₃.scopes := ClassObject.Sound.mono h₃.scopes hparent
          cases receiver with
          | object id own => exact methodFrom_tracked method hc hreceiver
          | _ => exact .raise _ _
      | _ => exact .raise _ _

theorem newObject_tracked {m : Machine} {c : ClassObject} (hc : c.Sound Token.Any m.scopes) :
    Tracked N m (newObject c) (Machine.newObject c) := by
  have hp : Machine.newObject c = (Machine.newObject c >>= fun v => pure v) := rfl
  rw [hp]
  refine (Tracked.newObject hc).bind (Safe.newObject hc) fun v _ _ _ => ?_
  cases v with
  | object id own => exact .noting (.pure _)
  | _ => exact .pure _

/-! ## Declarations -/

theorem declareClass_tracked {m : Machine} {k : Nat} {name : Token} {parent : Option ClassObject}
    (before : Machine) (superclass : Option Reference) {methods : List FunctionDecl}
    (hk : m.scopes.Reaches m.current k) (hname : k = 0 → N name.lexeme)
    (hparent : ∀ c ∈ parent, c.Sound Token.Any m.scopes)
    (hmethods : FunctionDecl.FitList Token.Any (if parent.isSome then k + 2 else k + 1) methods) :
    Tracked N m (declareClass before name superclass parent methods)
      (Machine.declareClass name parent methods) := by
  have finish {m : Machine} {scope j : Nat} (hj : m.scopes.Reaches scope j)
      (hparent : ∀ c ∈ parent, c.Sound Token.Any m.scopes)
      (hmethods : FunctionDecl.FitList Token.Any (j + 1) methods) :
      Tracked N m (do
        let id ← Traced.move .other Machine.newIdentity
        let c := .mk id name.lexeme parent (Machine.methodsIn scope methods)
        Traced.noting (.declared before name superclass methods scope c)
          (Traced.move (.declares name.lexeme) (Machine.assign name.lexeme (.classObject c))))
        (do
        let id ← Machine.newIdentity
        Machine.assign name.lexeme
          (.classObject (.mk id name.lexeme parent (Machine.methodsIn scope methods)))) := by
    refine Tracked.newIdentity.bind Safe.newIdentity fun id m₁ h₁ _ => .noting (.assign ?_)
    apply Machine.classObject_sound (Machine.methodsIn_sound (h₁.scopes.reaches hj) hmethods)
    exact fun c hc => (hparent c hc).mono h₁.scopes
  unfold declareClass Machine.declareClass
  refine (Tracked.define (v := .nil) hk hname trivial).bind (Safe.define _ trivial)
    fun _ m₁ h₁ _ => ?_
  refine (Tracked.look rfl).bind (Safe.currentScope (h₁.reaches hk)) fun outer m₂ h₂ houter => ?_
  have hparent₂ : ∀ c ∈ parent, c.Sound Token.Any m₂.scopes :=
    fun c hc => (hparent c hc).mono (h₁.trans h₂).scopes
  cases parent with
  | none =>
      exact (Tracked.pure _).bind (Safe.pure (Q := fun s scope => s.Reaches scope k) houter)
        fun scope m₃ h₃ hscope => finish hscope nofun hmethods
  | some c =>
      have hsuper : Bindings.All (Value.Sound Token.Any m₂.scopes)
          [(utf8 "super", .classObject c)] := .single _ (hparent₂ c rfl)
      refine (Tracked.newScope houter hsuper).bind (Safe.newScope houter hsuper)
        fun scope m₃ h₃ hscope => ?_
      exact finish hscope (fun c hc => (hparent₂ c hc).mono h₃.scopes) hmethods

/-! ## Trees and calls -/

-- As for safety the induction is on fuel, and what safety says of the first part of a run
-- says where the second part starts.
mutual

theorem eval_tracked {m : Machine} {k : Nat} (n : Nat) (place : Place) (e : Expr)
    (h : e.Fit Token.Any k) (hk : m.scopes.Reaches m.current k) :
    Tracked N m (eval n place e) (Machine.eval n e) := by
  match n with
  | 0 => exact .stop _
  | n + 1 =>
      cases e with
      | absent => exact .stop _
      | literal span value => exact .pure _
      | grouping span inner =>
          rw [Expr.Fit] at h
          exact eval_tracked n place inner h hk
      | unary span operator operand =>
          rw [Expr.Fit] at h
          exact (eval_tracked n place operand h.2.2 hk).bind (Machine.eval_safe n operand h.2.2 hk)
            fun v m₁ _ _ => .look ((Machine.applyUnary_settles operator v).looks m₁)
      | binary span operator left right =>
          rw [Expr.Fit] at h
          obtain ⟨-, -, hleft, hright⟩ := h
          refine (eval_tracked n place left hleft hk).bind (Machine.eval_safe n left hleft hk)
            fun v m₁ h₁ _ => ?_
          have hk₁ := h₁.reaches hk
          exact (eval_tracked n place right hright hk₁).bind (Machine.eval_safe n right hright hk₁)
            fun w m₂ _ _ => .look ((Machine.applyBinary_settles operator v w).looks m₂)
      | logical span operator left right =>
          rw [Expr.Fit] at h
          refine (eval_tracked n place left h.1 hk).bind (Machine.eval_safe n left h.1 hk)
            fun v m₁ h₁ _ => ?_
          exact .ite (fun _ => .pure _) fun _ => eval_tracked n place right h.2 (h₁.reaches hk)
      | var r | thisRef r => exact .noting (.look (Machine.read_looks r m))
      | assign target value =>
          rw [Expr.Fit] at h
          refine (eval_tracked n place value h.2 hk).bind (Machine.eval_safe n value h.2 hk)
            fun v m₁ h₁ hv => ?_
          have hk₁ := h₁.reaches hk
          exact (Tracked.noting (Tracked.write h.1 hk₁ hv)).bind (Safe.write h.1 hk₁ hv)
            fun _ _ _ _ => .pure _
      | call span callee paren arguments =>
          rw [Expr.Fit] at h
          obtain ⟨hcallee, -, harguments⟩ := h
          refine (eval_tracked n place callee hcallee hk).bind
            (Machine.eval_safe n callee hcallee hk) fun f m₁ h₁ hf => ?_
          have hk₁ := h₁.reaches hk
          refine (evalList_tracked n place arguments harguments hk₁).bind
            (Machine.evalList_safe n arguments harguments hk₁) fun vs m₂ h₂ hvs => ?_
          exact callValue_tracked n paren (hf.mono h₂.scopes) hvs
      | get span object name =>
          rw [Expr.Fit] at h
          refine (eval_tracked n place object h.1 hk).bind (Machine.eval_safe n object h.1 hk)
            fun v m₁ _ hv => ?_
          cases v with
          | object id c => exact getProperty_tracked id name hv
          | _ => exact .raise _ _
      | set span object name value =>
          rw [Expr.Fit] at h
          obtain ⟨hobject, -, hvalue⟩ := h
          refine (eval_tracked n place object hobject hk).bind
            (Machine.eval_safe n object hobject hk) fun v m₁ h₁ _ => ?_
          cases v with
          | object id c =>
              have hk₁ := h₁.reaches hk
              refine (eval_tracked n place value hvalue hk₁).bind
                (Machine.eval_safe n value hvalue hk₁) fun w m₂ _ hw => ?_
              exact (Tracked.setField id name.lexeme hw).bind (Safe.setField id name.lexeme hw)
                fun _ _ _ _ => .pure _
          | _ => exact .raise _ _
      | superRef r method =>
          rw [Expr.Fit] at h
          exact .noting (getSuper_tracked method h.1 hk)
termination_by structural n

theorem evalList_tracked {m : Machine} {k : Nat} (n : Nat) (place : Place) (es : List Expr)
    (h : Expr.FitList Token.Any k es) (hk : m.scopes.Reaches m.current k) :
    Tracked N m (evalList n place es) (Machine.evalList n es) := by
  match n with
  | 0 => exact .stop _
  | n + 1 =>
      cases es with
      | nil => exact .pure _
      | cons e rest =>
          rw [Expr.FitList] at h
          refine (eval_tracked n place e h.1 hk).bind (Machine.eval_safe n e h.1 hk)
            fun v m₁ h₁ _ => ?_
          have hk₁ := h₁.reaches hk
          exact (evalList_tracked n place rest h.2 hk₁).bind (Machine.evalList_safe n rest h.2 hk₁)
            fun vs _ _ _ => .pure _
termination_by structural n

theorem callValue_tracked {m : Machine} (n : Nat) {f : Value} {vs : List Value} (paren : Token)
    (hf : f.Sound Token.Any m.scopes) (hvs : ∀ v ∈ vs, v.Sound Token.Any m.scopes) :
    Tracked N m (callValue n f vs paren) (Machine.callValue n f vs paren) := by
  match n with
  | 0 => exact .stop _
  | n + 1 =>
      cases f with
      | native f =>
          exact .noting (.ite (fun _ => .raise _ _) fun _ => applyNative_tracked f vs paren)
      | function id code =>
          exact .ite (fun _ => .noting (.raise _ _)) fun harity =>
            callClosure_tracked n none (.function id code) paren hf hvs (not_not.mp harity)
      | classObject c =>
          refine .ite (fun _ => .noting (.raise _ _)) fun harity => ?_
          refine (newObject_tracked hf).bind (Safe.newObject hf) fun object m₁ h₁ hobject => ?_
          cases hinit : c.initializer? with
          | none => exact .noting (.pure _)
          | some method =>
              have hmethod : method.Sound Token.Any m₁.scopes 1 := (hf _ _ hinit).mono h₁.scopes
              refine (bindThis_tracked hmethod hobject).bind
                (Machine.bindThis_safe hmethod hobject) fun code m₂ h₂ ⟨hcode, harity'⟩ => ?_
              have hvs₂ := fun v hv => (hvs v hv).mono (h₁.trans h₂).scopes
              have hlength : vs.length = code.arity := by
                simpa [ClassObject.arity, hinit, harity'] using harity
              exact (callClosure_tracked n _ (.classObject c) paren hcode hvs₂ hlength).bind
                (Machine.callClosure_safe n hcode hvs₂ hlength trivial) fun _ _ _ _ => .pure _
      | _ => exact .noting (.raise _ _)
termination_by structural n

theorem callClosure_tracked {m : Machine} (n : Nat) (home : Option Home) (callee : Value)
    {code : Closure} {vs : List Value} (paren : Token) (hcode : code.Sound Token.Any m.scopes 0)
    (hvs : ∀ v ∈ vs, v.Sound Token.Any m.scopes) (hlength : vs.length = code.arity) :
    Tracked N m (callClosure n home callee code vs paren)
      (Machine.callClosure n code vs paren) := by
  match n with
  | 0 => exact .stop _
  | n + 1 =>
      obtain ⟨k, hk, hfit⟩ := hcode
      rw [FunctionDecl.fit_iff] at hfit
      refine (Tracked.look rfl).bind Safe.isFull fun full m₁ h₁ _ => ?_
      refine .ite (fun _ => .noting (.raise _ _)) fun _ => .activation callee vs ?_
      have hk₁ := h₁.scopes.reaches hk
      obtain ⟨bindings, hbind, hbound⟩ := Machine.bindParameters_all
        (Nat.le_of_eq hlength.symm) fun v hv => (hvs v hv).mono h₁.scopes
      rw [hbind, Traced.look_pure_bind, Run.pure_bind]
      let m' : Machine := { m₁ with depth := m₁.depth + 1 }
      refine (Tracked.newScope (m := m') hk₁ hbound).bind (Safe.newScope (m := m') hk₁ hbound)
        fun scope m₂ h₂ hscope => ?_
      refine (Tracked.inScope (execList_tracked n home code.declaration.body hfit hscope)).bind
        (Safe.inScope (Machine.execList_safe n code.declaration.body hfit hscope))
        fun signal m₃ h₃ _ => ?_
      refine .ite (fun _ => .noting (.look (Machine.bindingAt_looks _ _ _ _))) fun _ => ?_
      cases signal <;> exact .pure _
termination_by structural n

theorem exec_tracked {m : Machine} {k : Nat} (n : Nat) (home : Option Home) (s : Stmt)
    (h : s.Fit Token.Any k) (hk : m.scopes.Reaches m.current k)
    (hN : k = 0 → s.Permitted N) : Tracked N m (exec n home s) (Machine.exec n s) := by
  match n with
  | 0 => exact .stop _
  | n + 1 =>
      refine .noting ?_
      cases s with
      | expression span e =>
          rw [Stmt.Fit] at h
          exact (eval_tracked n _ e h hk).bind (Machine.eval_safe n e h hk) fun _ _ _ _ => .pure _
      | print span e =>
          rw [Stmt.Fit] at h
          refine (eval_tracked n _ e h hk).bind (Machine.eval_safe n e h hk) fun v m₁ _ _ => ?_
          exact (Tracked.printLine _).bind (Safe.printLine _) fun _ _ _ _ => .pure _
      | var span name initial =>
          rw [Stmt.Fit] at h
          have hname : k = 0 → N name.lexeme := fun hzero => (hN hzero).2 name rfl
          cases initial with
          | none =>
              exact (Tracked.define (v := .nil) hk hname trivial).bind (Safe.define _ trivial)
                fun _ _ _ _ => .pure _
          | some e =>
              refine (eval_tracked n _ e (h e rfl) hk).bind (Machine.eval_safe n e (h e rfl) hk)
                fun v m₁ h₁ hv => ?_
              exact (Tracked.define (h₁.reaches hk) hname hv).bind (Safe.define _ hv)
                fun _ _ _ _ => .pure _
      | block span body =>
          rw [Stmt.Fit] at h
          refine (Tracked.look rfl).bind (Safe.currentScope hk) fun outer m₁ _ houter => ?_
          refine (Tracked.newScope houter .nil).bind (Safe.newScope houter .nil)
            fun scope m₂ _ hscope => ?_
          exact .inScope (execList_tracked n home body h hscope)
      | branch span condition onTrue onFalse =>
          have hcondition : condition.Fit Token.Any k := by
            cases onFalse <;> simp only [Stmt.Fit] at h <;> exact h.1
          have honTrue : onTrue.Fit Token.Any k := by
            cases onFalse <;> simp only [Stmt.Fit] at h
            · exact h.2
            · exact h.2.1
          have hTrue : k = 0 → onTrue.Permitted N := by
            intro hzero
            have hscoped := (hN hzero).1
            cases onFalse <;> simp only [Stmt.Scoped] at hscoped
            · exact .of_silent hscoped.2.1 hscoped.2.2
            · exact .of_silent hscoped.2.1 hscoped.2.2.1
          refine (eval_tracked n _ condition hcondition hk).bind
            (Machine.eval_safe n condition hcondition hk) fun v m₁ h₁ _ => ?_
          have hk₁ := h₁.reaches hk
          refine .ite (fun _ => exec_tracked n home onTrue honTrue hk₁ hTrue) fun _ => ?_
          cases onFalse with
          | none => exact .pure _
          | some onFalse =>
              simp only [Stmt.Fit] at h
              refine exec_tracked n home onFalse h.2.2 hk₁ fun hzero => ?_
              have hscoped := (hN hzero).1
              simp only [Stmt.Scoped] at hscoped
              exact .of_silent hscoped.2.2.2.1 hscoped.2.2.2.2
      | loop span condition body =>
          rw [Stmt.Fit] at h
          refine execLoop_tracked n home condition body h.1 h.2 hk fun hzero => ?_
          have hscoped := (hN hzero).1
          simp only [Stmt.Scoped] at hscoped
          exact .of_silent hscoped.2.1 hscoped.2.2
      | function f =>
          rw [Stmt.Fit] at h
          refine (Tracked.look rfl).bind (Safe.currentScope hk) fun scope m₁ h₁ hscope => ?_
          refine (functionOf_tracked _ home).bind (Machine.functionOf_safe ⟨k, hscope, h⟩)
            fun v m₂ h₂ hv => ?_
          exact (Tracked.define ((h₁.trans h₂).reaches hk) (fun hzero => (hN hzero).2 f.name rfl)
            hv).bind (Safe.define _ hv) fun _ _ _ _ => .pure _
      | ret span keyword value =>
          rw [Stmt.Fit] at h
          cases value with
          | none => exact .noting (.pure _)
          | some e =>
              exact (eval_tracked n _ e (h e rfl) hk).bind (Machine.eval_safe n e (h e rfl) hk)
                fun _ _ _ _ => .noting (.pure _)
      | classDecl span name parent methods =>
          have hname : k = 0 → N name.lexeme := fun hzero => (hN hzero).2 name rfl
          cases parent with
          | none =>
              rw [Stmt.Fit] at h
              refine .asking ?_
              have hdeclared : Tracked N m (declareClass m name none none methods) _ :=
                declareClass_tracked m none hk hname (by simp) h
              exact hdeclared.bind (Machine.declareClass_safe name hk (by simp) h)
                fun _ _ _ _ => .pure _
          | some parent =>
              rw [Stmt.Fit] at h
              refine .asking ?_
              have hread := Tracked.look (N := N) (Machine.read_looks parent m)
              refine (hread.noting).bind (Safe.read h.1 hk) fun v m₁ h₁ hv => ?_
              cases v with
              | classObject c =>
                  have hk₁ := h₁.reaches hk
                  have hparent : ∀ d ∈ some c, d.Sound Token.Any m₁.scopes := by
                    rintro d ⟨⟩
                    exact hv
                  exact (declareClass_tracked m (some parent) hk₁ hname hparent h.2).bind
                    (Machine.declareClass_safe name hk₁ hparent h.2) fun _ _ _ _ => .pure _
              | _ => exact .raise _ _
termination_by structural n

theorem execList_tracked {m : Machine} {k : Nat} (n : Nat) (home : Option Home)
    (body : List Stmt) (h : Stmt.FitList Token.Any (k + 1) body)
    (hk : m.scopes.Reaches m.current (k + 1)) :
    Tracked N m (execList n home body) (Machine.execList n body) := by
  match n with
  | 0 => exact .stop _
  | n + 1 =>
      cases body with
      | nil => exact .pure _
      | cons s rest =>
          rw [Stmt.FitList] at h
          refine (exec_tracked n home s h.1 hk nofun).bind (Machine.exec_safe n s h.1 hk)
            fun signal m₁ h₁ _ => ?_
          cases signal with
          | returned v => exact .pure _
          | normal => exact execList_tracked n home rest h.2 (h₁.reaches hk)
termination_by structural n

theorem execLoop_tracked {m : Machine} {k : Nat} (n : Nat) (home : Option Home)
    (condition : Expr) (body : Stmt) (hcondition : condition.Fit Token.Any k)
    (hbody : body.Fit Token.Any k) (hk : m.scopes.Reaches m.current k)
    (hN : k = 0 → body.Permitted N) :
    Tracked N m (execLoop n home condition body) (Machine.execLoop n condition body) := by
  match n with
  | 0 => exact .stop _
  | n + 1 =>
      refine (eval_tracked n _ condition hcondition hk).bind
        (Machine.eval_safe n condition hcondition hk) fun v m₁ h₁ _ => ?_
      refine .ite (fun _ => ?_) fun _ => .pure _
      have hk₁ := h₁.reaches hk
      refine (exec_tracked n home body hbody hk₁ hN).bind (Machine.exec_safe n body hbody hk₁)
        fun signal m₂ h₂ _ => ?_
      cases signal with
      | returned v => exact .pure _
      | normal => exact execLoop_tracked n home condition body hcondition hbody (h₂.reaches hk₁) hN
termination_by structural n

end

theorem execProgram_tracked {m : Machine} (n : Nat) (program : List Stmt)
    (h : Stmt.FitList Token.Any 0 program) (hk : m.scopes.Reaches m.current 0)
    (hN : ∀ s ∈ program, s.Permitted N) :
    Tracked N m (execProgram n program) (Machine.execProgram n program) := by
  induction program generalizing m with
  | nil => exact .pure _
  | cons s rest ih =>
      rw [Stmt.FitList] at h
      have hs := hN s List.mem_cons_self
      refine (exec_tracked n none s h.1 hk fun _ => hs).bind (Machine.exec_safe n s h.1 hk)
        fun _ m₁ h₁ _ => ?_
      exact ih h.2 (h₁.reaches hk) fun s hs => hN s (List.mem_cons_of_mem _ hs)

end Course

end Lox
