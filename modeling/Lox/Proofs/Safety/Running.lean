import Lox.Proofs.Safety.Invariant

/-!
A tree that fits the scopes around it runs safely.

The scopes around a body are those of its declaration: one for a call, one more for the
`this` of a method and one more for the `super` of a subclass.  So every distance in the
body leads to a scope that is there, whoever calls it.
-/

namespace Lox

def Signal.Sound (T : Token → Prop) (s : Scopes) : Signal → Prop
  | .normal => True
  | .returned v => v.Sound T s

namespace Machine

open Run

variable {T : Token → Prop}

/-! ## Operators, native functions and methods -/

theorem Settles.safe {m : Machine} {t : Token} {unknown : Prop} {p : Run Value}
    (h : Settles t unknown p) (ht : T t) (hknown : ¬unknown) :
    Safe T m p fun s v => v.Sound T s := by
  cases h with
  | atom hv => exact .pure (by cases hv <;> trivial)
  | blame _ hunknown => exact .raise ht (mt hunknown hknown)

theorem applyNative_safe {m : Machine} (f : Native) (vs : List Value) {paren : Token}
    (ht : T paren) : Safe T m (applyNative f vs paren) fun s v => v.Sound T s := by
  intro hm
  obtain ⟨clock, ⟨l, hdone⟩ | ⟨text, hfault⟩⟩ := applyNative_cases f vs paren m
  · rw [hdone]
    exact ⟨⟨hm.scopes, hm.fields⟩, ⟨.refl _, rfl⟩, by cases l <;> trivial⟩
  · rw [hfault]
    exact ⟨ht, id⟩

theorem bindThis_safe {m : Machine} {method : Closure} {receiver : Value}
    (hmethod : method.Sound T m.scopes 1) (hreceiver : receiver.Sound T m.scopes) :
    Safe T m (bindThis method receiver) fun s code =>
      code.Sound T s 0 ∧ code.arity = method.arity := by
  obtain ⟨k, hk, hfit⟩ := hmethod
  unfold bindThis
  refine (Safe.newScope hk (.single _ hreceiver)).bind fun scope m₁ _ hscope => ?_
  exact .pure ⟨⟨k + 1, hscope, hfit⟩, rfl⟩

theorem functionOf_safe {m : Machine} {code : Closure} (h : code.Sound T m.scopes 0) :
    Safe T m (functionOf code) fun s v => v.Sound T s := by
  unfold functionOf
  exact Safe.newIdentity.bind fun _ _ h₁ _ => .pure (h.mono h₁.scopes)

theorem bindThis_functionOf_safe {m : Machine} {method : Closure} {receiver : Value}
    (hmethod : method.Sound T m.scopes 1) (hreceiver : receiver.Sound T m.scopes) :
    Safe T m (bindThis method receiver >>= functionOf) fun s v => v.Sound T s :=
  (bindThis_safe hmethod hreceiver).bind fun _ _ _ hcode => functionOf_safe hcode.1

theorem getProperty_safe {m : Machine} (id : Nat) {c : ClassObject} {name : Token}
    (hc : c.Sound T m.scopes) (ht : T name) :
    Safe T m (getProperty id c name) fun s v => v.Sound T s := by
  unfold getProperty
  refine (Safe.field? id name.lexeme).bind fun found m₁ h₁ hfound => ?_
  cases found with
  | some v => exact .pure (hfound v rfl)
  | none =>
      have hc₁ := hc.mono h₁.scopes
      cases hmethod : c.method? name.lexeme with
      | some method => exact bindThis_functionOf_safe (hc₁ _ _ hmethod) hc₁
      | none => exact .raise ht nofun

theorem getSuper_safe {m : Machine} {r : Reference} {method : Token} {k : Nat}
    (hr : r.Fit T k) (hk : m.scopes.Reaches m.current k) (ht : T method) :
    Safe T m (getSuper r method) fun s v => v.Sound T s := by
  unfold getSuper
  cases hhops : r.hops with
  | none => exact .raise hr.1 nofun
  | some hops =>
      have hle : hops ≤ k := Nat.le_of_lt (hr.2 hops hhops)
      refine (Safe.currentScope hk).bind fun scope m₁ _ hscope => ?_
      refine (Safe.bindingAt _ (hscope.of_le hle)).bind fun parent m₂ h₂ hparent => ?_
      -- `this` stands one scope further in, where there is one
      have hinner := (h₂.scopes.reaches hscope).of_le (Nat.le_trans (Nat.sub_le hops 1) hle)
      refine (Safe.bindingAt _ hinner).bind fun receiver m₃ h₃ hreceiver => ?_
      cases parent with
      | classObject c =>
          have hc : c.Sound T m₃.scopes := ClassObject.Sound.mono h₃.scopes hparent
          cases receiver with
          | object id own =>
              cases hmethod : c.method? method.lexeme with
              | some code =>
                  simp only [hmethod]
                  exact bindThis_functionOf_safe (hc _ _ hmethod) hreceiver
              | none =>
                  simp only [hmethod]
                  exact .raise ht nofun
          | _ => exact .raise hr.1 nofun
      | _ => exact .raise hr.1 nofun

/-! ## Declarations -/

theorem methodsIn_sound {s : Scopes} {scope k : Nat} {methods : List FunctionDecl}
    (hk : s.Reaches scope k) (h : FunctionDecl.FitList T (k + 1) methods) :
    (methodsIn scope methods).All (Closure.Sound T s 1) := by
  let closureOf (f : FunctionDecl) : Closure :=
    { declaration := f, scope, isInitializer := f.name.lexeme == utf8 "init" }
  refine Bindings.All.nil.foldl_set (fun f : FunctionDecl => f.name.lexeme) closureOf ?_
  intro f hf
  exact ⟨k, hk, FunctionDecl.fit_of_mem h f hf⟩

theorem classObject_sound {s : Scopes} {id : Nat} {name : Bytes} {parent : Option ClassObject}
    {methods : Bindings Closure} (hmethods : methods.All (Closure.Sound T s 1))
    (hparent : ∀ c ∈ parent, c.Sound T s) : (ClassObject.mk id name parent methods).Sound T s :=
  ClassObject.forall_method hmethods hparent

theorem declareClass_safe {m : Machine} {k : Nat} (name : Token) {parent : Option ClassObject}
    {methods : List FunctionDecl} (hk : m.scopes.Reaches m.current k)
    (hparent : ∀ c ∈ parent, c.Sound T m.scopes)
    (hmethods : FunctionDecl.FitList T (if parent.isSome then k + 2 else k + 1) methods) :
    Safe T m (declareClass name parent methods) fun _ _ => True := by
  have finish {m : Machine} {scope j : Nat} (hj : m.scopes.Reaches scope j)
      (hparent : ∀ c ∈ parent, c.Sound T m.scopes)
      (hmethods : FunctionDecl.FitList T (j + 1) methods) :
      Safe T m (do
        let id ← newIdentity
        assign name.lexeme (.classObject (.mk id name.lexeme parent (methodsIn scope methods))))
        fun _ _ => True := by
    refine Safe.newIdentity.bind fun id m₁ h₁ _ => .assign _ ?_
    apply classObject_sound (methodsIn_sound (h₁.scopes.reaches hj) hmethods)
    exact fun c hc => (hparent c hc).mono h₁.scopes
  unfold declareClass
  refine (Safe.define _ (v := .nil) trivial).bind fun _ m₁ h₁ _ => ?_
  refine (Safe.currentScope (h₁.reaches hk)).bind fun outer m₂ h₂ houter => ?_
  have hparent₂ : ∀ c ∈ parent, c.Sound T m₂.scopes :=
    fun c hc => (hparent c hc).mono (h₁.trans h₂).scopes
  cases parent with
  | none =>
      exact (Safe.pure (Q := fun s scope => s.Reaches scope k) houter).bind
        fun scope m₃ h₃ hscope => finish hscope nofun hmethods
  | some c =>
      have hsuper : Value.Sound T m₂.scopes (.classObject c) := hparent₂ c rfl
      refine (Safe.newScope houter (.single _ hsuper)).bind fun scope m₃ h₃ hscope => ?_
      exact finish hscope (fun c hc => (hparent₂ c hc).mono h₃.scopes) hmethods

/-! ## Trees and calls -/

-- The induction is on fuel: a call leads to a body that is no part of the tree at hand.
mutual

theorem eval_safe {m : Machine} {k : Nat} (n : Nat) (e : Expr) (h : e.Fit T k)
    (hk : m.scopes.Reaches m.current k) :
    Safe T m (eval n e) fun s v => v.Sound T s := by
  match n with
  | 0 => exact .outOfFuel
  | n + 1 =>
      cases e with
      | absent =>
          rw [Expr.Fit] at h
          exact h.elim
      | literal span value => exact .pure (by cases value <;> trivial)
      | grouping span inner =>
          rw [Expr.Fit] at h
          exact eval_safe n inner h hk
      | unary span operator operand =>
          rw [Expr.Fit] at h
          obtain ⟨ht, hknown, hoperand⟩ := h
          exact (eval_safe n operand hoperand hk).bind fun v m₁ _ _ =>
            (applyUnary_settles operator v).safe ht (ne_false_of_eq_true hknown)
      | binary span operator left right =>
          rw [Expr.Fit] at h
          obtain ⟨ht, hknown, hleft, hright⟩ := h
          refine (eval_safe n left hleft hk).bind fun v m₁ h₁ _ => ?_
          refine (eval_safe n right hright (h₁.reaches hk)).bind fun w m₂ _ _ => ?_
          exact (applyBinary_settles operator v w).safe ht (ne_false_of_eq_true hknown)
      | logical span operator left right =>
          rw [Expr.Fit] at h
          refine (eval_safe n left h.1 hk).bind fun v m₁ h₁ hv => ?_
          exact .ite (fun _ => .pure hv) fun _ => eval_safe n right h.2 (h₁.reaches hk)
      | var r | thisRef r =>
          rw [Expr.Fit] at h
          exact .read h hk
      | assign target value =>
          rw [Expr.Fit] at h
          refine (eval_safe n value h.2 hk).bind fun v m₁ h₁ hv => ?_
          refine (Safe.write h.1 (h₁.reaches hk) hv).bind fun _ m₂ h₂ _ => ?_
          exact .pure (hv.mono h₂.scopes)
      | call span callee paren arguments =>
          rw [Expr.Fit] at h
          obtain ⟨hcallee, ht, harguments⟩ := h
          refine (eval_safe n callee hcallee hk).bind fun f m₁ h₁ hf => ?_
          refine (evalList_safe n arguments harguments (h₁.reaches hk)).bind
            fun vs m₂ h₂ hvs => ?_
          exact callValue_safe n (hf.mono h₂.scopes) hvs ht
      | get span object name =>
          rw [Expr.Fit] at h
          refine (eval_safe n object h.1 hk).bind fun v m₁ _ hv => ?_
          cases v with
          | object id c => exact getProperty_safe id hv h.2
          | _ => exact .raise h.2 nofun
      | set span object name value =>
          rw [Expr.Fit] at h
          obtain ⟨hobject, ht, hvalue⟩ := h
          refine (eval_safe n object hobject hk).bind fun v m₁ h₁ _ => ?_
          cases v with
          | object id c =>
              refine (eval_safe n value hvalue (h₁.reaches hk)).bind fun w m₂ _ hw => ?_
              refine (Safe.setField id name.lexeme hw).bind fun _ m₃ h₃ _ => ?_
              exact .pure (hw.mono h₃.scopes)
          | _ => exact .raise ht nofun
      | superRef r method =>
          rw [Expr.Fit] at h
          exact getSuper_safe h.1 hk h.2
termination_by structural n

theorem evalList_safe {m : Machine} {k : Nat} (n : Nat) (es : List Expr)
    (h : Expr.FitList T k es) (hk : m.scopes.Reaches m.current k) :
    Safe T m (evalList n es) fun s vs => ∀ v ∈ vs, v.Sound T s := by
  match n with
  | 0 => exact .outOfFuel
  | n + 1 =>
      cases es with
      | nil => exact .pure (by simp)
      | cons e rest =>
          rw [Expr.FitList] at h
          refine (eval_safe n e h.1 hk).bind fun v m₁ h₁ hv => ?_
          refine (evalList_safe n rest h.2 (h₁.reaches hk)).bind fun vs m₂ h₂ hvs => ?_
          exact .pure (List.forall_mem_cons.mpr ⟨hv.mono h₂.scopes, hvs⟩)
termination_by structural n

theorem callValue_safe {m : Machine} (n : Nat) {f : Value} {vs : List Value} {paren : Token}
    (hf : f.Sound T m.scopes) (hvs : ∀ v ∈ vs, v.Sound T m.scopes) (ht : T paren) :
    Safe T m (callValue n f vs paren) fun s v => v.Sound T s := by
  match n with
  | 0 => exact .outOfFuel
  | n + 1 =>
      cases f with
      | native f => exact .ite (fun _ => .raise ht nofun) fun _ => applyNative_safe f vs ht
      | function id code =>
          exact .ite (fun _ => .raise ht nofun) fun harity =>
            callClosure_safe n hf hvs (not_not.mp harity) ht
      | classObject c =>
          refine .ite (fun _ => .raise ht nofun) fun harity => ?_
          refine (Safe.newObject hf).bind fun object m₁ h₁ hobject => ?_
          cases hinit : c.initializer? with
          | none => exact .pure hobject
          | some method =>
              have hmethod : method.Sound T m₁.scopes 1 := (hf _ _ hinit).mono h₁.scopes
              refine (bindThis_safe hmethod hobject).bind fun code m₂ h₂ ⟨hcode, harity'⟩ => ?_
              have hvs₂ := fun v hv => (hvs v hv).mono (h₁.trans h₂).scopes
              have hlength : vs.length = code.arity := by
                simpa [ClassObject.arity, hinit, harity'] using harity
              refine (callClosure_safe n hcode hvs₂ hlength ht).bind fun _ m₃ h₃ _ => ?_
              exact .pure (hobject.mono (h₂.trans h₃).scopes)
      | _ => exact .raise ht nofun
termination_by structural n

theorem callClosure_safe {m : Machine} (n : Nat) {code : Closure} {vs : List Value}
    {paren : Token} (hcode : code.Sound T m.scopes 0) (hvs : ∀ v ∈ vs, v.Sound T m.scopes)
    (hlength : vs.length = code.arity) (ht : T paren) :
    Safe T m (callClosure n code vs paren) fun s v => v.Sound T s := by
  match n with
  | 0 => exact .outOfFuel
  | n + 1 =>
      obtain ⟨k, hk, hfit⟩ := hcode
      rw [FunctionDecl.fit_iff] at hfit
      refine Safe.isFull.bind fun full m₁ h₁ _ => ?_
      refine .ite (fun _ => .raise ht nofun) fun _ => .deeper ?_
      -- the scopes around the body are those of its declaration, not those of the caller
      have hk₁ := h₁.scopes.reaches hk
      obtain ⟨bindings, hbind, hbound⟩ := bindParameters_all (Nat.le_of_eq hlength.symm)
        fun v hv => (hvs v hv).mono h₁.scopes
      rw [hbind, Run.pure_bind]
      let m' : Machine := { m₁ with depth := m₁.depth + 1 }
      refine (Safe.newScope (m := m') hk₁ hbound).bind fun scope m₂ h₂ hscope => ?_
      refine (Safe.inScope (execList_safe n code.declaration.body hfit hscope)).bind
        fun signal m₃ h₃ hsignal => ?_
      -- an initializer gives what its scope binds to `this`
      have hk₃ := (h₂.trans h₃).scopes.reaches hk₁
      refine .ite (fun _ => .bindingAt _ (hk₃.of_le (Nat.zero_le k))) fun _ => ?_
      cases signal with
      | returned v => exact .pure hsignal
      | normal => exact .pure trivial
termination_by structural n

theorem exec_safe {m : Machine} {k : Nat} (n : Nat) (s : Stmt) (h : s.Fit T k)
    (hk : m.scopes.Reaches m.current k) : Safe T m (exec n s) (Signal.Sound T) := by
  match n with
  | 0 => exact .outOfFuel
  | n + 1 =>
      cases s with
      | expression span e =>
          rw [Stmt.Fit] at h
          exact (eval_safe n e h hk).bind fun _ _ _ _ => .pure trivial
      | print span e =>
          rw [Stmt.Fit] at h
          refine (eval_safe n e h hk).bind fun v m₁ _ _ => ?_
          exact (Safe.printLine _).bind fun _ _ _ _ => .pure trivial
      | var span name initial =>
          rw [Stmt.Fit] at h
          cases initial with
          | none => exact (Safe.define _ (v := .nil) trivial).bind fun _ _ _ _ => .pure trivial
          | some e =>
              refine (eval_safe n e (h e rfl) hk).bind fun v m₁ _ hv => ?_
              exact (Safe.define _ hv).bind fun _ _ _ _ => .pure trivial
      | block span body =>
          rw [Stmt.Fit] at h
          refine (Safe.currentScope hk).bind fun outer m₁ _ houter => ?_
          refine (Safe.newScope houter .nil).bind fun scope m₂ _ hscope => ?_
          exact .inScope (execList_safe n body h hscope)
      | branch span condition onTrue onFalse =>
          cases onFalse with
          | none =>
              rw [Stmt.Fit] at h
              refine (eval_safe n condition h.1 hk).bind fun v m₁ h₁ _ => ?_
              exact .ite (fun _ => exec_safe n onTrue h.2 (h₁.reaches hk))
                fun _ => .pure trivial
          | some onFalse =>
              rw [Stmt.Fit] at h
              refine (eval_safe n condition h.1 hk).bind fun v m₁ h₁ _ => ?_
              exact .ite (fun _ => exec_safe n onTrue h.2.1 (h₁.reaches hk))
                fun _ => exec_safe n onFalse h.2.2 (h₁.reaches hk)
      | loop span condition body =>
          rw [Stmt.Fit] at h
          exact execLoop_safe n condition body h.1 h.2 hk
      | function f =>
          rw [Stmt.Fit] at h
          refine (Safe.currentScope hk).bind fun scope m₁ _ hscope => ?_
          refine (functionOf_safe ⟨k, hscope, h⟩).bind fun v m₂ _ hv => ?_
          exact (Safe.define _ hv).bind fun _ _ _ _ => .pure trivial
      | ret span keyword value =>
          rw [Stmt.Fit] at h
          cases value with
          | none => exact .pure trivial
          | some e => exact (eval_safe n e (h e rfl) hk).bind fun v m₁ _ hv => .pure hv
      | classDecl span name parent methods =>
          cases parent with
          | none =>
              rw [Stmt.Fit] at h
              exact (declareClass_safe name hk (by simp) h).bind fun _ _ _ _ => .pure trivial
          | some parent =>
              rw [Stmt.Fit] at h
              refine (Safe.read h.1 hk).bind fun v m₁ h₁ hv => ?_
              cases v with
              | classObject c =>
                  have hparent : ∀ d ∈ some c, d.Sound T m₁.scopes := by
                    rintro d ⟨⟩
                    exact hv
                  exact (declareClass_safe name (h₁.reaches hk) hparent h.2).bind
                    fun _ _ _ _ => .pure trivial
              | _ => exact .raise h.1.1 nofun
termination_by structural n

theorem execList_safe {m : Machine} {k : Nat} (n : Nat) (body : List Stmt)
    (h : Stmt.FitList T k body) (hk : m.scopes.Reaches m.current k) :
    Safe T m (execList n body) (Signal.Sound T) := by
  match n with
  | 0 => exact .outOfFuel
  | n + 1 =>
      cases body with
      | nil => exact .pure trivial
      | cons s rest =>
          rw [Stmt.FitList] at h
          refine (exec_safe n s h.1 hk).bind fun signal m₁ h₁ hsignal => ?_
          cases signal with
          | returned v => exact .pure hsignal
          | normal => exact execList_safe n rest h.2 (h₁.reaches hk)
termination_by structural n

theorem execLoop_safe {m : Machine} {k : Nat} (n : Nat) (condition : Expr) (body : Stmt)
    (hcondition : condition.Fit T k) (hbody : body.Fit T k)
    (hk : m.scopes.Reaches m.current k) :
    Safe T m (execLoop n condition body) (Signal.Sound T) := by
  match n with
  | 0 => exact .outOfFuel
  | n + 1 =>
      refine (eval_safe n condition hcondition hk).bind fun v m₁ h₁ _ => ?_
      refine .ite (fun _ => ?_) fun _ => .pure trivial
      have hk₁ := h₁.reaches hk
      refine (exec_safe n body hbody hk₁).bind fun signal m₂ h₂ hsignal => ?_
      cases signal with
      | returned v => exact .pure hsignal
      | normal => exact execLoop_safe n condition body hcondition hbody (h₂.reaches hk₁)
termination_by structural n

end

theorem execProgram_safe {m : Machine} {k : Nat} (n : Nat) (program : List Stmt)
    (h : Stmt.FitList T k program) (hk : m.scopes.Reaches m.current k) :
    Safe T m (execProgram n program) fun _ _ => True := by
  induction program generalizing m with
  | nil => exact .pure trivial
  | cons s rest ih =>
      rw [Stmt.FitList] at h
      exact (exec_safe n s h.1 hk).bind fun _ m₁ h₁ _ => ih h.2 (h₁.reaches hk)

/-! ## The beginning -/

theorem start_sound (natives : List Native) (limit : Nat) (clock : List Int) :
    (start natives limit clock).Sound T := by
  constructor
  · intro id scope hscope
    obtain rfl : scope = { bindings := natives.map fun f => (f.name, .native f) } := by
      simpa [start] using (Array.mem_of_getElem? hscope)
    apply Bindings.All.of_forall_mem
    intro entry hentry
    obtain ⟨f, -, rfl⟩ := List.mem_map.mp hentry
    trivial
  · intro id bindings hbindings
    cases hbindings

theorem start_reaches (natives : List Native) (limit : Nat) (clock : List Int) :
    (start natives limit clock).scopes.Reaches (start natives limit clock).current 0 :=
  Scopes.reaches_zero.mpr Nat.zero_lt_one

end Machine

end Lox
