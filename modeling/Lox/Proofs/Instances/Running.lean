import Lox.Proofs.Instances.Owned

/-!
Whatever is run keeps initializers with their objects.

A method is bound where it is taken from an object, from the superclass or for a new object,
and there is no other way to it.  So a call of an initializer finds at its end, in the scope
that its code captured, the object that was there at its start.
-/

namespace Lox

def Signal.Owned (m : Machine) : Signal → Prop
  | .normal => True
  | .returned v => v.Owned m

theorem Signal.Owned.mono {m m' : Machine} {signal : Signal} (h : m.Grows m')
    (hsignal : signal.Owned m) : signal.Owned m' := by
  cases signal with
  | normal => trivial
  | returned v => exact Value.Owned.mono h hsignal

namespace Machine

open Run (Guarded)

variable {m : Machine}

/-! ## Operators and native functions -/

theorem Settles.guarded {t : Token} {unknown : Prop} {p : Run Value} (h : Settles t unknown p) :
    Guarded m p fun m' v => v.Owned m' := by
  cases h with
  | atom hv => exact .pure (by cases hv <;> trivial)
  | blame => exact .raise _ _

theorem applyNative_guarded (f : Native) (vs : List Value) (paren : Token) :
    Guarded m (applyNative f vs paren) fun m' v => v.Owned m' := by
  obtain ⟨clock, ⟨l, hdone⟩ | ⟨text, hfault⟩⟩ := applyNative_cases f vs paren m
  · refine .aside (by rw [hdone]; exact ⟨rfl, rfl⟩) fun v m' hrun => ?_
    cases hdone.symm.trans hrun
    cases l <;> trivial
  · refine .aside (by rw [hfault]; exact ⟨rfl, rfl⟩) fun v m' hrun => ?_
    cases hfault.symm.trans hrun

/-! ## Methods -/

theorem bindThis_guarded {method : Closure} {id : Nat} {c : ClassObject}
    (hnamed : method.declaration.Named) (hobject : (Value.object id c).Owned m) :
    Guarded m (bindThis method (.object id c)) fun m' code => code.Owned m' := by
  unfold bindThis
  refine (Guarded.newScope method.scope (.single _ hobject)).bind fun scope m₁ _ hscope => ?_
  exact .pure ⟨hnamed, fun _ => ⟨id, c, hscope _ (by simp [Bindings.get?_cons])⟩⟩

theorem functionOf_guarded {code : Closure} (hcode : code.Owned m) :
    Guarded m (functionOf code) fun m' v => v.Owned m' := by
  unfold functionOf
  exact Guarded.newIdentity.bind fun _ _ h₁ _ => .pure (hcode.mono h₁)

theorem methodFrom_guarded {id : Nat} {own c : ClassObject} (name : Token)
    (hobject : (Value.object id own).Owned m) (hc : c.Named) :
    Guarded m (methodFrom c (.object id own) name) fun m' v => v.Owned m' := by
  unfold methodFrom
  cases hmethod : c.method? name.lexeme with
  | some method =>
      have hnamed : method.declaration.Named := hc _ _ hmethod
      exact (bindThis_guarded hnamed hobject).bind fun _ _ _ => functionOf_guarded
  | none => exact .raise _ _

theorem getProperty_guarded {id : Nat} {c : ClassObject} (name : Token)
    (hobject : (Value.object id c).Owned m) :
    Guarded m (getProperty id c name) fun m' v => v.Owned m' := by
  unfold getProperty
  refine (Guarded.field? id name.lexeme).bind fun found m₁ h₁ hfound => ?_
  cases found with
  | some v => exact .pure (hfound v rfl)
  | none => exact methodFrom_guarded name (Value.Owned.mono h₁ hobject) hobject.2

theorem getSuper_guarded (r : Reference) (method : Token) :
    Guarded m (getSuper r method) fun m' v => v.Owned m' := by
  unfold getSuper
  cases r.hops with
  | none => exact .raise _ _
  | some hops =>
      refine Guarded.currentScope.bind fun scope m₁ _ _ => ?_
      refine (Guarded.bindingAt scope hops _).bind fun parent m₂ _ hparent => ?_
      refine (Guarded.bindingAt scope (hops - 1) _).bind fun receiver m₃ h₃ hreceiver => ?_
      split
      next c id own => exact methodFrom_guarded method hreceiver hparent
      next => exact .raise _ _

/-! ## Declarations -/

theorem declareClass_guarded {name : Token} (hname : name.Nameable)
    {parent : Option ClassObject} {methods : List FunctionDecl}
    (hparent : ∀ c ∈ parent, c.Named) (hmethods : ∀ f ∈ methods, f.Named) :
    Guarded m (declareClass name parent methods) fun _ _ => True := by
  have finish {m : Machine} (scope : Nat) :
      Guarded m (do
        let id ← newIdentity
        assign name.lexeme (.classObject (.mk id name.lexeme parent (methodsIn scope methods))))
        fun _ _ => True := by
    refine Guarded.newIdentity.bind fun id m₁ _ _ => .assign hname ?_
    exact classObject_carries (methodsIn_carries scope hmethods) hparent
  unfold declareClass
  refine (Guarded.define hname (v := .nil) trivial).bind fun _ m₁ _ _ => ?_
  refine Guarded.currentScope.bind fun outer m₂ _ _ => ?_
  cases parent with
  | none => exact (Guarded.pure (Q := fun _ _ => True) trivial).bind fun scope _ _ _ => finish scope
  | some c =>
      have hsuper : (Value.classObject c).Owned m₂ := hparent c rfl
      exact (Guarded.newScope outer (.single _ hsuper)).bind fun scope _ _ _ => finish scope

/-! ## Trees and calls -/

-- The induction is on fuel: a call leads to a body that is no part of the tree at hand.
mutual

theorem eval_guarded {m : Machine} (n : Nat) (e : Expr) (h : e.Named) :
    Guarded m (eval n e) fun m' v => v.Owned m' := by
  match n with
  | 0 => exact .stop _
  | n + 1 =>
      cases e with
      | absent => exact .stop _
      | literal span value => exact .pure (by cases value <;> trivial)
      | grouping span inner =>
          simp only [Expr.Named, Expr.relabel, Expr.WellFormed] at h
          exact eval_guarded n inner h
      | unary span operator operand =>
          simp only [Expr.Named, Expr.relabel, Expr.WellFormed] at h
          exact (eval_guarded n operand h).bind fun v _ _ _ =>
            (applyUnary_settles operator v).guarded
      | binary span operator left right =>
          simp only [Expr.Named, Expr.relabel, Expr.WellFormed] at h
          refine (eval_guarded n left h.1).bind fun v _ _ _ => ?_
          exact (eval_guarded n right h.2).bind fun w _ _ _ =>
            (applyBinary_settles operator v w).guarded
      | logical span operator left right =>
          simp only [Expr.Named, Expr.relabel, Expr.WellFormed] at h
          refine (eval_guarded n left h.1).bind fun v _ _ hv => ?_
          exact .ite (fun _ => .pure hv) fun _ => eval_guarded n right h.2
      | var r | thisRef r => exact .read r
      | assign target value =>
          simp only [Expr.Named, Expr.relabel, Expr.WellFormed] at h
          obtain ⟨-, hname, hvalue⟩ := h
          refine (eval_guarded n value hvalue).bind fun v _ _ hv => ?_
          exact (Guarded.write (r := target) hname hv).bind fun _ _ h₂ _ => .pure (hv.mono h₂)
      | call span callee paren arguments =>
          simp only [Expr.Named, Expr.relabel, Expr.WellFormed] at h
          refine (eval_guarded n callee h.1).bind fun f _ _ hf => ?_
          refine (evalList_guarded n arguments h.2).bind fun vs _ h₂ hvs => ?_
          exact callValue_guarded n (hf.mono h₂) hvs
      | get span object name =>
          simp only [Expr.Named, Expr.relabel, Expr.WellFormed] at h
          refine (eval_guarded n object h).bind fun v _ _ hv => ?_
          cases v with
          | object id c => exact getProperty_guarded name hv
          | _ => exact .raise _ _
      | set span object name value =>
          simp only [Expr.Named, Expr.relabel, Expr.WellFormed] at h
          refine (eval_guarded n object h.1).bind fun v _ _ _ => ?_
          cases v with
          | object id c =>
              refine (eval_guarded n value h.2).bind fun w _ _ hw => ?_
              exact (Guarded.setField id _ hw).bind fun _ _ h₃ _ => .pure (hw.mono h₃)
          | _ => exact .raise _ _
      | superRef r method => exact getSuper_guarded r method
termination_by structural n

theorem evalList_guarded {m : Machine} (n : Nat) (es : List Expr) (h : Expr.NamedList es) :
    Guarded m (evalList n es) fun m' vs => ∀ v ∈ vs, v.Owned m' := by
  match n with
  | 0 => exact .stop _
  | n + 1 =>
      cases es with
      | nil => exact .pure (by simp)
      | cons e rest =>
          simp only [Expr.NamedList, Expr.relabelList, Expr.WellFormedList] at h
          refine (eval_guarded n e h.1).bind fun v _ _ hv => ?_
          refine (evalList_guarded n rest h.2).bind fun vs _ h₂ hvs => ?_
          exact .pure (List.forall_mem_cons.mpr ⟨hv.mono h₂, hvs⟩)
termination_by structural n

theorem callValue_guarded {m : Machine} (n : Nat) {f : Value} {vs : List Value} {paren : Token}
    (hf : f.Owned m) (hvs : ∀ v ∈ vs, v.Owned m) :
    Guarded m (callValue n f vs paren) fun m' v => v.Owned m' := by
  match n with
  | 0 => exact .stop _
  | n + 1 =>
      cases f with
      | native f => exact .ite (fun _ => .raise _ _) fun _ => applyNative_guarded f vs paren
      | function id code =>
          refine .ite (fun _ => .raise _ _) fun _ => ?_
          exact (callClosure_guarded n hf hvs).imp fun _ _ hv => hv.1
      | classObject c =>
          refine .ite (fun _ => .raise _ _) fun _ => ?_
          refine (Guarded.newObject hf).bind fun object m₁ h₁ hobject => ?_
          obtain ⟨rfl, hobject⟩ := hobject
          cases hinit : c.initializer? with
          | none => exact .pure hobject
          | some method =>
              refine (bindThis_guarded (hf _ _ hinit) hobject).bind fun code m₂ h₂ hcode => ?_
              have hvs₂ := Value.owned_list_mono (h₁.trans h₂) hvs
              refine (callClosure_guarded n hcode hvs₂).bind fun _ m₃ h₃ _ => ?_
              exact .pure (Value.Owned.mono (h₂.trans h₃) hobject)
      | _ => exact .raise _ _
termination_by structural n

theorem callClosure_guarded {m : Machine} (n : Nat) {code : Closure} {vs : List Value}
    {paren : Token} (hcode : code.Owned m) (hvs : ∀ v ∈ vs, v.Owned m) :
    Guarded m (callClosure n code vs paren) fun m' v =>
      v.Owned m' ∧ (code.isInitializer = true → code.BoundTo m' v) := by
  match n with
  | 0 => exact .stop _
  | n + 1 =>
      refine Guarded.isFull.bind fun full m₁ h₁ _ => ?_
      refine .ite (fun _ => .raise _ _) fun _ => .deeper ?_ fun _ _ v hsame hv =>
        ⟨hv.1.mono (.alike hsame), fun hinit => (hv.2 hinit).mono (.alike hsame)⟩
      have hdeeper : m.Grows { m₁ with depth := m₁.depth + 1 } := h₁.trans (.alike ⟨rfl, rfl⟩)
      refine (Guarded.bindParameters code.declaration.parameters
        (Value.owned_list_mono hdeeper hvs)).bind fun bindings m₂ h₂ hbound => ?_
      refine (Guarded.newScope code.scope hbound).bind fun scope m₃ h₃ _ => ?_
      have hbody := execList_guarded (m := { m₃ with current := scope }) n
        code.declaration.body hcode.named.body
      refine (Guarded.inScope hbody fun _ _ _ hsame hs => hs.mono (.alike hsame)).bind
        fun signal m₄ h₄ hsignal => ?_
      have hcode₄ : code.Owned m₄ := hcode.mono (hdeeper.trans (h₂.trans (h₃.trans h₄)))
      refine .ite (fun hinit => ?_) fun hno => ?_
      · obtain ⟨id, c, hthis⟩ := hcode₄.bound hinit
        refine .look (bindingAt_looks _ _ _) fun hm v hv => ⟨hm.bindingAt hv, fun _ => ?_⟩
        rw [Objects.bindingAt_of_binds hthis] at hv
        cases hv
        exact hthis
      · cases signal with
        | returned v => exact .pure ⟨hsignal, fun hinit => absurd hinit hno⟩
        | normal => exact .pure ⟨trivial, fun hinit => absurd hinit hno⟩
termination_by structural n

theorem exec_guarded {m : Machine} (n : Nat) (s : Stmt) (h : s.Named) :
    Guarded m (exec n s) fun m' signal => signal.Owned m' := by
  match n with
  | 0 => exact .stop _
  | n + 1 =>
      cases s with
      | expression span e =>
          simp only [Stmt.Named, Stmt.relabel, Stmt.WellFormed] at h
          exact (eval_guarded n e h).bind fun _ _ _ _ => .pure trivial
      | print span e =>
          simp only [Stmt.Named, Stmt.relabel, Stmt.WellFormed] at h
          refine (eval_guarded n e h).bind fun v _ _ _ => ?_
          exact (Guarded.printLine _).bind fun _ _ _ _ => .pure trivial
      | var span name initial =>
          simp only [Stmt.Named, Stmt.relabel, Stmt.WellFormed] at h
          cases initial with
          | none =>
              exact (Guarded.define h.1 (v := .nil) trivial).bind fun _ _ _ _ => .pure trivial
          | some e =>
              refine (eval_guarded n e (h.2 _ rfl)).bind fun v _ _ hv => ?_
              exact (Guarded.define h.1 hv).bind fun _ _ _ _ => .pure trivial
      | block span body =>
          simp only [Stmt.Named, Stmt.relabel, Stmt.WellFormed] at h
          refine Guarded.currentScope.bind fun outer _ _ _ => ?_
          refine (Guarded.newScope outer .nil).bind fun scope _ _ _ => ?_
          exact .inScope (execList_guarded n body h) fun _ _ _ hsame hs => hs.mono (.alike hsame)
      | branch span condition onTrue onFalse =>
          cases onFalse with
          | none =>
              simp only [Stmt.Named, Stmt.relabel, Stmt.WellFormed] at h
              refine (eval_guarded n condition h.1).bind fun v _ _ _ => ?_
              exact .ite (fun _ => exec_guarded n onTrue h.2.1) fun _ => .pure trivial
          | some onFalse =>
              simp only [Stmt.Named, Stmt.relabel, Stmt.WellFormed] at h
              refine (eval_guarded n condition h.1).bind fun v _ _ _ => ?_
              exact .ite (fun _ => exec_guarded n onTrue h.2.1)
                fun _ => exec_guarded n onFalse h.2.2.2.1
      | loop span condition body =>
          simp only [Stmt.Named, Stmt.relabel, Stmt.WellFormed] at h
          exact execLoop_guarded n condition body h.1 h.2.1
      | function f =>
          simp only [Stmt.Named, Stmt.relabel, Stmt.WellFormed] at h
          rw [FunctionDecl.relabel_name] at h
          refine Guarded.currentScope.bind fun scope m₁ _ _ => ?_
          have hcode : Closure.Owned m₁ { declaration := f, scope } :=
            ⟨h.2, fun hinit => absurd hinit Bool.false_ne_true⟩
          refine (functionOf_guarded hcode).bind fun v _ _ hv => ?_
          exact (Guarded.define h.1 hv).bind fun _ _ _ _ => .pure trivial
      | ret span keyword value =>
          simp only [Stmt.Named, Stmt.relabel, Stmt.WellFormed] at h
          cases value with
          | none => exact .pure trivial
          | some e => exact (eval_guarded n e (h _ rfl)).bind fun v _ _ hv => .pure hv
      | classDecl span name superclass methods =>
          simp only [Stmt.Named, Stmt.relabel, Stmt.WellFormed] at h
          have hmethods := FunctionDecl.named_of_mem h.2.2
          cases superclass with
          | none =>
              exact (declareClass_guarded h.1 (by simp) hmethods).bind
                fun _ _ _ _ => .pure trivial
          | some r =>
              refine (Guarded.read r).bind fun v _ _ hv => ?_
              cases v with
              | classObject c =>
                  have hparent : ∀ d ∈ some c, d.Named := by
                    rintro d ⟨⟩
                    exact hv
                  exact (declareClass_guarded h.1 hparent hmethods).bind
                    fun _ _ _ _ => .pure trivial
              | _ => exact .raise _ _
termination_by structural n

theorem execList_guarded {m : Machine} (n : Nat) (body : List Stmt) (h : Stmt.NamedList body) :
    Guarded m (execList n body) fun m' signal => signal.Owned m' := by
  match n with
  | 0 => exact .stop _
  | n + 1 =>
      cases body with
      | nil => exact .pure trivial
      | cons s rest =>
          simp only [Stmt.NamedList, Stmt.relabelList, Stmt.WellFormedList] at h
          refine (exec_guarded n s h.1).bind fun signal _ _ hsignal => ?_
          cases signal with
          | returned v => exact .pure hsignal
          | normal => exact execList_guarded n rest h.2
termination_by structural n

theorem execLoop_guarded {m : Machine} (n : Nat) (condition : Expr) (body : Stmt)
    (hcondition : condition.Named) (hbody : body.Named) :
    Guarded m (execLoop n condition body) fun m' signal => signal.Owned m' := by
  match n with
  | 0 => exact .stop _
  | n + 1 =>
      refine (eval_guarded n condition hcondition).bind fun v _ _ _ => ?_
      refine .ite (fun _ => ?_) fun _ => .pure trivial
      refine (exec_guarded n body hbody).bind fun signal _ _ hsignal => ?_
      cases signal with
      | returned v => exact .pure hsignal
      | normal => exact execLoop_guarded n condition body hcondition hbody
termination_by structural n

end

theorem execProgram_guarded {m : Machine} (n : Nat) (program : List Stmt)
    (h : Stmt.NamedList program) : Guarded m (execProgram n program) fun _ _ => True := by
  induction program generalizing m with
  | nil => exact .pure trivial
  | cons s rest ih =>
      simp only [Stmt.NamedList, Stmt.relabelList, Stmt.WellFormedList] at h
      exact (exec_guarded n s h.1).bind fun _ _ _ _ => ih h.2

end Machine

end Lox
