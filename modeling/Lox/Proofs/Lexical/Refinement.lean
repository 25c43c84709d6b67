import Lox.Proofs.Check
import Lox.Proofs.Lexical.Names
import Lox.Session

/-!
Hop counts find the locations.

A scoped program does with the chain of mutable scopes what the program as it was read
does with locations.  By induction on the fuel, with one lemma for every function of the
evaluator.
-/

namespace Lox.Lexical

open Resolution (Context Declarable Site)

mutual

theorem eval_sim (n : Nat) (e : Expr) {F : Nat → Prop} {i : Nat} {w : World}
    {site : Site} {Γ : Context} {ρ : Env} (henv : EnvRel w site.pending Γ i ρ)
    (he : e.Scoped Γ site) :
    Sim F i w (Machine.eval n e) (eval n ρ (e.relabel .unresolve)) ValueRel := by
  match n with
  | 0 => exact .stop _
  | n + 1 =>
      cases e with
      | absent => exact .stop _
      | literal span value => exact .pure (.ofLiteral w value)
      | grouping span inner =>
          simp only [Expr.Scoped] at he
          exact eval_sim n inner henv he
      | unary span operator operand =>
          simp only [Expr.Scoped] at he
          simp only [Machine.eval, eval, Expr.relabel]
          refine (eval_sim n operand henv he).bind fun w₁ v v' _ hv => ?_
          exact applyUnary_sim operator hv
      | binary span operator left right =>
          simp only [Expr.Scoped] at he
          simp only [Machine.eval, eval, Expr.relabel]
          refine (eval_sim n left henv he.1).bind fun w₁ u u' hw₁ hu => ?_
          refine (eval_sim n right (henv.mono hw₁) he.2).bind fun w₂ v v' hw₂ hv => ?_
          exact applyBinary_sim operator (hu.mono hw₂) hv
      | logical span operator left right =>
          simp only [Expr.Scoped] at he
          simp only [Machine.eval, eval, Expr.relabel]
          refine (eval_sim n left henv he.1).bind fun w₁ v v' hw₁ hv => ?_
          rw [show Relabelling.unresolve.token operator = operator from rfl, decides_eq operator hv]
          exact .ite (fun _ => .pure hv) fun _ => eval_sim n right (henv.mono hw₁) he.2
      | var r =>
          simp only [Expr.Scoped] at he
          exact read_sim r henv he.1
      | assign target value =>
          simp only [Expr.Scoped] at he
          simp only [Machine.eval, eval, Expr.relabel]
          refine (eval_sim n value henv he.2.2).bind fun w₁ v v' hw₁ hv => ?_
          refine (write_sim target (henv.mono hw₁) he.1 he.2.1 hv).bind fun w₂ _ _ hw₂ _ => ?_
          exact .pure (hv.mono hw₂)
      | call span callee paren arguments =>
          simp only [Expr.Scoped] at he
          simp only [Machine.eval, eval, Expr.relabel]
          refine (eval_sim n callee henv he.1).bind fun w₁ f f' hw₁ hf => ?_
          refine (evalList_sim n arguments (henv.mono hw₁) he.2).bind fun w₂ vs vs' hw₂ hvs => ?_
          exact callValue_sim n paren (hf.mono hw₂) hvs
      | get span object name =>
          simp only [Expr.Scoped] at he
          simp only [Machine.eval, eval, Expr.relabel]
          refine (eval_sim n object henv he).bind fun w₁ v v' hw₁ hv => ?_
          cases hv with
          | object id hc => exact getProperty_sim name hc
          | _ => exact .raise _ _
      | set span object name value =>
          simp only [Expr.Scoped] at he
          simp only [Machine.eval, eval, Expr.relabel]
          refine (eval_sim n object henv he.1).bind fun w₁ u u' hw₁ hu => ?_
          cases hu with
          | object id hc =>
              refine (eval_sim n value (henv.mono hw₁) he.2).bind fun w₂ v v' hw₂ hv => ?_
              refine (setField_sim id _ hv).bind fun w₃ _ _ hw₃ _ => ?_
              exact .pure (hv.mono hw₃)
          | _ => exact .raise _ _
      | thisRef r =>
          simp only [Expr.Scoped] at he
          exact read_sim r henv (he.1 ▸ he.2)
      | superRef r method =>
          simp only [Expr.Scoped] at he
          exact getSuper_sim method henv he.1 he.2.2

theorem evalList_sim (n : Nat) (es : List Expr) {F : Nat → Prop} {i : Nat} {w : World}
    {site : Site} {Γ : Context} {ρ : Env} (henv : EnvRel w site.pending Γ i ρ)
    (hes : Expr.ScopedList Γ site es) :
    Sim F i w (Machine.evalList n es) (evalList n ρ (Expr.relabelList .unresolve es))
      fun w' => List.Forall₂ (ValueRel w') := by
  match n with
  | 0 => exact .stop _
  | n + 1 =>
      cases es with
      | nil => exact .pure .nil
      | cons e rest =>
          simp only [Expr.ScopedList] at hes
          simp only [Machine.evalList, evalList, Expr.relabelList]
          refine (eval_sim n e henv hes.1).bind fun w₁ v v' hw₁ hv => ?_
          refine (evalList_sim n rest (henv.mono hw₁) hes.2).bind fun w₂ vs vs' hw₂ hvs => ?_
          exact .pure (.cons (hv.mono hw₂) hvs)

theorem callValue_sim (n : Nat) (paren : Token) {F : Nat → Prop} {i : Nat} {w : World}
    {f f' : Value} {args args' : List Value} (hf : ValueRel w f f')
    (hargs : List.Forall₂ (ValueRel w) args args') :
    Sim F i w (Machine.callValue n f args paren) (callValue n f' args' paren) ValueRel := by
  match n with
  | 0 => exact .stop _
  | n + 1 =>
      cases hf with
      | native f =>
          simp only [Machine.callValue, callValue, hargs.length_eq]
          refine .ite (fun _ => .raise _ _) fun harity => ?_
          exact applyNative_sim f paren hargs
      | function id hc =>
          simp only [Machine.callValue, callValue, hargs.length_eq, hc.arity_eq]
          refine .ite (fun _ => .raise _ _) fun harity => ?_
          exact callClosure_sim n paren hc hargs
            (by simpa [hargs.length_eq, hc.arity_eq] using harity)
      | @classObject c c' hc =>
          simp only [Machine.callValue, callValue, hargs.length_eq, hc.arity_eq]
          refine .ite (fun _ => .raise _ _) fun harity => ?_
          refine newObject_sim.bind fun w₁ object object' hw₁ hobject => ?_
          obtain ⟨id, rfl, rfl⟩ := hobject
          obtain ⟨hm, hm'⟩ | ⟨g, g', hm, hm', hg⟩ := hc.method? (utf8 "init")
          · simp only [ClassObject.initializer?, hm, hm']
            exact .pure (.object id (hc.mono hw₁))
          · simp only [ClassObject.initializer?, hm, hm']
            have harity' : args.length = g.arity := by
              simpa [hargs.length_eq, ClassObject.arity, ClassObject.initializer?, hm',
                hg.arity_eq] using harity
            refine (bindThis_sim (hg.mono hw₁) (hc.mono hw₁)).bind fun w₂ h h' hw₂ hh => ?_
            have hw := hw₁.trans hw₂
            refine (callClosure_sim n paren hh.1 (hargs.imp fun _ _ hv => hv.mono hw)
              (harity'.trans hh.2.symm)).bind fun w₃ _ _ hw₃ _ => ?_
            exact .pure (.object id (hc.mono (hw.trans hw₃)))
      | _ => exact .raise _ _

theorem callClosure_sim (n : Nat) (paren : Token) {F : Nat → Prop} {i : Nat} {w : World}
    {c c' : Closure} {args args' : List Value} (hc : ClosureRel w [] c c')
    (hargs : List.Forall₂ (ValueRel w) args args') (harity : args.length = c.arity) :
    Sim F i w (Machine.callClosure n c args paren) (callClosure n c' args' paren) ValueRel := by
  match n with
  | 0 => exact .stop _
  | n + 1 =>
      obtain ⟨Γ, ρ, hscoped, hcaptured, henv, hinit⟩ := hc.scope
      obtain ⟨hnames, -, hbody⟩ := (FunctionDecl.scoped_iff _ _).mp hscoped
      have hparameters : c'.declaration.parameters = c.declaration.parameters := by
        simp [hc.declaration, Relabelling.unresolve]
      have hbody' : c'.declaration.body =
          Stmt.relabelList .unresolve c.declaration.body := by
        simp [hc.declaration]
      simp only [Machine.callClosure, callClosure, hparameters, hbody', hc.isInitializer]
      refine isFull_sim.bind fun w₁ full full' hw₁ hfull => ?_
      subst hfull
      refine .ite (fun _ => .raise _ _) fun _ => .deeper ?_
      refine (release_sim (hw₁.captured _ _ hcaptured)).bindRight fun w₂ outer hw₂ houter => ?_
      subst houter
      have hw := hw₁.trans hw₂
      obtain ⟨bindings, hbind, hscope⟩ := parameters_sim (henv.mono hw)
        (hargs.imp fun _ _ hv => hv.mono hw) harity hnames
      rw [hbind, Run.pure_bind]
      refine hscope.bind fun w₃ k ρ₃ hw₃ h₃ => ?_
      refine (Sim.inScope (execList_sim n _ h₃.2.1 h₃.2.2 h₃.1 hbody)).bind
        fun w₄ signal signal' hw₄ hsignal => ?_
      refine .ite (fun hinitializer => ?_) fun _ => ?_
      · obtain ⟨Γ', hΓ⟩ := hinit hinitializer
        have hthis : Context.hops? ([] ++ Γ) (utf8 "this") = some 0 := by
          rw [hΓ]
          simp [Context.hops?_cons]
        obtain ⟨location, hlocation⟩ := henv.find?_eq_some hthis
        rw [hlocation]
        exact bindingAt_sim (henv.mono (hw.trans (hw₃.trans hw₄))) hthis hlocation
      · cases hsignal with
        | normal => exact .pure .nil
        | returned hv => exact .pure hv

theorem exec_sim (n : Nat) (s : Stmt) {F : Nat → Prop} {i : Nat} {w : World} {Γ : Context}
    {ρ : Env} (henv : EnvRel w none Γ i ρ) (hexact : Exact w Γ i) (hfree : ¬F i)
    (hs : s.Scoped Γ) :
    Sim F i w (Machine.exec n s) (exec n ρ (s.relabel .unresolve)) fun w' σ σ' =>
      SignalRel w' σ σ'.1 ∧ EnvRel w' none (s.contextAfter Γ) i σ'.2 ∧
        Exact w' (s.contextAfter Γ) i := by
  match n with
  | 0 => exact .stop _
  | n + 1 =>
      cases s with
      | expression span e =>
          simp only [Stmt.Scoped] at hs
          simp only [Machine.exec, exec, Stmt.relabel]
          refine (Sim.keep henv (eval_sim n e henv hs)).bind fun w₁ _ _ hw₁ h₁ => ?_
          exact .pure ⟨.normal, henv.mono hw₁, hexact.of_layout_eq h₁.2⟩
      | print span e =>
          simp only [Stmt.Scoped] at hs
          simp only [Machine.exec, exec, Stmt.relabel]
          refine (Sim.keep henv (eval_sim n e henv hs)).bind fun w₁ v v' hw₁ h₁ => ?_
          have henv₁ := henv.mono hw₁
          rw [h₁.1.display_eq]
          refine (Sim.keep henv₁ (printLine_sim v'.display)).bind fun w₂ _ _ hw₂ h₂ => ?_
          exact .pure ⟨.normal, henv₁.mono hw₂, (hexact.of_layout_eq h₁.2).of_layout_eq h₂.2⟩
      | var span name initial =>
          cases initial with
          | none =>
              simp only [Stmt.Scoped] at hs
              simp only [Machine.exec, exec, Stmt.relabel, Option.map_none]
              refine (declare_sim henv hexact hfree hs).bindRight fun w₁ ρ₁ _ h₁ => ?_
              refine (define_sim h₁.1 Context.eq_of_mem_initializing hs.1 .nil).bind
                fun w₂ _ _ _ h₂ => ?_
              exact .pure ⟨.normal, h₂.1, h₁.2.of_layout_eq h₂.2.2⟩
          | some initial =>
              simp only [Stmt.Scoped] at hs
              simp only [Machine.exec, exec, Stmt.relabel, Option.map_some]
              refine (declare_sim henv hexact hfree hs.1).bindRight fun w₁ ρ₁ _ h₁ => ?_
              refine (Sim.keep h₁.1 (eval_sim n initial h₁.1 hs.2)).bind
                fun w₂ v v' hw₂ h₂ => ?_
              refine (define_sim (h₁.1.mono hw₂) Context.eq_of_mem_initializing hs.1.1
                (h₂.1.mono (Grows.define (F := F) w₂ i v hs.1.1))).bind fun w₃ _ _ _ h₃ => ?_
              exact .pure ⟨.normal, h₃.1,
                (h₁.2.of_layout_eq h₂.2).of_layout_eq h₃.2.2⟩
      | block span body =>
          simp only [Stmt.Scoped] at hs
          simp only [Machine.exec, exec, Stmt.relabel]
          refine (Sim.keep (R := SignalRel) henv ?_).mapRight fun w' σ σ' hw' h =>
            ⟨h.1, henv.mono hw', hexact.of_layout_eq h.2⟩
          refine currentScope_sim.bindLeft fun w₁ outer hw₁ houter => ?_
          subst houter
          refine (openScope_sim (henv.mono hw₁)).bindLeft fun w₂ k hw₂ h₂ => ?_
          exact .inScope (execList_sim n body h₂.2.1 h₂.2.2 h₂.1 hs)
      | branch span condition onTrue onFalse =>
          have hcondition : condition.Scoped Γ {} := by
            cases onFalse <;> simp only [Stmt.Scoped] at hs <;> exact hs.1
          have hTrue : onTrue.Scoped Γ ∧ onTrue.declared? = none := by
            cases onFalse <;> simp only [Stmt.Scoped] at hs
            · exact hs.2
            · exact ⟨hs.2.1, hs.2.2.1⟩
          have hrelabel : (Stmt.branch span condition onTrue onFalse).relabel .unresolve =
              .branch span (condition.relabel .unresolve) (onTrue.relabel .unresolve)
                (onFalse.map fun s => s.relabel .unresolve) := by
            cases onFalse <;> simp [Stmt.relabel, Relabelling.unresolve]
          simp only [Machine.exec, hrelabel, exec]
          refine (Sim.keep henv (eval_sim n condition henv hcondition)).bind
            fun w₁ v v' hw₁ h₁ => ?_
          have henv₁ := henv.mono hw₁
          have hexact₁ := hexact.of_layout_eq h₁.2
          rw [h₁.1.isTruthy_eq]
          refine .ite (fun _ => ?_) fun _ => ?_
          · have h := exec_sim n onTrue henv₁ hexact₁ hfree hTrue.1
            rwa [Stmt.contextAfter_of_declared?_eq_none hTrue.2] at h
          cases onFalse with
          | none => exact .pure ⟨.normal, henv₁, hexact₁⟩
          | some onFalse =>
              simp only [Stmt.Scoped] at hs
              have h := exec_sim n onFalse henv₁ hexact₁ hfree hs.2.2.2.1
              rwa [Stmt.contextAfter_of_declared?_eq_none hs.2.2.2.2] at h
      | loop span condition body =>
          simp only [Stmt.Scoped] at hs
          simp only [Machine.exec, exec, Stmt.relabel]
          exact (execLoop_sim n condition body henv hexact hfree hs.1 hs.2.1 hs.2.2).mapRight
            fun w' σ σ' hw' h => ⟨h.1, henv.mono hw', h.2⟩
      | function f =>
          simp only [Stmt.Scoped] at hs
          simp only [Machine.exec, exec, Stmt.relabel, FunctionDecl.relabel_name]
          refine (declare_sim henv hexact hfree hs.1).bindRight fun w₁ ρ₁ hw₁ h₁ => ?_
          refine (Sim.keep (R := fun w' σ (σ' : Signal × Env) => SignalRel w' σ σ'.1 ∧
            EnvRel w' none (Γ.declare f.name.lexeme) i σ'.2) h₁.1 ?_).imp
              fun w' σ σ' _ h => ⟨h.1.1, h.1.2, h₁.2.of_layout_eq h.2⟩
          refine currentScope_sim.bindLeft fun w₂ outer hw₂ houter => ?_
          subst houter
          refine (capture_sim ρ₁).bindRight fun w₃ id hw₃ hid => ?_
          refine (functionOf_sim _ _).bind fun w₄ v v' hw₄ hv => ?_
          obtain ⟨identity, rfl, rfl⟩ := hv
          have henv₄ := ((h₁.1.mono hw₂).mono hw₃).mono hw₄
          -- The function sees its own name, which is bound only once it has its value.
          have hsettled := henv₄.settled Context.eq_of_mem_initializing hs.1.1
            (.function identity { declaration := f, scope := outer })
          have hclosure : ClosureRel (w₄.define outer f.name.lexeme
              (.function identity { declaration := f, scope := outer })) []
              { declaration := f, scope := outer }
              { declaration := f.relabel .unresolve, scope := id } :=
            ⟨rfl, rfl, _, ρ₁, hs.2, hw₄.captured _ _ hid, hsettled, by simp⟩
          refine (define_sim henv₄ Context.eq_of_mem_initializing hs.1.1
            (.function identity hclosure)).bind fun w₅ _ _ _ h₅ => ?_
          exact .pure ⟨.normal, h₅.1⟩
      | ret span keyword value =>
          cases value with
          | none => exact .pure ⟨.returned .nil, henv, hexact⟩
          | some e =>
              simp only [Stmt.Scoped] at hs
              simp only [Machine.exec, exec, Stmt.relabel, Option.map_some]
              refine (Sim.keep henv (eval_sim n e henv hs)).bind fun w₁ v v' hw₁ h₁ => ?_
              exact .pure ⟨.returned h₁.1, henv.mono hw₁, hexact.of_layout_eq h₁.2⟩
      | classDecl span name parent methods =>
          cases parent with
          | none =>
              simp only [Stmt.Scoped] at hs
              simp only [Machine.exec, exec, Stmt.relabel, Option.map_none]
              refine (declareClass_sim henv hexact hfree hs.1 .none hs.2).bind
                fun w₁ _ ρ₁ _ h₁ => ?_
              exact .pure ⟨.normal, h₁⟩
          | some parent =>
              simp only [Stmt.Scoped] at hs
              simp only [Machine.exec, exec, Stmt.relabel, Option.map_some]
              refine (Sim.keep henv (read_sim parent henv hs.2.1)).bind fun w₁ v v' hw₁ h₁ => ?_
              cases h₁.1 with
              | classObject hc =>
                  refine (declareClass_sim (henv.mono hw₁) (hexact.of_layout_eq h₁.2) hfree hs.1
                    (.some hc) hs.2.2).bind fun w₂ _ ρ₂ _ h₂ => ?_
                  exact .pure ⟨.normal, h₂⟩
              | _ => exact .raise _ _

theorem execList_sim (n : Nat) (body : List Stmt) {F : Nat → Prop} {i : Nat} {w : World}
    {Γ : Context} {ρ : Env} (henv : EnvRel w none Γ i ρ) (hexact : Exact w Γ i) (hfree : ¬F i)
    (hbody : Stmt.ScopedList Γ body) :
    Sim F i w (Machine.execList n body) (execList n ρ (Stmt.relabelList .unresolve body))
      SignalRel := by
  match n with
  | 0 => exact .stop _
  | n + 1 =>
      cases body with
      | nil => exact .pure .normal
      | cons s rest =>
          simp only [Stmt.ScopedList] at hbody
          simp only [Machine.execList, execList, Stmt.relabelList]
          refine (exec_sim n s henv hexact hfree hbody.1).bind fun w₁ σ σ' hw₁ h₁ => ?_
          obtain ⟨signal', ρ₁⟩ := σ'
          obtain ⟨hsignal, henv₁, hexact₁⟩ := h₁
          cases hsignal with
          | normal => exact execList_sim n rest henv₁ hexact₁ hfree hbody.2
          | returned hv => exact .pure (.returned hv)

theorem execLoop_sim (n : Nat) (condition : Expr) (body : Stmt) {F : Nat → Prop} {i : Nat}
    {w : World} {Γ : Context} {ρ : Env} (henv : EnvRel w none Γ i ρ) (hexact : Exact w Γ i)
    (hfree : ¬F i) (hcondition : condition.Scoped Γ {}) (hbody : body.Scoped Γ)
    (hnone : body.declared? = none) :
    Sim F i w (Machine.execLoop n condition body)
      (execLoop n ρ (condition.relabel .unresolve) (body.relabel .unresolve)) fun w' σ σ' =>
        SignalRel w' σ σ' ∧ Exact w' Γ i := by
  match n with
  | 0 => exact .stop _
  | n + 1 =>
      simp only [Machine.execLoop, execLoop]
      refine (Sim.keep henv (eval_sim n condition henv hcondition)).bind
        fun w₁ v v' hw₁ h₁ => ?_
      have hexact₁ := hexact.of_layout_eq h₁.2
      rw [h₁.1.isTruthy_eq]
      refine .ite (fun _ => ?_) fun _ => .pure ⟨.normal, hexact₁⟩
      refine (exec_sim n body (henv.mono hw₁) hexact₁ hfree hbody).bind fun w₂ σ σ' hw₂ h₂ => ?_
      obtain ⟨signal', ρ₂⟩ := σ'
      obtain ⟨hsignal, henv₂, hexact₂⟩ := h₂
      simp only [Stmt.contextAfter, hnone] at hexact₂
      cases hsignal with
      | normal =>
          exact execLoop_sim n condition body ((henv.mono hw₁).mono hw₂) hexact₂ hfree hcondition
            hbody hnone
      | returned hv => exact .pure ⟨.returned hv, hexact₂⟩

end

/-! ## Programs -/

theorem EnvRel.top (w : World) : EnvRel w none [] 0 none :=
  ⟨⟨rfl, rfl⟩, by simp⟩

theorem execProgram_sim (n : Nat) (program : List Stmt) {w : World}
    (hprogram : Stmt.ScopedList [] program) :
    Sim (fun _ => False) 0 w (Machine.execProgram n program)
      (execProgram n (Stmt.relabelList .unresolve program)) fun _ _ _ => True := by
  induction program generalizing w with
  | nil => exact .pure trivial
  | cons s rest ih =>
      simp only [Stmt.ScopedList, Stmt.contextAfter_nil] at hprogram
      simp only [Machine.execProgram, execProgram, Stmt.relabelList]
      refine (exec_sim n s (.top w) (by simp [Exact]) (fun hf => hf)
        hprogram.1).bind fun w₁ _ _ _ _ => ?_
      exact ih hprogram.2

def World.start (natives : List Native) : World where
  scopes := (Machine.start natives 0 []).scopes
  captured := #[]
  layout := fun _ _ => none

theorem natives_rel (w : World) (natives : List Native) :
    Bindings.Rel (ValueRel w) (natives.map fun f => (f.name, .native f))
      (natives.map fun f => (f.name, .native f)) := by
  induction natives with
  | nil => exact .nil
  | cons f rest ih => exact .cons ⟨rfl, .native f⟩ ih

theorem related_start (natives : List Native) (limit : Nat) (clock : List Int) :
    Related (.start natives) (.start natives limit clock) (.start natives limit clock) where
  scopes := rfl
  captured := rfl
  globals := by
    exact ⟨_, _, rfl, rfl, natives_rel _ natives⟩
  located := by simp [World.start]
  separate := by simp [World.start]
  placed := by
    intro i scope x hi hscope
    have hlt : i < 1 := (Array.getElem?_eq_some_iff.mp hscope).1
    omega
  fields := .nil
  current := rfl
  fresh := rfl
  depth := rfl
  limit := rfl
  clock := rfl
  printed := rfl

/-! ## What is seen in the end -/

section Shapes

variable {w : World}

theorem ClosureRel.relabel_eq {own : Context} {c c' : Closure} (h : ClosureRel w own c c') :
    c.relabel .unresolve (fun _ => 0) = c'.relabel .unresolve fun _ => 0 := by
  have htwice : (c.declaration.relabel .unresolve).relabel .unresolve =
      c.declaration.relabel .unresolve := by
    rw [FunctionDecl.relabel_relabel]
    rfl
  simp [Closure.relabel, h.declaration, h.isInitializer, htwice]

theorem ClassRel.relabel_eq {c c' : ClassObject} (h : ClassRel w c c') :
    c.relabel .unresolve (fun _ => 0) = c'.relabel .unresolve fun _ => 0 := by
  induction h with
  | root id name h =>
      simp only [ClassObject.relabel, h.mapValues_eq fun _ _ hm => hm.relabel_eq]
  | sub id name _ h ih =>
      simp only [ClassObject.relabel, ih, h.mapValues_eq fun _ _ hm => hm.relabel_eq]

theorem ValueRel.shape_eq {v v' : Value} (h : ValueRel w v v') : v.shape = v'.shape := by
  cases h with
  | nil | bool | number | text | native => rfl
  | function id h => simp [Value.shape, Value.relabel, h.relabel_eq]
  | classObject h => simp [Value.shape, Value.relabel, h.relabel_eq]
  | object id h => simp [Value.shape, Value.relabel, h.relabel_eq]

theorem Related.contents_eq {m : Machine} {s : State} (h : Related w m s) :
    m.contents = s.machine.contents := by
  obtain ⟨bs, bs', hbs, hbs', hrel⟩ := h.globals
  have hglobals : m.globalBindings = bs := by
    simp [Machine.globalBindings, Scopes.bindingsOf?, Machine.globalScope, hbs]
  have hglobals' : s.machine.globalBindings = bs' := by
    simp [Machine.globalBindings, Scopes.bindingsOf?, Machine.globalScope, hbs']
  have hfields : m.fields.toList.map (fun bindings => bindings.mapValues Value.shape) =
      s.machine.fields.toList.map fun bindings => bindings.mapValues Value.shape := by
    refine List.forall₂_eq_eq_eq ▸ List.forall₂_map_left_iff.mpr (List.forall₂_map_right_iff.mpr ?_)
    exact h.fields.imp fun _ _ hb => hb.mapValues_eq fun _ _ hv => hv.shape_eq
  simp [Machine.contents, hglobals, hglobals', hfields,
    hrel.mapValues_eq fun _ _ hv => hv.shape_eq]

end Shapes

/-! ## Whole sources -/

/--
A source without problems prints, fails and leaves in its global names what it does when
every local declaration makes a location of its own.
-/
theorem run_eq_interpret (source : Bytes) (limit : Nat) (clock : List Int)
    (h : (check source).report.diagnostics = []) :
    let ran := Session.run { machine := .start Machine.standardNatives limit clock } source
    let meant := interpret (parse source).1 (.start Machine.standardNatives limit clock)
    ran.1.failure = meant.fault?.map Fault.toRuntimeError ∧
      ran.2.machine.output = meant.state.machine.output ∧
      ran.2.machine.contents = meant.state.machine.contents := by
  have htop : Resolution.State.AtTop {} := ⟨rfl, rfl, rfl⟩
  obtain ⟨hscoped, hread⟩ := checkFrom_scoped htop h
  have hfailed := checkFrom_failed_eq_false_iff.mpr h
  have hsim := execProgram_sim Machine.ample _ hscoped _ _
    (related_start Machine.standardNatives limit clock) rfl (fun _ hf => hf.elim)
  rw [hread] at hsim
  have hfailure : (checkFrom {} source).1.report.failure = none := by
    simpa [Report.failed] using (Bool.or_eq_false_iff.mp hfailed).2
  simp only [Session.run, hfailed, Machine.interpret, interpret]
  generalize Machine.execProgram Machine.ample (checkFrom {} source).1.program
    (.start Machine.standardNatives limit clock) = out at hsim ⊢
  generalize execProgram Machine.ample (parse source).1
    (.start Machine.standardNatives limit clock) = out' at hsim ⊢
  cases hsim with
  | done _ hrel _ _ =>
      exact ⟨hfailure, by simp [Outcome.state, Machine.output, hrel.printed], hrel.contents_eq⟩
  | fault _ hrel _ =>
      exact ⟨rfl, by simp [Outcome.state, Machine.output, hrel.printed], hrel.contents_eq⟩

/-- A function that keeps seeing the global after a local of that name is declared. -/
def capturingSource : Bytes :=
  utf8 "var a = \"global\"; \x7b fun show() \x7b print a; \x7d show(); var a = \"block\"; show(); \x7d"

theorem run_eq_interpret_capturing :
    (check capturingSource).report.diagnostics = [] ∧
      let ran := Session.run { machine := .start Machine.standardNatives 3 [5] } capturingSource
      let meant := interpret (parse capturingSource).1 (.start Machine.standardNatives 3 [5])
      ran.1.failure = meant.fault?.map Fault.toRuntimeError ∧
        ran.2.machine.output = meant.state.machine.output ∧
        ran.2.machine.contents = meant.state.machine.contents :=
  ⟨rfl, run_eq_interpret capturingSource 3 [5] rfl⟩

example :
    (Session.run { machine := .start Machine.standardNatives 3 [5] }
        capturingSource).2.machine.output = utf8 "global\nglobal\n" := by decide +kernel

end Lox.Lexical
