import Lox.Proofs.Calls.Accounted

/-!
The log of every evaluation is true about its calls.

An expression puts down nothing but calls.  A statement that returns puts down a `return`
last, and one that runs through puts down none; this is what a function body makes of the
value of its call.
-/

namespace Lox.Calls

open Machine (stop raise deeper isFull)
open Recorded (Log Note Place Quiet Traced eval evalList callValue callClosure exec execList
  execLoop execProgram)
open Run (Steady)

namespace Accounted

variable {α β : Type} {t : Traced Event α} {p : Run α}

/-! ## Expressions before other parts -/

theorem step (h : Steady p) (ht : Quiet t p) : Accounted OnlyCalls t p := by
  obtain rfl : t = .silent p := funext ht
  exact silent h fun _ _ he => nomatch he

theorem look (h : Steady p) : Accounted OnlyCalls (.silent p) p := step h (.silent p)

theorem move (act : Recorded.Act) (h : Steady p) : Accounted OnlyCalls (.move act p) p :=
  step h (.move act p)

theorem value (v : α) : Accounted OnlyCalls (Pure.pure v) (Pure.pure v) :=
  pure fun _ he => nomatch he

theorem calls {t' : α → Traced Event β} {p' : α → Run β} (hp : Accounted OnlyCalls t p)
    (hrest : ∀ v, Accounted OnlyCalls (t' v) (p' v)) :
    Accounted OnlyCalls (t >>= t') (p >>= p') := by
  apply hp.bind
  · exact fun _ h => h
  · intro v front hfront
    apply (hrest v).imp
    intro r log hlog e he
    rcases List.mem_append.mp he with he | he
    · exact hfront e he
    · exact hlog e he

theorem settles {t' : α → Traced Event Signal} {p' : α → Run Signal} (hp : Accounted OnlyCalls t p)
    (hrest : ∀ v, Accounted Settles (t' v) (p' v)) :
    Accounted Settles (t >>= t') (p >>= p') := by
  apply hp.bind
  · intro log hlog v hv
    exact hlog.returnless _ hv trivial
  · intro v front hfront
    apply (hrest v).imp
    intro r log hlog
    exact hlog.append hfront.returnless

theorem ite {Q : Option α → List Event → Prop} {c : Prop} [Decidable c] {t' : Traced Event α}
    {p' : Run α} (hp : c → Accounted Q t p) (hp' : ¬c → Accounted Q t' p') :
    Accounted Q (if c then t else t') (if c then p else p') := by
  split
  · exact hp ‹_›
  · exact hp' ‹_›

theorem first {Q : Option β → List Event → Prop} {t' : α → Traced Event β} {p' : α → Run β}
    (h : Steady p) (ht : Quiet t p) (hnone : Q none [])
    (hrest : ∀ v, Accounted Q (t' v) (p' v)) : Accounted Q (t >>= t') (p >>= p') := by
  obtain rfl : t = .silent p := funext ht
  have hsilent : Accounted (fun _ log => log = []) (.silent p) p := silent h fun _ => rfl
  apply hsilent.bind
  · rintro log rfl
    exact hnone
  · rintro v front rfl
    exact hrest v

theorem passed {callee : Value} {arguments : List Value} (h : ¬Activates callee arguments)
    (hp : Accounted OnlyCalls t p) :
    Accounted OnlyCalls (.noting (.passed callee arguments) t) p := by
  apply noting (e := .passed callee arguments) (fun _ => rfl) h
  apply hp.imp
  intro r log hlog e he
  rcases List.mem_cons.mp he with rfl | he
  · rfl
  · exact hlog e he

/-! ## Statements -/

theorem normal : Accounted Settles (Pure.pure .normal) (Pure.pure .normal) :=
  pure fun _ he => nomatch he

theorem stopped {cause : Fault} (h : ¬cause.IsOverflow) :
    Accounted Settles (.silent (stop cause)) (stop cause) :=
  silent (.stop h) fun _ _ he => nomatch he

theorem statement {s : Stmt} {t : Traced Event Signal} {p : Run Signal}
    (hs : ¬(Event.statement s).IsReturn) (hp : Accounted Settles t p) :
    Accounted Settles (.noting (.statement s) t) p := by
  apply noting (e := .statement s) (fun _ => rfl) trivial
  apply hp.imp
  intro r log hlog
  have hfirst : Returnless [.statement s] := by
    intro e he
    rw [List.mem_singleton.mp he]
    exact hs
  exact hlog.append hfirst

theorem unlessReturned {t t' : Traced Event Signal} {p p' : Run Signal} (hp : Accounted Settles t p)
    (hrest : Accounted Settles t' p') :
    Accounted Settles
      (do
        match ← t with
        | .returned v => return .returned v
        | .normal => t')
      (do
        match ← p with
        | .returned v => return .returned v
        | .normal => p') := by
  apply hp.bind (fun _ h => h)
  intro signal front hfront
  cases signal with
  | returned v =>
      apply pure
      rw [List.append_nil]
      exact hfront
  | normal =>
      apply hrest.imp
      intro r log hlog
      exact hlog.append hfront

end Accounted

open Accounted (step look move value stopped)

/-! ## Evaluation -/

mutual

theorem eval_accounted (n : Nat) (place : Place) (e : Expr) :
    Accounted OnlyCalls (eval n place e) (Machine.eval n e) := by
  match n with
  | 0 => exact look .outOfFuel
  | n + 1 =>
      cases e with
      | absent => exact look (.stop id)
      | literal span v => exact value _
      | grouping span inner => exact eval_accounted n place inner
      | unary span operator operand =>
          simp only [Machine.eval, eval]
          apply (eval_accounted n place operand).calls
          intro v
          exact look (Machine.applyUnary_settles operator v).steady
      | binary span operator left right =>
          simp only [Machine.eval, eval]
          apply (eval_accounted n place left).calls
          intro v
          apply (eval_accounted n place right).calls
          intro w
          exact look (Machine.applyBinary_settles operator v w).steady
      | logical span operator left right =>
          simp only [Machine.eval, eval]
          apply (eval_accounted n place left).calls
          intro v
          exact .ite (fun _ => value v) fun _ => eval_accounted n place right
      | var r | thisRef r => exact .unnoted (fun _ => rfl) (look (.read r))
      | assign target e =>
          simp only [Machine.eval, eval]
          apply (eval_accounted n place e).calls
          intro v
          have hwrite : Accounted OnlyCalls
              (.noting (.uses place.toSite (.target target))
                (.move (.assigns target) (Machine.write target v)))
              (Machine.write target v) := .unnoted (fun _ => rfl) (move _ (.write target v))
          exact hwrite.calls fun _ => value v
      | call span callee paren arguments =>
          simp only [Machine.eval, eval]
          apply (eval_accounted n place callee).calls
          intro f
          apply (evalList_accounted n place arguments).calls
          intro vs
          exact callValue_accounted n f vs paren
      | get span object name =>
          simp only [Machine.eval, eval]
          apply (eval_accounted n place object).calls
          intro v
          cases v with
          | object id c =>
              exact step (Machine.getProperty_steady id c name) (.getProperty id c name)
          | _ => exact look (.raise nofun)
      | set span object name e =>
          simp only [Machine.eval, eval]
          apply (eval_accounted n place object).calls
          intro u
          cases u with
          | object id c =>
              apply (eval_accounted n place e).calls
              intro v
              exact (move _ (.setField id name.lexeme v)).calls fun _ => value v
          | _ => exact look (.raise nofun)
      | superRef r method =>
          exact .unnoted (fun _ => rfl)
            (step (Machine.getSuper_steady r method) (.getSuper r method))

theorem evalList_accounted (n : Nat) (place : Place) (es : List Expr) :
    Accounted OnlyCalls (evalList n place es) (Machine.evalList n es) := by
  match n with
  | 0 => exact look .outOfFuel
  | n + 1 =>
      cases es with
      | nil => exact value _
      | cons e rest =>
          simp only [Machine.evalList, evalList]
          apply (eval_accounted n place e).calls
          intro v
          apply (evalList_accounted n place rest).calls
          intro vs
          exact value (v :: vs)

theorem callValue_accounted (n : Nat) (f : Value) (vs : List Value) (paren : Token) :
    Accounted OnlyCalls (callValue n f vs paren) (Machine.callValue n f vs paren) := by
  match n with
  | 0 => exact look .outOfFuel
  | n + 1 =>
      simp only [Machine.callValue, callValue]
      cases f with
      | native g =>
          apply Accounted.passed id
          exact .ite (fun _ => look (.raise nofun))
            fun _ => move _ (Machine.applyNative_steady g vs paren)
      | function id code =>
          apply Accounted.ite
          · intro harity
            exact .passed harity (look (.raise nofun))
          · intro harity
            have hcall : Activates (.function id code) vs := not_not.mp harity
            apply callClosure_accounted n none code paren hcall
            rintro id' code' ⟨⟩ _
            rfl
      | classObject c =>
          apply Accounted.ite
          · intro harity
            exact .passed (fun h => harity h.2) (look (.raise nofun))
          · intro harity
            apply (step (.newObject c) (.newObject c)).calls
            intro object
            cases hinit : c.initializer? with
            | none =>
                have hidle : ¬Activates (.classObject c) vs := by simp [Activates, hinit]
                exact .passed hidle (value object)
            | some method =>
                have hcall : Activates (.classObject c) vs := by
                  simp [Activates, hinit, not_not.mp harity]
                apply (step (Machine.bindThis_steady method object)
                  (.bindThis method object)).calls
                intro code
                apply (callClosure_accounted n _ code paren hcall nofun).calls
                intro _
                exact value object
      | _ => exact .passed id (look (.raise nofun))

theorem callClosure_accounted (n : Nat) (home : Option Home) {callee : Value} (code : Closure)
    {vs : List Value} (paren : Token) (hcall : Activates callee vs)
    (hcode : ∀ id code', callee = .function id code' → code'.isInitializer = false →
      code' = code) :
    Accounted OnlyCalls (callClosure n home callee code vs paren)
      (Machine.callClosure n code vs paren) := by
  match n with
  | 0 => exact look .outOfFuel
  | n + 1 =>
      simp only [Machine.callClosure, callClosure]
      apply Accounted.enter paren hcall
      apply Accounted.first (Machine.bindParameters_steady _ _ _) (.silent _)
      · exact fun _ _ _ _ v hv => nomatch hv
      intro bindings
      apply Accounted.first (.newScope _ _) (.move _ _)
      · exact fun _ _ _ _ v hv => nomatch hv
      · intro scope
        apply ((execList_accounted n home code.declaration.body).inScope scope).bind
        · exact fun log hlog _ _ _ _ => hlog
        · intro signal log hlog
          apply Accounted.ite
          · intro hinitializer
            apply Accounted.unnoted (fun _ => rfl)
            apply Accounted.silent (.bindingAt _ _ _)
            intro m id code' hcallee hplain
            rw [hcode id code' hcallee hplain, hinitializer] at hplain
            cases hplain
          · intro _
            cases signal with
            | returned v =>
                apply Accounted.pure
                intro id code' _ _
                rw [List.append_nil]
                exact .inl hlog
            | normal =>
                apply Accounted.pure
                intro id code' _ _
                rw [List.append_nil]
                exact .inr ⟨hlog, rfl⟩

theorem exec_accounted (n : Nat) (home : Option Home) (s : Stmt) :
    Accounted Settles (exec n home s) (Machine.exec n s) := by
  match n with
  | 0 => exact stopped id
  | n + 1 =>
      simp only [Machine.exec, exec]
      cases s with
      | expression span e =>
          apply Accounted.statement id
          exact (eval_accounted n _ e).settles fun _ => .normal
      | print span e =>
          apply Accounted.statement id
          apply (eval_accounted n _ e).settles
          intro v
          exact (move _ (.printLine _)).settles fun _ => .normal
      | var span name initial =>
          apply Accounted.statement id
          cases initial with
          | none => exact (move _ (.define _ _)).settles fun _ => .normal
          | some e =>
              apply (eval_accounted n _ e).settles
              intro v
              exact (move _ (.define _ v)).settles fun _ => .normal
      | block span body =>
          apply Accounted.statement id
          apply (look .currentScope).settles
          intro outer
          apply (move _ (.newScope outer [])).settles
          intro scope
          exact (execList_accounted n home body).inScope scope
      | branch span condition onTrue onFalse =>
          apply Accounted.statement id
          apply (eval_accounted n _ condition).settles
          intro v
          apply Accounted.ite
          · exact fun _ => exec_accounted n home onTrue
          · intro _
            cases onFalse with
            | none => exact .normal
            | some s => exact exec_accounted n home s
      | loop span condition body =>
          exact .statement id (execLoop_accounted n home condition body)
      | function declaration =>
          apply Accounted.statement id
          apply (look .currentScope).settles
          intro scope
          apply (step (Machine.functionOf_steady _) (.functionOf _ _)).settles
          intro f
          exact (move _ (.define _ f)).settles fun _ => .normal
      | ret span keyword value =>
          apply Accounted.noting (e := .statement (.ret span keyword value)) (fun _ => rfl) trivial
          cases value with
          | none =>
              apply Accounted.noting (e := .returned .nil) (fun _ => rfl) trivial
              apply Accounted.pure
              exact ⟨[], span, keyword, none, [], rfl, nofun, nofun, fun _ => ⟨rfl, rfl⟩⟩
          | some e =>
              apply (eval_accounted n _ e).bind
              · intro log hlog v hv
                rcases List.mem_cons.mp hv with hv | hv
                · cases hv
                · exact hlog.returnless _ hv trivial
              · intro v operand hoperand
                apply Accounted.noting (e := .returned v) (fun _ => rfl) trivial
                apply Accounted.pure
                exact ⟨[], span, keyword, some e, operand, rfl, nofun, hoperand, nofun⟩
      | classDecl span name superclass methods =>
          apply Accounted.statement id
          cases superclass with
          | none =>
              apply Accounted.asking
              intro m
              exact (step (Machine.declareClass_steady _ _ _)
                (.declareClass m _ _ _ _)).settles fun _ => .normal
          | some parent =>
              apply Accounted.asking
              intro m
              have hread : Accounted OnlyCalls
                  (.noting (.uses {} (.name parent)) (.silent (Machine.read parent)))
                  (Machine.read parent) := .unnoted (fun _ => rfl) (look (.read parent))
              apply hread.settles
              intro v
              cases v with
              | classObject c =>
                  exact (step (Machine.declareClass_steady _ _ _)
                    (.declareClass m _ _ _ _)).settles fun _ => .normal
              | _ => exact stopped nofun

theorem execList_accounted (n : Nat) (home : Option Home) (body : List Stmt) :
    Accounted Settles (execList n home body) (Machine.execList n body) := by
  match n with
  | 0 => exact stopped id
  | n + 1 =>
      cases body with
      | nil => exact .normal
      | cons s rest =>
          simp only [Machine.execList, execList]
          exact (exec_accounted n home s).unlessReturned (execList_accounted n home rest)

theorem execLoop_accounted (n : Nat) (home : Option Home) (condition : Expr) (body : Stmt) :
    Accounted Settles (execLoop n home condition body)
      (Machine.execLoop n condition body) := by
  match n with
  | 0 => exact stopped id
  | n + 1 =>
      simp only [Machine.execLoop, execLoop]
      apply (eval_accounted n _ condition).settles
      intro v
      apply Accounted.ite
      · exact fun _ =>
          (exec_accounted n home body).unlessReturned (execLoop_accounted n home condition body)
      · exact fun _ => .normal

end

theorem execProgram_accounted (n : Nat) (program : List Stmt) :
    Accounted (fun _ _ => True) (execProgram n program) (Machine.execProgram n program) := by
  induction program with
  | nil => exact .pure trivial
  | cons s rest ih =>
      apply (exec_accounted n none s).bind
      · exact fun _ _ => trivial
      · exact fun _ _ _ => ih

end Lox.Calls
