import Lox.Proofs.Objects.Meets

/-!
Checked code keeps its chronicle faithful.

Binding a method opens a scope for its object inside the scope of its class, where the
superclass is bound.  The code of the method, and every function that is declared in it, runs
further in.  The resolver has counted the scopes from each use of `this` and `super` to the
innermost scope with that name, and those are the two scopes of its home.
-/

namespace Lox

theorem Token.not_mem_lexemes {names : List Token} (h : ∀ name ∈ names, name.Nameable) :
    utf8 "this" ∉ names.map lexeme ∧ utf8 "super" ∉ names.map lexeme := by
  simp only [List.mem_map, not_exists, not_and]
  exact ⟨fun name hname => (h name hname).1, fun name hname => (h name hname).2⟩

theorem Stmt.Scoped.nameable {s : Stmt} {Γ : Resolution.Context} (h : s.Scoped Γ) :
    ∀ t ∈ s.declared?, t.Nameable := by
  rintro t ht
  cases s with
  | var span name initial =>
      cases ht
      cases initial <;> simp only [Stmt.Scoped] at h
      · exact h.1
      · exact h.1.1
  | function f =>
      cases ht
      simp only [Stmt.Scoped] at h
      exact h.1.1
  | classDecl span name superclass methods =>
      cases ht
      cases superclass <;> simp only [Stmt.Scoped] at h <;> exact h.1.1
  | _ => cases ht

def Resolution.Context.Superless (Γ : Resolution.Context) : Prop :=
  Γ.hops? (utf8 "super") ≠ some 0

namespace Resolution.Context

theorem superless_nil : Superless [] := nofun

theorem superless_cons {names : List Token} (h : ∀ name ∈ names, name.Nameable) (Γ : Context) :
    Superless (names.map Token.lexeme :: Γ) := by
  unfold Superless
  rw [hops?_cons, if_neg (Token.not_mem_lexemes h).2]
  simp

theorem Superless.declare {Γ : Context} (h : Γ.Superless) {name : Token}
    (hname : name.Nameable) : (Γ.declare name.lexeme).Superless := by
  unfold Superless
  rw [hops?_declare_of_ne Γ hname.2.symm]
  exact h

theorem Superless.contextAfter {Γ : Context} (h : Γ.Superless) {s : Stmt} (hs : s.Scoped Γ) :
    (s.contextAfter Γ).Superless := by
  unfold Stmt.contextAfter
  cases hdeclared : s.declared? with
  | none => exact h
  | some name => exact h.declare (hs.nameable name hdeclared)

end Resolution.Context

namespace Objects

open Access (Binds)
open Machine (bindingAt)
open Recorded (Place bindThis functionOf methodFrom getProperty getSuper newObject declareClass
  eval evalList callValue callClosure exec execList execLoop execProgram)
open Resolution (Context Site)

variable {stray : Reference → Prop} {w : World}

theorem lasts_known : Lasts (Known stray) := fun _ _ _ hw h => h.mono hw

theorem known_ofLiteral (l : Literal) : Known stray w (.ofLiteral l) := by
  cases l <;> trivial

/-! ## Operators and native functions -/

theorem settles_meets {t : Token} {unknown : Prop} {p : Run Value}
    (h : Machine.Settles t unknown p) : Meets stray w (Told.look p) p (Known stray) := by
  cases h with
  | atom hv => exact .pure (by cases hv <;> trivial)
  | blame => exact .raise _ _

theorem applyNative_meets (f : Native) (vs : List Value) (paren : Token) :
    Meets stray w (Told.move (Machine.applyNative f vs paren)) (Machine.applyNative f vs paren)
      (Known stray) := by
  refine .move (Machine.applyNative_steady f vs paren) (fun hw => ?_) fun hw v m hv => ?_
  · obtain ⟨clock, ⟨l, hdone⟩ | ⟨text, hfault⟩⟩ := Machine.applyNative_cases f vs paren w.machine
    · rw [hdone]
      exact .of_alike hw ⟨rfl, rfl⟩ (Nat.le_refl _)
    · rw [hfault]
      exact .of_alike hw ⟨rfl, rfl⟩ (Nat.le_refl _)
  · obtain ⟨clock, ⟨l, hdone⟩ | ⟨text, hfault⟩⟩ := Machine.applyNative_cases f vs paren w.machine
    · rw [hdone] at hv
      cases hv
      exact known_ofLiteral l
    · rw [hfault] at hv
      cases hv

theorem bindParameters_meets (parameters : List Token) {vs : List Value}
    (hvs : ∀ v ∈ vs, Known stray w v) :
    Meets stray w (Told.look (Machine.bindParameters [] parameters vs))
      (Machine.bindParameters [] parameters vs)
      fun w' bindings => w' = w ∧ bindings.All (Known stray w) := by
  by_cases hlength : parameters.length ≤ vs.length
  · obtain ⟨bindings, hbind, hbound⟩ := Machine.bindParameters_all hlength hvs
    rw [hbind]
    exact .pure ⟨rfl, hbound⟩
  · rw [Machine.bindParameters_of_lt [] (Nat.lt_of_not_le hlength)]
    exact .stop _

/-! ## Methods -/

theorem bindThis_meets {id : Nat} {own c : ClassObject} {name : Bytes} {method : Closure}
    (hobject : Known stray w (.object id own)) (hc : c ∈ own.lineage)
    (hmethod : c.method? name = some method) :
    Meets stray w (bindThis method (.object id own)) (Machine.bindThis method (.object id own))
      fun w' code => Lives stray w' code (Home.of? (.object id own) c name) := by
  obtain ⟨owner, howner, hget, hhome⟩ := @Home.exists_of? (.object id own) c name method hmethod
  rw [hhome]
  have hlineage := ClassObject.mem_lineage_trans howner hc
  obtain ⟨before, cname, superclass, methods, scope, hmem, hown, Γ, hscoped, hsuper⟩ :=
    hobject.2 owner hlineage
  rw [hown] at hget
  obtain ⟨hdeclared, rfl⟩ := Machine.mem_of_get?_methodsIn hget
  unfold bindThis Machine.bindThis
  refine (Meets.newScope method.scope (.single _ hobject)).bind fun w₁ k hw₁ hk => .pure ?_
  refine ⟨[utf8 "this"] :: Γ, FunctionDecl.scoped_of_mem hscoped _ hdeclared, ?_, fun r hr => hr⟩
  refine Situated.bound (h := ⟨.object id own, owner, method.declaration⟩) ?_ hk fun hzero => ?_
  · exact ⟨id, own, rfl, hw₁.tape hobject.1, hlineage, methods,
      ⟨before, cname, superclass, method.scope, hw₁.tape hmem⟩, hdeclared⟩
  · obtain ⟨parent, hparent, hbinds⟩ := hsuper hzero
    exact ⟨parent, hparent, binds_mono hw₁.scopes (.inr rfl) hbinds⟩

theorem functionOf_meets {code : Closure} {home : Option Home} (h : Lives stray w code home) :
    Meets stray w (functionOf code home) (Machine.functionOf code) (Known stray) := by
  unfold functionOf Machine.functionOf
  refine Meets.newIdentity.bind fun w₁ id hw₁ hid => ?_
  refine .note rfl (fun _ => hid.1) ?_ nofun (.pure ⟨home, List.mem_cons_self, ?_⟩)
  · rintro kind i ⟨⟩
    exact hid.2
  · exact h.mono (hw₁.trans (w₁.leads_tell _)).toGrows

theorem newObject_meets {c : ClassObject} (hc : Known stray w (.classObject c)) :
    Meets stray w (newObject c) (Machine.newObject c)
      fun w' v => ∃ id, v = .object id c ∧ Known stray w' v := by
  have hmove : Meets stray w (Told.move (Machine.newObject c)) (Machine.newObject c)
      fun w' v => ∃ id, v = .object id c ∧ w'.tape.Below .object id ∧
        id < w'.machine.fields.size := by
    refine .move (.newObject c) (fun hw => .newObject hw) fun hw v m hv => ?_
    cases hv
    exact ⟨_, rfl, (hw.below .object).cons nofun, by simp [World.moved]⟩
  have hp : (Machine.newObject c >>= fun v => pure v) = Machine.newObject c := rfl
  rw [← hp]
  refine hmove.bind fun w₁ v hw₁ hv => ?_
  obtain ⟨id, rfl, hbelow, hlt⟩ := hv
  have hc₁ := hc.mono hw₁.toGrows
  refine .note rfl (fun _ => ⟨hc₁.lists, hbelow⟩) ?_ nofun
    (.pure ⟨id, rfl, List.mem_cons_self, ?_⟩)
  · rintro kind i ⟨⟩
    exact hlt
  · exact fun a ha => (hc₁ a ha).mono (w₁.leads_tell _).toGrows

theorem methodFrom_meets {id : Nat} {own c : ClassObject} (name : Token)
    (hobject : Known stray w (.object id own)) (hc : c ∈ own.lineage) :
    Meets stray w (methodFrom c (.object id own) name)
      (Machine.methodFrom c (.object id own) name) (Known stray) := by
  unfold methodFrom Machine.methodFrom
  cases hmethod : c.method? name.lexeme with
  | some method => exact (bindThis_meets hobject hc hmethod).bind fun _ _ _ => functionOf_meets
  | none => exact .raise _ _

theorem getProperty_meets {id : Nat} {c : ClassObject} (name : Token)
    (hobject : Known stray w (.object id c)) :
    Meets stray w (getProperty id c name) (Machine.getProperty id c name) (Known stray) := by
  have hfield : Meets stray w (Told.look (Machine.field? id name.lexeme))
      (Machine.field? id name.lexeme) fun w' found => ∀ v ∈ found, Known stray w' v := by
    refine .look (fun _ => rfl) fun hw found hfound v hv => ?_
    cases hfound
    exact hw.held v (Machine.holds_of_field hv)
  unfold getProperty Machine.getProperty
  refine hfield.bind fun w₁ found hw₁ hfound => ?_
  cases found with
  | some v => exact .pure (hfound v rfl)
  | none => exact methodFrom_meets name (hobject.mono hw₁.toGrows) (ClassObject.mem_lineage_self c)

theorem getSuper_eq {m : Machine} {r : Reference} {k id : Nat} {own c : ClassObject}
    (method : Token) (hr : r.hops = some (k + 1))
    (hthis : Binds m m.current k (utf8 "this") (.object id own))
    (hsuper : Binds m m.current (k + 1) (utf8 "super") (.classObject c)) :
    Machine.getSuper r method m = Machine.methodFrom c (.object id own) method m ∧
      ∀ tape, (getSuper r method : Told Value) ⟨tape, m⟩ =
        (methodFrom c (.object id own) method : Told Value) ⟨tape, m⟩ := by
  have hparent := bindingAt_of_binds hsuper
  have hreceiver := bindingAt_of_binds hthis
  constructor
  · unfold Machine.getSuper
    rw [hr]
    change (bindingAt m.current (k + 1) (utf8 "super") >>= _) m = _
    rw [Run.bind_of_done hparent]
    change (bindingAt m.current k (utf8 "this") >>= _) m = _
    rw [Run.bind_of_done hreceiver]
    rfl
  · intro tape
    unfold getSuper
    rw [hr]
    change Told.bind (Told.look (bindingAt m.current (k + 1) (utf8 "super"))) _ ⟨tape, m⟩ = _
    simp only [Told.bind, Told.look, hparent]
    change Told.bind (Told.look (bindingAt m.current k (utf8 "this"))) _ ⟨tape, m⟩ = _
    simp only [Told.bind, Told.look, hreceiver]

/-! ## Variables, the object and its superclass -/

theorem read_meets (r : Reference) :
    Meets stray w (Told.look (Machine.read r)) (Machine.read r) (Known stray) :=
  (Meets.read r).imp fun _ _ hv => hv.1 ▸ hv.2.1

theorem thisRef_meets {Γ : Context} {home : Option Home} {r : Reference}
    (hname : r.name.lexeme = utf8 "this") (hr : r.hops = Γ.hops? (utf8 "this"))
    (hat : Situated w Γ w.machine.current home) (huses : Admits stray home r) :
    Meets stray w (Told.telling (.thisUsed home r) (Told.look (Machine.read r))) (Machine.read r)
      (Known stray) := by
  refine (read_meets r).telling lasts_known (fun _ w' hw' => ?_) (fun _ _ => rfl)
    fun _ _ _ h => nomatch h
  cases home with
  | none => exact huses
  | some h =>
      obtain ⟨hbacks, k, hk, hthis, -⟩ := hat
      refine ⟨hbacks.mono hw'.tape, huses, ?_⟩
      unfold Machine.read
      rw [hr, hk, hname]
      exact bindingAt_of_binds hthis

theorem superRef_meets {Γ : Context} {site : Site} {home : Option Home} {r : Reference}
    {method : Token} (he : (Expr.superRef r method).Scoped Γ site)
    (hat : Situated w Γ w.machine.current home) (hsite : home.isSome = true → site.checked = true)
    (huses : Admits stray home r) :
    Meets stray w (Told.telling (.superUsed home r method) (getSuper r method))
      (Machine.getSuper r method) (Known stray) := by
  simp only [Expr.Scoped] at he
  obtain ⟨hr, hinside, hthis⟩ := he
  cases home with
  | none =>
      -- without a home there is no `this` around, so neither is there a `super`
      have hnone : r.hops = none := by
        cases hhops : r.hops with
        | none => rfl
        | some d =>
            obtain ⟨k, -, hk⟩ := hthis d hhops
            rw [show Γ.hops? (utf8 "this") = none from hat] at hk
            cases hk
      have hraise : Meets stray w (getSuper r method) (Machine.getSuper r method)
          (Known stray) := by
        unfold getSuper Machine.getSuper
        rw [hnone]
        exact .raise _ _
      exact hraise.telling lasts_known (fun _ _ _ => huses) (fun _ _ => rfl)
        fun _ _ _ h => nomatch h
  | some h =>
      obtain ⟨d, hd⟩ := Option.isSome_iff_exists.mp (hinside (hsite rfl))
      obtain ⟨k, rfl, hk⟩ := hthis d hd
      obtain ⟨hbacks, k', hk', hreceiver, hparent⟩ := hat
      obtain rfl : k = k' := Option.some.inj (hk.symm.trans hk')
      obtain ⟨parent, howner, hsuper⟩ := hparent (hr.symm.trans hd)
      have hmethod : Machine.getSuper r method w.machine =
          Machine.methodFrom parent h.receiver method w.machine ∧
            Meets stray w (getSuper r method) (Machine.getSuper r method) (Known stray) := by
        obtain ⟨id, own, hobject, -, hlineage, -⟩ := hbacks
        rw [hobject] at hreceiver ⊢
        obtain ⟨hrun, htold⟩ := getSuper_eq method hd hreceiver hsuper
        refine ⟨hrun, fun hw => ?_⟩
        have hknown := hw.value_of_bindingAt (bindingAt_of_binds hreceiver)
        have hparent : parent ∈ own.lineage :=
          ClassObject.mem_lineage_trans (ClassObject.mem_lineage_of_parent? howner) hlineage
        rw [hrun, htold w.tape]
        exact methodFrom_meets method hknown hparent hw
      refine hmethod.2.telling lasts_known (fun _ w' hw' => ?_) (fun _ _ => rfl)
        fun _ _ _ h => nomatch h
      exact ⟨hbacks.mono hw'.tape, huses, parent, howner, hmethod.1⟩

/-! ## Declarations -/

/-- The class is told of before its name stands for it. -/
theorem declareClass_meets {Γ : Context} {before : Machine} {name : Token}
    {superclass : Option Reference} {parent : Option ClassObject} {methods : List FunctionDecl}
    (hname : name.Nameable) (hinherits : Inherits before superclass parent)
    (hparent : ∀ c ∈ parent, Known stray w (.classObject c))
    (hsuper : Γ.Superless)
    (hmethods : FunctionDecl.ScopedList
      ([utf8 "this"] :: if parent.isSome then [utf8 "super"] :: Γ else Γ) methods) :
    Meets stray w (declareClass before name superclass parent methods)
      (Machine.declareClass name parent methods) fun _ _ => True := by
  have finish {w : World} {Δ : Context} (scope : Nat)
      (hparent : ∀ c ∈ parent, Known stray w (.classObject c))
      (hmethods : FunctionDecl.ScopedList ([utf8 "this"] :: Δ) methods)
      (hsuper : Δ.hops? (utf8 "super") = some 0 → ∃ c, parent = some c ∧
        Binds w.machine scope 0 (utf8 "super") (.classObject c)) :
      Meets stray w (do
        let id ← Told.move Machine.newIdentity
        let c := .mk id name.lexeme parent (Machine.methodsIn scope methods)
        Told.note (.declared before name superclass methods scope c)
          (Told.move (Machine.assign name.lexeme (.classObject c))))
        (do
        let id ← Machine.newIdentity
        Machine.assign name.lexeme
          (.classObject (.mk id name.lexeme parent (Machine.methodsIn scope methods))))
        fun _ _ => True := by
    refine Meets.newIdentity.bind fun w₁ id hw₁ hid => ?_
    have hparent₁ : ∀ c ∈ parent, Known stray w₁ (.classObject c) :=
      fun c hc => (hparent c hc).mono hw₁.toGrows
    refine .note rfl (fun _ => ?_) ?_ nofun (.assign hname ?_)
    · exact ⟨rfl, rfl, hinherits, fun c hc => (hparent₁ c hc).lists, hid.1⟩
    · rintro kind i ⟨⟩
      exact hid.2
    · have hw₂ := w₁.leads_tell (.declared before name superclass methods scope
        (.mk id name.lexeme parent (Machine.methodsIn scope methods)))
      intro a ha
      rcases ClassObject.mem_lineage.mp ha with rfl | ⟨c, hc, ha⟩
      · refine ⟨before, name, superclass, methods, scope, List.mem_cons_self, rfl, Δ, hmethods,
          fun hzero => ?_⟩
        obtain ⟨c, hc, hbinds⟩ := hsuper hzero
        exact ⟨c, hc, binds_mono (hw₁.trans hw₂).scopes (.inr rfl) hbinds⟩
      · exact (hparent₁ c hc a ha).mono hw₂.toGrows
  unfold declareClass Machine.declareClass
  refine (Meets.define (v := .nil) hname trivial).bind fun w₁ _ hw₁ _ => ?_
  refine Meets.currentScope.bind fun w₂ outer hw₂ _ => ?_
  have hparent₂ : ∀ c ∈ parent, Known stray w₂ (.classObject c) :=
    fun c hc => (hparent c hc).mono (hw₁.trans hw₂).toGrows
  cases parent with
  | none =>
      refine (Meets.pure (Q := fun w' _ => w' = w₂) rfl).bind fun w₃ scope _ hw₃ => ?_
      subst hw₃
      exact finish scope hparent₂ hmethods fun hzero => (hsuper hzero).elim
  | some c =>
      have hbound := hparent₂ c rfl
      refine (Meets.newScope outer (.single _ hbound)).bind fun w₃ scope hw₃ hscope => ?_
      refine finish scope (fun c hc => (hparent₂ c hc).mono hw₃.toGrows) hmethods fun _ => ?_
      exact ⟨c, rfl, binds_zero hscope (by simp [Bindings.get?_cons])⟩

/-! ## Trees and calls -/

def KnownSignal (stray : Reference → Prop) (w : World) : Signal → Prop
  | .normal => True
  | .returned v => Known stray w v

theorem lasts_knownSignal : Lasts (KnownSignal stray) := by
  intro w w' signal hw h
  cases signal with
  | normal => trivial
  | returned v => exact h.mono hw

theorem Situated.after {w' : World} {Γ : Context} {home : Option Home} (hw : w.Leads w')
    (h : Situated w Γ w.machine.current home) : Situated w' Γ w'.machine.current home := by
  rw [hw.current]
  exact h.mono hw.toGrows

theorem Situated.contextAfter {s : Stmt} {Γ : Context} {i : Nat} {home : Option Home}
    (hs : s.Scoped Γ) (h : Situated w Γ i home) : Situated w (s.contextAfter Γ) i home := by
  unfold Stmt.contextAfter
  cases hdeclared : s.declared? with
  | none => exact h
  | some name => exact h.declare (hs.nameable name hdeclared)

theorem inScope_meets {Γ : Context} (names : List Token) {bindings : Bindings Value}
    {home : Option Home} {i k : Nat} {t : Told Signal} {p : Run Signal}
    (hnames : ∀ name ∈ names, name.Nameable) (hat : Situated w Γ i home)
    (hk : w.machine.scopes[k]? = some { parent := some i, bindings })
    (h : ∀ w', Situated w' (names.map Token.lexeme :: Γ) w'.machine.current home →
      Context.Superless (names.map Token.lexeme :: Γ) →
      Meets stray w' t p (KnownSignal stray)) :
    Meets stray w (Told.inScope k t) (Machine.inScope k p) (KnownSignal stray) := by
  refine .inScope lasts_knownSignal (h _ ?_ (Context.superless_cons hnames Γ))
  obtain ⟨hthis, hsuper⟩ := Token.not_mem_lexemes hnames
  exact (hat.enter hthis hsuper hk).mono ⟨List.subset_cons_self _ _, .refl _⟩

-- The induction is on fuel.  Every part of a tree runs at the home of the whole, in the same
-- scope; a body runs one scope further in.
mutual

theorem eval_meets (n : Nat) (place : Place) (e : Expr) {w : World} {Γ : Context} {site : Site}
    (he : e.Scoped Γ site) (hat : Situated w Γ w.machine.current place.home)
    (hsite : place.home.isSome = true → site.checked = true)
    (huses : ∀ r ∈ e.selves, Admits stray place.home r) :
    Meets stray w (eval n place e) (Machine.eval n e) (Known stray) := by
  match n with
  | 0 => exact .stop _
  | n + 1 =>
      refine .giving ?_
      cases e with
      | absent => exact .stop _
      | literal span value => exact .pure (known_ofLiteral value)
      | grouping span inner =>
          simp only [Expr.Scoped] at he
          simp only [Expr.selves] at huses
          exact eval_meets n place inner he hat hsite huses
      | unary span operator operand =>
          simp only [Expr.Scoped] at he
          simp only [Expr.selves] at huses
          refine (eval_meets n place operand he hat hsite huses).bind fun w₁ v _ _ => ?_
          exact settles_meets (Machine.applyUnary_settles operator v)
      | binary span operator left right =>
          simp only [Expr.Scoped] at he
          simp only [Expr.selves, List.forall_mem_append] at huses
          refine (eval_meets n place left he.1 hat hsite huses.1).bind fun w₁ u hw₁ _ => ?_
          refine (eval_meets n place right he.2 (hat.after hw₁) hsite huses.2).bind
            fun w₂ v _ _ => ?_
          exact settles_meets (Machine.applyBinary_settles operator u v)
      | logical span operator left right =>
          simp only [Expr.Scoped] at he
          simp only [Expr.selves, List.forall_mem_append] at huses
          refine (eval_meets n place left he.1 hat hsite huses.1).bind fun w₁ v hw₁ hv => ?_
          refine .ite (fun _ => .pure hv) fun _ => ?_
          exact eval_meets n place right he.2 (hat.after hw₁) hsite huses.2
      | var r => exact .unnoted (.uses _ _) rfl (read_meets r)
      | assign target value =>
          simp only [Expr.Scoped] at he
          simp only [Expr.selves] at huses
          refine (eval_meets n place value he.2.2 hat hsite huses).bind fun w₁ v _ hv => ?_
          refine (Meets.unnoted (.uses _ _) rfl (Meets.write he.2.1 hv)).bind fun w₂ _ hw₂ _ => ?_
          exact .pure (hv.mono hw₂.toGrows)
      | call span callee paren arguments =>
          simp only [Expr.Scoped] at he
          simp only [Expr.selves, List.forall_mem_append] at huses
          refine (eval_meets n place callee he.1 hat hsite huses.1).bind fun w₁ f hw₁ hf => ?_
          refine (evalList_meets n place arguments he.2 (hat.after hw₁) hsite huses.2).bind
            fun w₂ vs hw₂ hvs => ?_
          exact callValue_meets n paren (hf.mono hw₂.toGrows) hvs
      | get span object name =>
          simp only [Expr.Scoped] at he
          simp only [Expr.selves] at huses
          refine (eval_meets n place object he hat hsite huses).bind fun w₁ v _ hv => ?_
          cases v with
          | object id c => exact getProperty_meets name hv
          | _ => exact .raise _ _
      | set span object name value =>
          simp only [Expr.Scoped] at he
          simp only [Expr.selves, List.forall_mem_append] at huses
          refine (eval_meets n place object he.1 hat hsite huses.1).bind fun w₁ u hw₁ _ => ?_
          cases u with
          | object id c =>
              refine (eval_meets n place value he.2 (hat.after hw₁) hsite huses.2).bind
                fun w₂ v _ hv => ?_
              refine (Meets.setField id name.lexeme hv).bind fun w₃ _ hw₃ _ => ?_
              exact .pure (hv.mono hw₃.toGrows)
          | _ => exact .raise _ _
      | thisRef r =>
          simp only [Expr.Scoped] at he
          exact thisRef_meets he.1 he.2 hat (huses r (by simp [Expr.selves]))
      | superRef r method =>
          exact superRef_meets he hat hsite (huses r (by simp [Expr.selves]))
termination_by structural n

theorem evalList_meets (n : Nat) (place : Place) (es : List Expr) {w : World} {Γ : Context}
    {site : Site} (hes : Expr.ScopedList Γ site es)
    (hat : Situated w Γ w.machine.current place.home)
    (hsite : place.home.isSome = true → site.checked = true)
    (huses : ∀ r ∈ Expr.selvesList es, Admits stray place.home r) :
    Meets stray w (evalList n place es) (Machine.evalList n es)
      fun w' vs => ∀ v ∈ vs, Known stray w' v := by
  match n with
  | 0 => exact .stop _
  | n + 1 =>
      cases es with
      | nil => exact .pure (by simp)
      | cons e rest =>
          simp only [Expr.ScopedList] at hes
          simp only [Expr.selvesList, List.forall_mem_append] at huses
          refine (eval_meets n place e hes.1 hat hsite huses.1).bind fun w₁ v hw₁ hv => ?_
          refine (evalList_meets n place rest hes.2 (hat.after hw₁) hsite huses.2).bind
            fun w₂ vs hw₂ hvs => ?_
          exact .pure (List.forall_mem_cons.mpr ⟨hv.mono hw₂.toGrows, hvs⟩)
termination_by structural n

theorem callValue_meets (n : Nat) {w : World} {f : Value} {vs : List Value} (paren : Token)
    (hf : Known stray w f) (hvs : ∀ v ∈ vs, Known stray w v) :
    Meets stray w (callValue n f vs paren) (Machine.callValue n f vs paren) (Known stray) := by
  match n with
  | 0 => exact .stop _
  | n + 1 =>
      cases f with
      | native f =>
          refine .unnoted (.passed _ _) rfl (.ite (fun _ => .raise _ _) fun _ => ?_)
          exact applyNative_meets f vs paren
      | function id code =>
          obtain ⟨home, hmem, hlives⟩ := hf
          refine .ite (fun _ => .unnoted (.passed _ _) rfl (.raise _ _)) fun _ => ?_
          exact .withHome hmem (callClosure_meets n (.function id code) paren hlives hvs)
      | classObject c =>
          refine .ite (fun _ => .unnoted (.passed _ _) rfl (.raise _ _)) fun _ => ?_
          refine (newObject_meets hf).bind fun w₁ object hw₁ hobject => ?_
          obtain ⟨id, rfl, hobject⟩ := hobject
          cases hinit : c.initializer? with
          | none => exact .unnoted (.passed _ _) rfl (.pure hobject)
          | some method =>
              refine (bindThis_meets hobject (ClassObject.mem_lineage_self c) hinit).bind
                fun w₂ code hw₂ hcode => ?_
              have hvs₂ := fun v hv => (hvs v hv).mono (hw₁.trans hw₂).toGrows
              refine (callClosure_meets n (.classObject c) paren hcode hvs₂).bind
                fun w₃ _ hw₃ _ => ?_
              exact .pure (hobject.mono (hw₂.trans hw₃).toGrows)
      | _ => exact .unnoted (.passed _ _) rfl (.raise _ _)
termination_by structural n

theorem callClosure_meets (n : Nat) {w : World} {home : Option Home} (callee : Value)
    {code : Closure} {vs : List Value} (paren : Token) (hcode : Lives stray w code home)
    (hvs : ∀ v ∈ vs, Known stray w v) :
    Meets stray w (callClosure n home callee code vs paren) (Machine.callClosure n code vs paren)
      (Known stray) := by
  match n with
  | 0 => exact .stop _
  | n + 1 =>
      obtain ⟨Γ, hscoped, hat, huses⟩ := hcode
      obtain ⟨hnames, -, hbody⟩ := (FunctionDecl.scoped_iff _ _).mp hscoped
      rw [FunctionDecl.selves_eq] at huses
      refine Meets.isFull.bind fun w₁ full _ hw₁ => ?_
      subst hw₁
      refine .ite (fun _ => .unnoted (.refused _ _) rfl (.raise _ _))
        fun _ => .deeper lasts_known ?_
      have hgrows : w₁.Grows (w₁.moved { w₁.machine with depth := w₁.machine.depth + 1 }) :=
        ⟨List.subset_cons_self _ _, .refl _⟩
      have hvs₁ := fun v hv => (hvs v hv).mono hgrows
      refine (bindParameters_meets code.declaration.parameters hvs₁).bind
        fun w₁ bindings _ hbound => ?_
      obtain ⟨rfl, hbound⟩ := hbound
      refine (Meets.newScope code.scope hbound).bind fun w₂ k hw₂ hk => ?_
      refine (inScope_meets _ hnames ((hat.mono hgrows).mono hw₂.toGrows) hk
        fun w' hat' hsuper' => execList_meets n _ hbody hat' hsuper' huses).bind
        fun w₃ signal _ hsignal => ?_
      refine .ite (fun _ => ?_) fun _ => ?_
      · exact .unnoted (.uses _ _) rfl (.bindingAt _ _ _)
      · cases signal with
        | normal => exact .pure trivial
        | returned v => exact .pure hsignal
termination_by structural n

theorem exec_meets (n : Nat) (s : Stmt) {w : World} {Γ : Context} {home : Option Home}
    (hs : s.Scoped Γ) (hat : Situated w Γ w.machine.current home)
    (hsuper : Γ.Superless) (huses : ∀ r ∈ s.selves, Admits stray home r) :
    Meets stray w (exec n home s) (Machine.exec n s) (KnownSignal stray) := by
  match n with
  | 0 => exact .stop _
  | n + 1 =>
      have hsite : home.isSome = true → ({} : Site).checked = true := fun _ => rfl
      refine .unnoted (.statement _) rfl ?_
      cases s with
      | expression span e =>
          simp only [Stmt.Scoped] at hs
          simp only [Stmt.selves] at huses
          refine (eval_meets n { home } e hs hat hsite huses).bind fun w₁ _ _ _ => ?_
          exact .pure trivial
      | print span e =>
          simp only [Stmt.Scoped] at hs
          simp only [Stmt.selves] at huses
          refine (eval_meets n { home } e hs hat hsite huses).bind fun w₁ v _ _ => ?_
          exact (Meets.printLine _).bind fun _ _ _ _ => .pure trivial
      | var span name initial =>
          have hname := hs.nameable name rfl
          cases initial with
          | none =>
              exact (Meets.define (v := .nil) hname trivial).bind fun _ _ _ _ => .pure trivial
          | some initial =>
              simp only [Stmt.Scoped] at hs
              simp only [Stmt.selves] at huses
              refine (eval_meets n { home, pending := some name.lexeme } initial hs.2
                (hat.declare hname) hsite huses).bind fun w₁ v _ hv => ?_
              exact (Meets.define hname hv).bind fun _ _ _ _ => .pure trivial
      | block span body =>
          simp only [Stmt.Scoped] at hs
          simp only [Stmt.selves] at huses
          refine Meets.currentScope.bind fun w₁ outer _ houter => ?_
          obtain ⟨rfl, rfl⟩ := houter
          refine (Meets.newScope _ .nil).bind fun w₂ k hw₂ hk => ?_
          exact inScope_meets [] (List.forall_mem_nil _) (hat.mono hw₂.toGrows) hk
            fun w' hat' hsuper' => execList_meets n body hs hat' hsuper' huses
      | branch span condition onTrue onFalse =>
          have hparts : condition.Scoped Γ {} ∧ onTrue.Scoped Γ ∧
              ∀ s ∈ onFalse, s.Scoped Γ := by
            cases onFalse <;> simp only [Stmt.Scoped] at hs
            · exact ⟨hs.1, hs.2.1, nofun⟩
            · refine ⟨hs.1, hs.2.1, ?_⟩
              rintro s ⟨⟩
              exact hs.2.2.2.1
          have hused : (∀ r ∈ condition.selves, Admits stray home r) ∧
              (∀ r ∈ onTrue.selves, Admits stray home r) ∧
              ∀ s ∈ onFalse, ∀ r ∈ s.selves, Admits stray home r := by
            cases onFalse <;> simp only [Stmt.selves, List.forall_mem_append] at huses
            · exact ⟨huses.1, huses.2, nofun⟩
            · refine ⟨huses.1.1, huses.1.2, ?_⟩
              rintro s ⟨⟩
              exact huses.2
          obtain ⟨hcondition, hTrue, hFalse⟩ := hparts
          refine (eval_meets n { home } condition hcondition hat hsite hused.1).bind
            fun w₁ v hw₁ _ => ?_
          have hat₁ := hat.after hw₁
          refine .ite (fun _ => exec_meets n onTrue hTrue hat₁ hsuper hused.2.1) fun _ => ?_
          cases onFalse with
          | none => exact .pure trivial
          | some onFalse =>
              exact exec_meets n onFalse (hFalse _ rfl) hat₁ hsuper (hused.2.2 _ rfl)
      | loop span condition body =>
          simp only [Stmt.Scoped] at hs
          simp only [Stmt.selves, List.forall_mem_append] at huses
          exact execLoop_meets n condition body hs.1 hs.2.1 hat hsuper huses.1 huses.2
      | function f =>
          have hname := hs.nameable f.name rfl
          simp only [Stmt.Scoped] at hs
          simp only [Stmt.selves] at huses
          refine Meets.currentScope.bind fun w₁ scope _ hscope => ?_
          obtain ⟨rfl, rfl⟩ := hscope
          have hlives : Lives stray w₁ { declaration := f, scope := w₁.machine.current } home :=
            ⟨_, hs.2, hat.declare hname, huses⟩
          refine (functionOf_meets hlives).bind fun w₂ v _ hv => ?_
          exact (Meets.define hname hv).bind fun _ _ _ _ => .pure trivial
      | ret span keyword value =>
          cases value with
          | none => exact .unnoted (.returned _) rfl (.pure trivial)
          | some e =>
              simp only [Stmt.Scoped] at hs
              simp only [Stmt.selves] at huses
              refine (eval_meets n { home } e hs hat hsite huses).bind fun w₁ _ _ hv => ?_
              exact .unnoted (.returned _) rfl (.pure hv)
      | classDecl span name superclass methods =>
          have hname := hs.nameable name rfl
          have hsuper' := hsuper.declare hname
          cases superclass with
          | none =>
              simp only [Stmt.Scoped] at hs
              have hinherits : Inherits w.machine none none := rfl
              have hparent : ∀ d ∈ none, Known stray w (.classObject d) := nofun
              exact .asking ((declareClass_meets hname hinherits hparent hsuper' hs.2).bind
                fun _ _ _ _ => .pure trivial)
          | some r =>
              simp only [Stmt.Scoped] at hs
              refine .asking ((Meets.unnoted (.uses _ _) rfl (Meets.read r)).bind
                fun w₁ v _ hv => ?_)
              obtain ⟨rfl, hknown, hread⟩ := hv
              cases v with
              | classObject c =>
                  have hparent : ∀ d ∈ some c, Known stray w₁ (.classObject d) := by
                    rintro d ⟨⟩
                    exact hknown
                  have hinherits : Inherits w₁.machine (some r) (some c) := ⟨c, rfl, hread⟩
                  exact (declareClass_meets hname hinherits hparent hsuper' hs.2.2).bind
                    fun _ _ _ _ => .pure trivial
              | _ => exact .raise _ _
termination_by structural n

theorem execList_meets (n : Nat) (body : List Stmt) {w : World} {Γ : Context}
    {home : Option Home} (hbody : Stmt.ScopedList Γ body)
    (hat : Situated w Γ w.machine.current home) (hsuper : Γ.Superless)
    (huses : ∀ r ∈ Stmt.selvesList body, Admits stray home r) :
    Meets stray w (execList n home body) (Machine.execList n body) (KnownSignal stray) := by
  match n with
  | 0 => exact .stop _
  | n + 1 =>
      cases body with
      | nil => exact .pure trivial
      | cons s rest =>
          simp only [Stmt.ScopedList] at hbody
          simp only [Stmt.selvesList, List.forall_mem_append] at huses
          refine (exec_meets n s hbody.1 hat hsuper huses.1).bind fun w₁ signal hw₁ hsignal => ?_
          cases signal with
          | returned v => exact .pure hsignal
          | normal =>
              have hat₁ := (hat.after hw₁).contextAfter hbody.1
              exact execList_meets n rest hbody.2 hat₁ (hsuper.contextAfter hbody.1) huses.2
termination_by structural n

theorem execLoop_meets (n : Nat) (condition : Expr) (body : Stmt) {w : World} {Γ : Context}
    {home : Option Home} (hcondition : condition.Scoped Γ {}) (hbody : body.Scoped Γ)
    (hat : Situated w Γ w.machine.current home) (hsuper : Γ.Superless)
    (hcuses : ∀ r ∈ condition.selves, Admits stray home r)
    (huses : ∀ r ∈ body.selves, Admits stray home r) :
    Meets stray w (execLoop n home condition body) (Machine.execLoop n condition body)
      (KnownSignal stray) := by
  match n with
  | 0 => exact .stop _
  | n + 1 =>
      refine (eval_meets n { home } condition hcondition hat (fun _ => rfl) hcuses).bind
        fun w₁ v hw₁ _ => ?_
      have hat₁ := hat.after hw₁
      refine .ite (fun _ => ?_) fun _ => .pure trivial
      refine (exec_meets n body hbody hat₁ hsuper huses).bind fun w₂ signal hw₂ hsignal => ?_
      cases signal with
      | returned v => exact .pure hsignal
      | normal =>
          exact execLoop_meets n condition body hcondition hbody (hat₁.after hw₂) hsuper hcuses
            huses
termination_by structural n

end

theorem execProgram_meets (n : Nat) (program : List Stmt) {w : World}
    (hprogram : Stmt.ScopedList [] program)
    (huses : ∀ r ∈ Stmt.selvesList program, stray r) :
    Meets stray w (execProgram n program) (Machine.execProgram n program) fun _ _ => True := by
  induction program generalizing w with
  | nil => exact .pure trivial
  | cons s rest ih =>
      simp only [Stmt.ScopedList, Stmt.contextAfter_nil] at hprogram
      simp only [Stmt.selvesList, List.forall_mem_append] at huses
      have hs : Meets stray w (exec n none s) (Machine.exec n s) (KnownSignal stray) :=
        exec_meets n s hprogram.1 rfl Context.superless_nil huses.1
      exact hs.bind fun _ _ _ _ => ih hprogram.2 huses.2

end Objects

end Lox
