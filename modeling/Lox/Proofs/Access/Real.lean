import Lox.Proofs.Lexical.Refinement
import Lox.Proofs.Recorded.Session

/-!
Every access by distance finds its name.

A visit is a use of a name by its distance, with the machine at that moment.  The simulation
by locations says of every point of a run which scopes are around it and what they bind.  So
each visit finds the name where its distance says, and recording the visits changes nothing
about the run.
-/

namespace Lox.Access

open Lexical (World State Related EnvRel Grows Sim Exact Env ValueRel ClosureRel)
open Recorded (Log Place Quiet Traced Use eval evalList callValue callClosure exec execList
  execLoop execProgram)
open Resolution (Context Site)

structure Visit where
  site : Site
  use : Use
  machine : Machine

instance : Log Visit where
  note
    | .uses site use, machine => [{ site, use, machine }]
    | _, _ => []

instance : Log.Discreet Visit where
  move _ _ _ := rfl
  birth note _ h := by
    cases note with
    | declared | created | made => rfl
    | _ => exact h.elim

/-- The scope at that distance from `i` exists, and its own bindings give the name the value. -/
def Binds (m : Machine) (i d : Nat) (x : Bytes) (v : Value) : Prop :=
  ∃ j scope, m.scopes.ancestor? i d = some j ∧ m.scopes[j]? = some scope ∧
    scope.bindings.get? x = some v

/--
What is used by its distance is there.  In a checked program `super` has a distance.  A
variable that gets a new value has one already, but for an assignment inside its own
initializer, and it is never a global.
-/
def Visit.Real (v : Visit) : Prop :=
  match v.use with
  | .name r =>
      ∀ d ∈ r.hops, ∃ value, Binds v.machine v.machine.current d r.name.lexeme value
  | .super r =>
      (v.site.checked = true → r.hops.isSome = true) ∧
        ∀ d ∈ r.hops, ∃ k c id own, d = k + 1 ∧
          Binds v.machine v.machine.current d (utf8 "super") (.classObject c) ∧
          Binds v.machine v.machine.current k (utf8 "this") (.object id own)
  | .target r =>
      ∀ d ∈ r.hops, ∃ j scope, v.machine.scopes.ancestor? v.machine.current d = some j ∧
        j ≠ Machine.globalScope ∧ v.machine.scopes[j]? = some scope ∧
        (scope.bindings.has r.name.lexeme = true ∨
          d = 0 ∧ v.site.pending = some r.name.lexeme)
  | .receiver scope => ∃ id c, Binds v.machine scope 0 (utf8 "this") (.object id c)

/-! ## What the scopes around a point bind -/

section Points

variable {w : World} {pending : Option Bytes} {Γ : Context} {i d : Nat} {ρ : Env} {m : Machine}
  {s : State} {x : Bytes}

theorem binds_of_envRel (henv : EnvRel w pending Γ i ρ) (h : Related w m s)
    (hd : Γ.hops? x = some d) (hx : pending ≠ some x) : ∃ v, Binds m i d x v := by
  obtain ⟨j, scope, names, inner, pending', hj, -, hscope, hholds, hmem, -, hpending⟩ :=
    henv.placed.scope hd
  have hready : pending' ≠ some x := by
    rcases hpending with rfl | ⟨rfl, -⟩
    · simp
    · exact hx
  obtain ⟨v, hv⟩ := Option.isSome_iff_exists.mp (hholds.bound x hmem hready)
  rw [h.scopes] at hj hscope
  exact ⟨v, j, scope, hj, hscope, hv⟩

theorem binds_this (henv : EnvRel w pending Γ i ρ) (h : Related w m s)
    (hd : Γ.hops? (utf8 "this") = some d) :
    ∃ id c, Binds m i d (utf8 "this") (.object id c) := by
  obtain ⟨j, scope, names, inner, pending', hj, -, hscope, hholds, hmem, -⟩ :=
    henv.placed.scope hd
  obtain ⟨id, c, hget⟩ := hholds.this hmem
  rw [h.scopes] at hj hscope
  exact ⟨id, c, j, scope, hj, hscope, hget⟩

theorem binds_super (henv : EnvRel w pending Γ i ρ) (h : Related w m s)
    (hd : Γ.hops? (utf8 "super") = some d) :
    ∃ c, Binds m i d (utf8 "super") (.classObject c) := by
  obtain ⟨j, scope, names, inner, pending', hj, -, hscope, hholds, hmem, -⟩ :=
    henv.placed.scope hd
  obtain ⟨c, hget⟩ := hholds.super hmem
  rw [h.scopes] at hj hscope
  exact ⟨c, j, scope, hj, hscope, hget⟩

theorem target_of_envRel (henv : EnvRel w pending Γ i ρ) (h : Related w m s)
    (hd : Γ.hops? x = some d) :
    ∃ j scope, m.scopes.ancestor? i d = some j ∧ j ≠ Machine.globalScope ∧
      m.scopes[j]? = some scope ∧ (scope.bindings.has x = true ∨ d = 0 ∧ pending = some x) := by
  obtain ⟨j, scope, names, inner, pending', hj, hj0, hscope, hholds, hmem, -, hpending⟩ :=
    henv.placed.scope hd
  rw [h.scopes] at hj hscope
  refine ⟨j, scope, hj, hj0, hscope, ?_⟩
  by_cases hready : pending' = some x
  · rcases hpending with rfl | ⟨rfl, rfl⟩
    · simp at hready
    · exact .inr ⟨rfl, hready⟩
  · exact .inl (hholds.bound x hmem hready)

end Points

/-! ## Runs whose visits are real -/

/--
From corresponding states in the world `w`, the machine being in the scope `i`, the
traced run does what the run does, and all its visits are real.
-/
def Watched (i : Nat) (w : World) (t : Traced Visit α) (p : Run α) : Prop :=
  ∀ m s, Related w m s → m.current = i → t.run m = p m ∧ ∀ v ∈ (t m).2, v.Real

namespace Watched

variable {i : Nat} {w : World} {α β γ : Type} {t : Traced Visit α} {p : Run α}

theorem quiet (h : Quiet t p) : Watched i w t p := by
  intro m s _ _
  exact ⟨by simp [Traced.run, h m], by simp [h m]⟩

theorem pure (v : α) : Watched i w (Pure.pure v) (Pure.pure v) := quiet (.pure v)

theorem silent (p : Run α) : Watched i w (Traced.silent p) p := quiet (.silent p)

theorem visiting {site : Site} {use : Use}
    (h : ∀ m s, Related w m s → m.current = i → Visit.Real ⟨site, use, m⟩) (ht : Quiet t p) :
    Watched i w (Traced.noting (.uses site use) t) p := by
  intro m s hrel hi
  simp only [Traced.run, Traced.noting, ht m]
  refine ⟨trivial, fun v hv => ?_⟩
  obtain rfl := List.mem_singleton.mp hv
  exact h m s hrel hi

theorem aside {note : Recorded.Note} (hnote : ∀ m, (Log.note note m : List Visit) = [])
    (h : Watched i w t p) : Watched i w (Traced.noting note t) p := by
  intro m s hrel hi
  obtain ⟨hrun, hvisits⟩ := h m s hrel hi
  simp only [Traced.run, Traced.noting, hnote, List.nil_append]
  exact ⟨hrun, hvisits⟩

theorem bind {q : Lexical.Run γ} {R : World → α → γ → Prop} {rest : α → Traced Visit β}
    {f : α → Run β} (ht : Watched i w t p) (hp : Sim (fun _ => False) i w p q R)
    (hf : ∀ w' v v', Grows (fun _ => False) w w' → R w' v v' → Watched i w' (rest v) (f v)) :
    Watched i w (t >>= rest) (p >>= f) := by
  intro m s hrel hi
  obtain ⟨hrun, hvisits⟩ := ht m s hrel hi
  have hfirst : (t m).1 = p m := hrun
  change Run.bind t.run (fun v => (rest v).run) m = Run.bind p f m ∧
    ∀ v ∈ (t m).2 ++ Traced.next rest (t m).1, v.Real
  unfold Run.bind
  rw [hrun, hfirst]
  have hends := hp m s hrel hi (fun _ hF => hF.elim)
  generalize hpm : p m = out at hends
  generalize hqs : q s = out' at hends
  cases hends with
  | fault hw h hi => exact ⟨rfl, by simpa [Traced.next] using hvisits⟩
  | done hw h hi hv =>
      obtain ⟨hrun', hvisits'⟩ := hf _ _ _ hw hv _ _ h hi
      refine ⟨hrun', fun v hmem => ?_⟩
      rcases List.mem_append.mp hmem with hmem | hmem
      · exact hvisits v hmem
      · exact hvisits' v hmem

theorem asking {t : Machine → Traced Visit α} (h : ∀ m, Watched i w (t m) p) :
    Watched i w (Traced.asking t) p :=
  fun m => h m m

theorem after {q : Lexical.Run γ} {R : World → Unit → γ → Prop}
    (hq : Sim (fun _ => False) i w (Pure.pure ()) q R)
    (ht : ∀ w' v', Grows (fun _ => False) w w' → R w' () v' → Watched i w' t p) :
    Watched i w t p := by
  intro m s hrel hi
  have hends := hq m s hrel hi (fun _ hF => hF.elim)
  generalize hpm : (Pure.pure () : Run Unit) m = out at hends
  generalize hqs : q s = out' at hends
  cases hends with
  | fault hw h hi => cases hpm
  | done hw h hi hv =>
      cases hpm
      exact ht _ _ hw hv _ _ h hi

theorem ite {c : Prop} [Decidable c] {t' : Traced Visit α} {p' : Run α}
    (hthen : c → Watched i w t p) (helse : ¬c → Watched i w t' p') :
    Watched i w (if c then t else t') (if c then p else p') := by
  by_cases h : c
  · simpa [h] using hthen h
  · simpa [h] using helse h

theorem activation {t : Traced Visit Value} {p : Run Value} (callee : Value)
    (arguments : List Value) (h : Watched i w t p) :
    Watched i w (Traced.activation callee arguments t) (Machine.deeper p) := by
  intro m s hrel hi
  have hrel' : Related w { m with depth := m.depth + 1 }
      { s with machine := { s.machine with depth := s.machine.depth + 1 } } :=
    { hrel with depth := by simp [hrel.depth] }
  obtain ⟨hrun, hvisits⟩ := h _ _ hrel' hi
  refine ⟨?_, fun v hv => hvisits v ?_⟩
  · change Machine.deeper t.run m = Machine.deeper p m
    unfold Machine.deeper
    rw [hrun]
  · simpa [Traced.activation, Log.move, Log.activation] using hv

theorem inScope {k : Nat} (h : Watched k w t p) :
    Watched i w (Traced.inScope k t) (Machine.inScope k p) := by
  intro m s hrel _
  obtain ⟨hrun, hvisits⟩ := h { m with current := k } s { hrel with } rfl
  refine ⟨?_, fun v hv => hvisits v ?_⟩
  · change Machine.inScope k t.run m = Machine.inScope k p m
    unfold Machine.inScope
    rw [hrun]
  · simpa [Traced.inScope, Log.move] using hv

end Watched

/-! ## Evaluation -/

theorem statement_note (s : Stmt) (t : Traced Visit α) :
    Recorded.Recorder.note (.statement s) t = t := rfl

structure Covers (site site' : Site) : Prop where
  checked : site'.checked = true → site.checked = true
  pending : ∀ x ∈ site.pending, x ∈ site'.pending

theorem Covers.refl (site : Site) : Covers site site := ⟨fun h => h, fun _ h => h⟩

theorem name_watched {i : Nat} {w : World} {pending : Option Bytes} {Γ : Context} {ρ : Env}
    (site : Site) {r : Reference} (henv : EnvRel w pending Γ i ρ)
    (hr : r.hops = Γ.hops? r.name.lexeme) (hx : pending ≠ some r.name.lexeme) :
    Watched i w (Traced.noting (.uses site (.name r)) (Traced.silent (Machine.read r)))
      (Machine.read r) := by
  refine .visiting ?_ (.silent _)
  intro m s hrel hi d hd
  rw [hi]
  exact binds_of_envRel henv hrel (hr.symm.trans hd) hx

theorem this_watched {i : Nat} {w : World} {pending : Option Bytes} {Γ : Context} {ρ : Env}
    (site : Site) {r : Reference} (henv : EnvRel w pending Γ i ρ)
    (hname : r.name.lexeme = utf8 "this") (hr : r.hops = Γ.hops? (utf8 "this")) :
    Watched i w (Traced.noting (.uses site (.name r)) (Traced.silent (Machine.read r)))
      (Machine.read r) := by
  refine .visiting ?_ (.silent _)
  intro m s hrel hi d hd
  obtain ⟨id, c, hthis⟩ := binds_this henv hrel (hr.symm.trans hd)
  exact ⟨.object id c, by rw [hi, hname]; exact hthis⟩

theorem super_watched {i : Nat} {w : World} {Γ : Context} {ρ : Env} {site site' : Site}
    {r : Reference} {method : Token} (henv : EnvRel w site.pending Γ i ρ)
    (he : (Expr.superRef r method).Scoped Γ site) (hat : Covers site site') :
    Watched i w (Traced.noting (.uses site' (.super r)) (Recorded.getSuper r method))
      (Machine.getSuper r method) := by
  simp only [Expr.Scoped] at he
  obtain ⟨hr, hinside, hthis⟩ := he
  refine .visiting ?_ (.getSuper r method)
  intro m s hrel hi
  refine ⟨fun h => hinside (hat.checked h), fun d hd => ?_⟩
  obtain ⟨k, rfl, hk⟩ := hthis d hd
  obtain ⟨c, hsuper⟩ := binds_super henv hrel (hr.symm.trans hd)
  obtain ⟨id, own, hobject⟩ := binds_this henv hrel hk
  exact ⟨k, c, id, own, rfl, hi ▸ hsuper, hi ▸ hobject⟩

theorem target_watched {i : Nat} {w : World} {Γ : Context} {ρ : Env} {site site' : Site}
    {r : Reference} (v : Value) (henv : EnvRel w site.pending Γ i ρ)
    (hr : r.hops = Γ.hops? r.name.lexeme) (hat : Covers site site') :
    Watched i w
      (Traced.noting (.uses site' (.target r)) (Traced.move (.assigns r) (Machine.write r v)))
      (Machine.write r v) := by
  refine .visiting ?_ (.move _ _)
  intro m s hrel hi d hd
  obtain ⟨j, scope, hj, hj0, hscope, hbound⟩ := target_of_envRel henv hrel (hr.symm.trans hd)
  refine ⟨j, scope, hi ▸ hj, hj0, hscope, ?_⟩
  exact hbound.imp_right fun hp => ⟨hp.1, hat.pending _ hp.2⟩

mutual

theorem eval_watched (n : Nat) (e : Expr) {i : Nat} {w : World} {site : Site} {place : Place}
    {Γ : Context} {ρ : Env} (henv : EnvRel w site.pending Γ i ρ) (he : e.Scoped Γ site)
    (hat : Covers site place.toSite) : Watched i w (eval n place e) (Machine.eval n e) := by
  match n with
  | 0 => exact .silent _
  | n + 1 =>
      cases e with
      | absent => exact .silent _
      | literal span value => exact .pure _
      | grouping span inner =>
          simp only [Expr.Scoped] at he
          exact eval_watched n inner henv he hat
      | unary span operator operand =>
          simp only [Expr.Scoped] at he
          simp only [Machine.eval, eval]
          refine (eval_watched n operand henv he hat).bind (Lexical.eval_sim n operand henv he)
            fun w₁ v v' _ _ => ?_
          exact .silent _
      | binary span operator left right =>
          simp only [Expr.Scoped] at he
          simp only [Machine.eval, eval]
          refine (eval_watched n left henv he.1 hat).bind (Lexical.eval_sim n left henv he.1)
            fun w₁ u u' hw₁ _ => ?_
          have henv₁ := henv.mono hw₁
          refine (eval_watched n right henv₁ he.2 hat).bind (Lexical.eval_sim n right henv₁ he.2)
            fun w₂ v v' _ _ => ?_
          exact .silent _
      | logical span operator left right =>
          simp only [Expr.Scoped] at he
          simp only [Machine.eval, eval]
          refine (eval_watched n left henv he.1 hat).bind (Lexical.eval_sim n left henv he.1)
            fun w₁ v v' hw₁ _ => ?_
          exact .ite (fun _ => .pure _) fun _ => eval_watched n right (henv.mono hw₁) he.2 hat
      | var r =>
          simp only [Expr.Scoped] at he
          exact name_watched place.toSite henv he.1 he.2
      | assign target value =>
          simp only [Expr.Scoped] at he
          simp only [Machine.eval, eval]
          refine (eval_watched n value henv he.2.2 hat).bind (Lexical.eval_sim n value henv he.2.2)
            fun w₁ v v' hw₁ hv => ?_
          have henv₁ := henv.mono hw₁
          refine (target_watched v henv₁ he.1 hat).bind
            (Lexical.write_sim target henv₁ he.1 he.2.1 hv) fun w₂ _ _ _ _ => ?_
          exact .pure _
      | call span callee paren arguments =>
          simp only [Expr.Scoped] at he
          simp only [Machine.eval, eval]
          refine (eval_watched n callee henv he.1 hat).bind (Lexical.eval_sim n callee henv he.1)
            fun w₁ f f' hw₁ hf => ?_
          have henv₁ := henv.mono hw₁
          refine (evalList_watched n arguments henv₁ he.2 hat).bind
            (Lexical.evalList_sim n arguments henv₁ he.2) fun w₂ vs vs' hw₂ hvs => ?_
          exact callValue_watched n paren (hf.mono hw₂) hvs
      | get span object name =>
          simp only [Expr.Scoped] at he
          simp only [Machine.eval, eval]
          refine (eval_watched n object henv he hat).bind (Lexical.eval_sim n object henv he)
            fun w₁ v v' _ hv => ?_
          cases hv with
          | object id hc => exact .quiet (.getProperty id _ name)
          | _ => exact .silent _
      | set span object name value =>
          simp only [Expr.Scoped] at he
          simp only [Machine.eval, eval]
          refine (eval_watched n object henv he.1 hat).bind (Lexical.eval_sim n object henv he.1)
            fun w₁ u u' hw₁ hu => ?_
          cases hu with
          | object id hc =>
              have henv₁ := henv.mono hw₁
              refine (eval_watched n value henv₁ he.2 hat).bind
                (Lexical.eval_sim n value henv₁ he.2) fun w₂ v v' _ _ => ?_
              exact .quiet ((Quiet.move _ _).bind fun _ => .pure _)
          | _ => exact .silent _
      | thisRef r =>
          simp only [Expr.Scoped] at he
          exact this_watched place.toSite henv he.1 he.2
      | superRef r method => exact super_watched henv he hat

theorem evalList_watched (n : Nat) (es : List Expr) {i : Nat} {w : World} {site : Site}
    {place : Place} {Γ : Context} {ρ : Env} (henv : EnvRel w site.pending Γ i ρ)
    (hes : Expr.ScopedList Γ site es) (hat : Covers site place.toSite) :
    Watched i w (evalList n place es) (Machine.evalList n es) := by
  match n with
  | 0 => exact .silent _
  | n + 1 =>
      cases es with
      | nil => exact .pure _
      | cons e rest =>
          simp only [Expr.ScopedList] at hes
          simp only [Machine.evalList, evalList]
          refine (eval_watched n e henv hes.1 hat).bind (Lexical.eval_sim n e henv hes.1)
            fun w₁ v v' hw₁ _ => ?_
          have henv₁ := henv.mono hw₁
          refine (evalList_watched n rest henv₁ hes.2 hat).bind
            (Lexical.evalList_sim n rest henv₁ hes.2) fun w₂ vs vs' _ _ => ?_
          exact .pure _

theorem callValue_watched (n : Nat) (paren : Token) {i : Nat} {w : World} {f f' : Value}
    {args args' : List Value} (hf : ValueRel w f f')
    (hargs : List.Forall₂ (ValueRel w) args args') :
    Watched i w (callValue n f args paren) (Machine.callValue n f args paren) := by
  match n with
  | 0 => exact .silent _
  | n + 1 =>
      cases hf with
      | native f =>
          exact .aside (fun _ => rfl) (.ite (fun _ => .silent _) fun _ => .quiet (.move _ _))
      | function id hc =>
          refine .ite (fun _ => .aside (fun _ => rfl) (.silent _)) fun harity => ?_
          exact callClosure_watched n none _ paren hc hargs (by simpa using harity)
      | @classObject c c' hc =>
          simp only [Machine.callValue, callValue]
          refine .ite (fun _ => .aside (fun _ => rfl) (.silent _)) fun harity => ?_
          have hnew : Sim (fun _ => False) i w (Machine.newObject c)
              (Lexical.lift (Machine.newObject c')) _ := Lexical.newObject_sim
          refine (Watched.quiet (.newObject c)).bind hnew fun w₁ object object' hw₁ hobject => ?_
          obtain ⟨id, rfl, rfl⟩ := hobject
          obtain ⟨hm, hm'⟩ | ⟨g, g', hm, hm', hg⟩ := hc.method? (utf8 "init")
          · simp only [ClassObject.initializer?, hm]
            exact .aside (fun _ => rfl) (.pure _)
          · simp only [ClassObject.initializer?, hm]
            have harity' : args.length = g.arity := by
              simpa [ClassObject.arity, ClassObject.initializer?, hm] using harity
            refine (Watched.quiet (.bindThis g _)).bind
              (Lexical.bindThis_sim (hg.mono hw₁) (hc.mono hw₁)) fun w₂ h h' hw₂ hh => ?_
            have hargs₂ := hargs.imp fun _ _ hv => hv.mono (hw₁.trans hw₂)
            have hlength := harity'.trans hh.2.symm
            refine (callClosure_watched n _ _ paren hh.1 hargs₂ hlength).bind
              (Lexical.callClosure_sim n paren hh.1 hargs₂ hlength) fun w₃ _ _ _ _ => ?_
            exact .pure _
      | _ => exact .aside (fun _ => rfl) (.silent _)

theorem callClosure_watched (n : Nat) (home : Option Home) (callee : Value) (paren : Token)
    {i : Nat} {w : World} {c c' : Closure} {args args' : List Value}
    (hc : ClosureRel w [] c c') (hargs : List.Forall₂ (ValueRel w) args args')
    (harity : args.length = c.arity) :
    Watched i w (callClosure n home callee c args paren)
      (Machine.callClosure n c args paren) := by
  match n with
  | 0 => exact .silent _
  | n + 1 =>
      obtain ⟨Γ, ρ, hscoped, hcaptured, henv, hinit⟩ := hc.scope
      obtain ⟨hnames, -, hbody⟩ := (FunctionDecl.scoped_iff _ _).mp hscoped
      simp only [Machine.callClosure, callClosure]
      refine (Watched.silent _).bind Lexical.isFull_sim fun w₁ full _ hw₁ _ => ?_
      refine .ite (fun _ => .aside (fun _ => rfl) (.silent _)) fun _ => .activation callee args ?_
      obtain ⟨bindings, hbind, hscope⟩ := Lexical.parameters_sim (henv.mono hw₁)
        (hargs.imp fun _ _ hv => hv.mono hw₁) harity hnames
      rw [hbind, Traced.look_pure_bind, Run.pure_bind]
      refine (Watched.quiet (.move _ _)).bind hscope fun w₂ k ρ₂ hw₂ h₂ => ?_
      refine (Watched.inScope (execList_watched n home _ h₂.2.1 h₂.2.2 hbody)).bind
        (Sim.inScope (Lexical.execList_sim n _ h₂.2.1 h₂.2.2 h₂.1 hbody))
        fun w₃ signal _ hw₃ _ => ?_
      refine .ite (fun hinitializer => ?_) fun _ => ?_
      · obtain ⟨Γ', hΓ⟩ := hinit hinitializer
        have hthis : Context.hops? ([] ++ Γ) (utf8 "this") = some 0 := by
          rw [hΓ]
          simp [Context.hops?_cons]
        refine .visiting ?_ (.silent _)
        intro m s hrel _
        exact binds_this (henv.mono (hw₁.trans (hw₂.trans hw₃))) hrel hthis
      · cases signal <;> exact .pure _

theorem exec_watched (n : Nat) (home : Option Home) (s : Stmt) {i : Nat} {w : World}
    {Γ : Context} {ρ : Env} (henv : EnvRel w none Γ i ρ) (hexact : Exact w Γ i) (hs : s.Scoped Γ) :
    Watched i w (exec n home s) (Machine.exec n s) := by
  match n with
  | 0 => exact .silent _
  | n + 1 =>
      cases s with
      | expression span e =>
          simp only [Stmt.Scoped] at hs
          simp only [Machine.exec, exec, statement_note]
          refine (eval_watched n e henv hs (.refl _)).bind (Lexical.eval_sim n e henv hs)
            fun w₁ _ _ _ _ => ?_
          exact .pure _
      | print span e =>
          simp only [Stmt.Scoped] at hs
          simp only [Machine.exec, exec, statement_note]
          refine (eval_watched n e henv hs (.refl _)).bind (Lexical.eval_sim n e henv hs)
            fun w₁ v v' _ _ => ?_
          exact .quiet ((Quiet.move _ _).bind fun _ => .pure _)
      | var span name initial =>
          cases initial with
          | none =>
              simp only [Machine.exec, exec, statement_note]
              exact .quiet ((Quiet.move _ _).bind fun _ => .pure _)
          | some initial =>
              simp only [Stmt.Scoped] at hs
              simp only [Machine.exec, exec, statement_note]
              refine .after (Lexical.declare_sim henv hexact (fun hF => hF) hs.1)
                fun w₁ ρ₁ _ h₁ => ?_
              have hat : Covers { pending := Γ.initializing name.lexeme }
                  { pending := some name.lexeme } :=
                ⟨fun h => h, fun x hx => by simp [Context.eq_of_mem_initializing x hx]⟩
              refine (eval_watched n initial h₁.1 hs.2 hat).bind
                (Lexical.eval_sim n initial h₁.1 hs.2) fun w₂ v v' _ _ => ?_
              exact .quiet ((Quiet.move _ _).bind fun _ => .pure _)
      | block span body =>
          simp only [Stmt.Scoped] at hs
          simp only [Machine.exec, exec, statement_note]
          refine (Watched.silent _).bind Lexical.currentScope_sim fun w₁ outer _ hw₁ houter => ?_
          subst houter
          refine (Watched.quiet (.move .other (Machine.newScope _ []))).bind
            (Lexical.openScope_sim (henv.mono hw₁)) fun w₂ k _ _ h₂ => ?_
          exact .inScope (execList_watched n home body h₂.2.1 h₂.2.2 hs)
      | branch span condition onTrue onFalse =>
          have hcondition : condition.Scoped Γ {} := by
            cases onFalse <;> simp only [Stmt.Scoped] at hs <;> exact hs.1
          have hTrue : onTrue.Scoped Γ := by
            cases onFalse <;> simp only [Stmt.Scoped] at hs <;> exact hs.2.1
          simp only [Machine.exec, exec, statement_note]
          refine (eval_watched n condition henv hcondition (.refl _)).bind
            (Sim.keep henv (Lexical.eval_sim n condition henv hcondition))
            fun w₁ v v' hw₁ h₁ => ?_
          have henv₁ := henv.mono hw₁
          have hexact₁ := hexact.of_layout_eq h₁.2
          refine .ite (fun _ => exec_watched n home onTrue henv₁ hexact₁ hTrue) fun _ => ?_
          cases onFalse with
          | none => exact .pure _
          | some onFalse =>
              simp only [Stmt.Scoped] at hs
              exact exec_watched n home onFalse henv₁ hexact₁ hs.2.2.2.1
      | loop span condition body =>
          simp only [Stmt.Scoped] at hs
          simp only [Machine.exec, exec, statement_note]
          exact execLoop_watched n home condition body henv hexact hs.1 hs.2.1 hs.2.2
      | function f =>
          simp only [Machine.exec, exec, statement_note]
          exact .quiet ((Quiet.silent _).bind fun _ =>
            (Quiet.functionOf _ _).bind fun _ => (Quiet.move _ _).bind fun _ => .pure _)
      | ret span keyword value =>
          cases value with
          | none =>
              simp only [Machine.exec, exec, statement_note]
              exact .aside (fun _ => rfl) (.pure _)
          | some e =>
              simp only [Stmt.Scoped] at hs
              simp only [Machine.exec, exec, statement_note]
              refine (eval_watched n e henv hs (.refl _)).bind (Lexical.eval_sim n e henv hs)
                fun w₁ _ _ _ _ => ?_
              exact .aside (fun _ => rfl) (.pure _)
      | classDecl span name parent methods =>
          cases parent with
          | none =>
              simp only [Machine.exec, exec, statement_note]
              exact .asking fun m => .quiet ((Quiet.declareClass m _ _ _ _).bind fun _ => .pure _)
          | some parent =>
              simp only [Stmt.Scoped] at hs
              simp only [Machine.exec, exec, statement_note]
              refine .asking fun m => ?_
              refine (name_watched {} henv hs.2.1 (by simp)).bind
                (Lexical.read_sim parent henv hs.2.1) fun w₁ v v' _ hv => ?_
              cases hv with
              | classObject hc =>
                  exact .quiet ((Quiet.declareClass m _ _ _ _).bind fun _ => .pure _)
              | _ => exact .silent _

theorem execList_watched (n : Nat) (home : Option Home) (body : List Stmt) {i : Nat}
    {w : World} {Γ : Context} {ρ : Env} (henv : EnvRel w none Γ i ρ) (hexact : Exact w Γ i)
    (hbody : Stmt.ScopedList Γ body) :
    Watched i w (execList n home body) (Machine.execList n body) := by
  match n with
  | 0 => exact .silent _
  | n + 1 =>
      cases body with
      | nil => exact .pure _
      | cons s rest =>
          simp only [Stmt.ScopedList] at hbody
          simp only [Machine.execList, execList]
          refine (exec_watched n home s henv hexact hbody.1).bind
            (Lexical.exec_sim n s henv hexact (fun hF => hF) hbody.1) fun w₁ σ σ' _ h₁ => ?_
          cases σ with
          | normal => exact execList_watched n home rest h₁.2.1 h₁.2.2 hbody.2
          | returned v => exact .pure _

theorem execLoop_watched (n : Nat) (home : Option Home) (condition : Expr) (body : Stmt)
    {i : Nat} {w : World} {Γ : Context} {ρ : Env} (henv : EnvRel w none Γ i ρ)
    (hexact : Exact w Γ i) (hcondition : condition.Scoped Γ {}) (hbody : body.Scoped Γ)
    (hnone : body.declared? = none) :
    Watched i w (execLoop n home condition body) (Machine.execLoop n condition body) := by
  match n with
  | 0 => exact .silent _
  | n + 1 =>
      simp only [Machine.execLoop, execLoop]
      refine (eval_watched n condition henv hcondition (.refl _)).bind
        (Sim.keep henv (Lexical.eval_sim n condition henv hcondition)) fun w₁ v v' hw₁ h₁ => ?_
      have henv₁ := henv.mono hw₁
      have hexact₁ := hexact.of_layout_eq h₁.2
      refine .ite (fun _ => ?_) fun _ => .pure _
      refine (exec_watched n home body henv₁ hexact₁ hbody).bind
        (Lexical.exec_sim n body henv₁ hexact₁ (fun hF => hF) hbody) fun w₂ σ σ' hw₂ h₂ => ?_
      have hexact₂ := h₂.2.2
      rw [Stmt.contextAfter_of_declared?_eq_none hnone] at hexact₂
      cases σ with
      | normal =>
          exact execLoop_watched n home condition body (henv₁.mono hw₂) hexact₂ hcondition hbody
            hnone
      | returned v => exact .pure _

end

theorem execProgram_watched (n : Nat) (program : List Stmt) {w : World}
    (hprogram : Stmt.ScopedList [] program) :
    Watched 0 w (execProgram n program) (Machine.execProgram n program) := by
  induction program generalizing w with
  | nil => exact .pure _
  | cons s rest ih =>
      simp only [Stmt.ScopedList, Stmt.contextAfter_nil] at hprogram
      simp only [Machine.execProgram, execProgram]
      have hexact : Exact w [] 0 := by simp [Exact]
      refine (exec_watched n none s (.top w) hexact hprogram.1).bind
        (Lexical.exec_sim n s (.top w) hexact (fun hF => hF) hprogram.1) fun w₁ _ _ _ _ => ?_
      exact ih hprogram.2

end Lox.Access
