import Lox.Proofs.Lexical.Steps
import Lox.Proofs.Operations

/-!
Names correspond: reading and writing them, declaring them, and the scopes of blocks,
parameters, `this` and `super`.
-/

namespace Lox

/-! ## The global scope -/

namespace Scopes

variable {s : Scopes} {bindings : Bindings Value}

theorem owner?_of_has {i : Nat} {scope : Scope} {x : Bytes} (h : s[i]? = some scope)
    (hx : scope.bindings.has x = true) : s.owner? i x = some i := by
  have hsize : i < s.size := (Array.getElem?_eq_some_iff.mp h).1
  obtain ⟨links, hlinks⟩ := Nat.exists_eq_succ_of_ne_zero (Nat.ne_of_gt (Nat.zero_lt_of_lt hsize))
  simp [owner?, hlinks, ownerWithin, h, hx]

theorem owner?_global (h : s[0]? = some ⟨none, bindings⟩) (x : Bytes) :
    s.owner? Machine.globalScope x = if bindings.has x then some 0 else none := by
  have hsize : 0 < s.size := (Array.getElem?_eq_some_iff.mp h).1
  obtain ⟨links, hlinks⟩ := Nat.exists_eq_succ_of_ne_zero (Nat.ne_of_gt hsize)
  simp only [owner?, hlinks, ownerWithin, Machine.globalScope, h]

theorem get?_global (h : s[0]? = some ⟨none, bindings⟩) (x : Bytes) :
    s.get? Machine.globalScope x = bindings.get? x := by
  unfold get?
  rw [owner?_global h]
  cases hget : bindings.get? x with
  | none => simp [Bindings.has, hget]
  | some v => simp [Bindings.has, hget, bindingsOf?, h]

theorem getAt?_eq {i j d : Nat} {scope : Scope} (hj : s.ancestor? i d = some j)
    (h : s[j]? = some scope) (x : Bytes) :
    s.getAt? i d x = some ((scope.bindings.get? x).getD .nil) := by
  simp [getAt?, hj, bindingsOf?, h]

end Scopes

namespace Lexical

open Resolution (Context Declarable)

variable {F : Nat → Prop} {i : Nat} {w : World} {pending : Option Bytes} {Γ : Context} {ρ : Env}

/-! ## Reading and writing -/

theorem EnvRel.local {m : Machine} {s : State} {x : Bytes} {d : Nat}
    (henv : EnvRel w pending Γ i ρ) (h : Related w m s) (hd : Γ.hops? x = some d) :
    ∃ j scope location v', m.scopes.ancestor? i d = some j ∧ m.scopes[j]? = some scope ∧
      w.layout j x = some location ∧ ρ.find? x = some location ∧
      s.locations[location]? = some v' ∧
      ValueRel w ((scope.bindings.get? x).getD .nil) v' := by
  obtain ⟨j, scope, names, inner, pending', hj, -, hscope, hholds, hx, hget, -⟩ :=
    henv.placed.scope hd
  obtain ⟨location, hlocation⟩ := Option.isSome_iff_exists.mp ((hholds.exact x).mpr hx)
  have hlayout := hholds.layout x location hlocation
  obtain ⟨-, scope', v', hscope', hv', hrel⟩ := h.located j x location hlayout
  rw [h.scopes] at hj
  exact ⟨j, scope', location, v', hj, hscope', hlayout, hget.trans hlocation, hv', hrel⟩

theorem EnvRel.find?_eq_none {x : Bytes} (henv : EnvRel w pending Γ i ρ)
    (hd : Γ.hops? x = none) : ρ.find? x = none :=
  henv.placed.get?_eq_none hd

theorem read_sim (r : Reference) (henv : EnvRel w pending Γ i ρ)
    (hr : r.hops = Γ.hops? r.name.lexeme) :
    Sim F i w (Machine.read r) (read ρ (r.relabel .unresolve)) ValueRel := by
  intro m s h hi _
  have hname : (r.relabel .unresolve).name = r.name := rfl
  cases hd : Γ.hops? r.name.lexeme with
  | some d =>
      obtain ⟨j, scope, location, v', hj, hscope, -, hfind, hv', hrel⟩ := henv.local h hd
      simp only [Machine.read, Machine.bindingAt, read, hname, hr, hd, hfind, load, hv', hi,
        Scopes.getAt?_eq hj hscope]
      exact .done (.refl w) h hi hrel
  | none =>
      obtain ⟨bs, bs', hbs, hbs', hrel⟩ := h.globals
      have hbs'' : s.machine.scopes[0]? = some ⟨none, bs'⟩ := by simp [hbs']
      simp only [Machine.read, read, lift, hname, hr, hd, henv.find?_eq_none hd,
        Scopes.get?_global hbs, Scopes.get?_global hbs'']
      obtain ⟨hget, hget'⟩ | ⟨v, v', hget, hget', hv⟩ := hrel.get? r.name.lexeme
      · rw [hget, hget']
        exact .fault (.refl w) h hi
      · rw [hget, hget']
        exact .done (.refl w) h hi hv

theorem write_sim (r : Reference) (henv : EnvRel w pending Γ i ρ)
    (hr : r.hops = Γ.hops? r.name.lexeme) (hname : r.name.Nameable) {v v' : Value}
    (hv : ValueRel w v v') :
    Sim F i w (Machine.write r v) (write ρ (r.relabel .unresolve) v') fun _ _ _ => True := by
  intro m s h hi _
  have hname' : (r.relabel .unresolve).name = r.name := rfl
  cases hd : Γ.hops? r.name.lexeme with
  | some d =>
      obtain ⟨j, scope, location, u', hj, hscope, hlayout, hfind, hu', -⟩ := henv.local h hd
      simp only [Machine.write, write, hname', hr, hd, hfind, hi, hj]
      exact .done (.define w j v hname)
        (h.define hname hlayout (hv.mono (Grows.define (F := F) w j v hname))) hi trivial
  | none =>
      obtain ⟨bs, bs', hbs, hbs', hrel⟩ := h.globals
      have hbs'' : s.machine.scopes[0]? = some ⟨none, bs'⟩ := by simp [hbs']
      simp only [Machine.write, write, lift, hname', hr, hd, henv.find?_eq_none hd,
        Scopes.owner?_global hbs, Scopes.owner?_global hbs'', hrel.has_eq]
      by_cases hbound : bs'.has r.name.lexeme = true
      · simp only [hbound, if_true]
        exact .done (.define w 0 v hname)
          (h.defineGlobal hname (hv.mono (Grows.define (F := F) w 0 v hname))) hi trivial
      · simp only [hbound]
        exact .fault (.refl w) h hi

/-! ## Declarations -/

/-- The scope has no located names but those of the context. -/
def Exact (w : World) (Γ : Context) (i : Nat) : Prop :=
  ∀ names ∈ Γ.head?, ∀ x, (w.layout i x).isSome = true → x ∈ names

theorem Exact.of_layout_eq {w' : World} (h : Exact w Γ i) (hlayout : w'.layout i = w.layout i) :
    Exact w' Γ i := by
  intro names hnames x hx
  rw [hlayout] at hx
  exact h names hnames x hx

theorem EnvRel.lt_size {m : Machine} {s : State} (henv : EnvRel w pending Γ i ρ)
    (h : Related w m s) : i < w.scopes.size := by
  cases Γ with
  | nil =>
      obtain ⟨rfl, -⟩ := henv.placed
      rw [h.scopes]
      exact h.size_pos
  | cons names Γ =>
      obtain ⟨scope, -, -, -, -, hscope, -⟩ := henv.placed
      exact (Array.getElem?_eq_some_iff.mp hscope).1

theorem Sim.keep {p : Lox.Run α} {q : Run β} {R : World → α → β → Prop}
    (henv : EnvRel w pending Γ i ρ) (h : Sim (fun j => F j ∨ j = i) i w p q R) :
    Sim F i w p q fun w' v v' => R w' v v' ∧ w'.layout i = w.layout i := by
  intro m s hrel hi hF
  have hF' : ∀ j, F j ∨ j = i → j < w.scopes.size := by
    rintro j (hj | rfl)
    · exact hF j hj
    · exact henv.lt_size hrel
  have weaken {w' : World} (hw : Grows (fun j => F j ∨ j = i) w w') : Grows F w w' :=
    { hw with frozen := fun j hj => hw.frozen j (.inl hj) }
  generalize hpm : p m = out
  generalize hqs : q s = out'
  cases hpm ▸ hqs ▸ h m s hrel hi hF' with
  | done hw h hi hv => exact .done (weaken hw) h hi ⟨hv, hw.frozen i (.inr rfl)⟩
  | fault hw h hi => exact .fault (weaken hw) h hi

/-- A local name is located at once, a global one not at all. -/
theorem declare_sim {t : Token} (henv : EnvRel w none Γ i ρ) (hexact : Exact w Γ i)
    (hfree : ¬F i) (hname : Declarable Γ t) :
    Sim F i w (Pure.pure ()) (declare ρ t.lexeme) fun w' _ ρ' =>
      EnvRel w' (Γ.initializing t.lexeme) (Γ.declare t.lexeme) i ρ' ∧
        Exact w' (Γ.declare t.lexeme) i := by
  intro m s h hi _
  cases Γ with
  | nil =>
      obtain rfl := henv.level.mpr rfl
      exact .done (.refl w) h hi ⟨henv, hexact⟩
  | cons names Γ =>
      obtain ⟨located, rfl⟩ : ∃ located, ρ = some located :=
        Option.ne_none_iff_exists'.mp fun hnone => List.cons_ne_nil _ _ (henv.level.mp hnone)
      obtain ⟨scope, parent, inner, outer, hi0, hscope, hparent, hlocated, hholds, houter⟩ :=
        henv.placed
      have hnew : t.lexeme ∉ names := hname.2 names rfl
      have hunplaced : w.layout i t.lexeme = none := by
        rw [← Option.not_isSome_iff_eq_none]
        exact fun hsome => hnew (hexact names rfl _ hsome)
      have hw : Grows F w (w.place i t.lexeme s.locations.size) := .place _ hfree hunplaced
      have hplaced : ∀ y, (w.place i t.lexeme s.locations.size).layout i y =
          if y = t.lexeme then some s.locations.size else w.layout i y := by
        intro y
        simp [World.place]
      refine .done hw (h.place hi0 (h.scopes ▸ hscope) hunplaced) hi ⟨⟨?_, by simp⟩, ?_⟩
      · refine ⟨scope, parent, (t.lexeme, s.locations.size) :: inner, outer, hi0, hscope, hparent,
          congrArg (List.cons _) hlocated, ?_, houter.mono hw⟩
        refine ⟨fun y => ?_, fun y l hy => ?_, fun y hy hpending => ?_, fun hy => ?_, fun hy => ?_⟩
        · simp only [Bindings.has_cons, Bool.or_eq_true, decide_eq_true_eq, hholds.exact y,
            List.mem_append, List.mem_singleton]
          tauto
        · rw [hplaced]
          rw [Bindings.get?_cons] at hy
          by_cases hyt : t.lexeme = y
          · simpa [hyt] using hy
          · rw [if_neg hyt] at hy
            rw [if_neg fun e => hyt e.symm]
            exact hholds.layout y l hy
        · rcases List.mem_append.mp hy with hy | hy
          · exact hholds.bound y hy (by simp)
          · obtain rfl := List.mem_singleton.mp hy
            exact absurd rfl hpending
        · refine hholds.this (by simpa [hname.1.1.symm] using hy)
        · refine hholds.super (by simpa [hname.1.2.symm] using hy)
      · rintro _ ⟨⟩ y hy
        rw [hplaced] at hy
        by_cases hyt : y = t.lexeme
        · simp [hyt]
        · rw [if_neg hyt] at hy
          exact List.mem_append_left _ (hexact names rfl y hy)

theorem EnvRel.settled {x : Bytes} (henv : EnvRel w pending (Γ.declare x) i ρ)
    (hpending : ∀ y ∈ pending, y = x) (hx : x ≠ utf8 "this" ∧ x ≠ utf8 "super") (v : Value) :
    EnvRel (w.define i x v) none (Γ.declare x) i ρ := by
  cases Γ with
  | nil => exact ⟨henv.placed, henv.level⟩
  | cons names Γ =>
      refine ⟨?_, henv.level⟩
      have hw : Grows (fun _ => False) w (w.define i x v) := .define w i v hx
      obtain ⟨scope, parent, inner, outer, hi0, hscope, hparent, hlocated, hholds, houter⟩ :=
        henv.placed
      have hholds' := hholds.mono hw (Extends.set scope v hx)
      refine ⟨_, parent, inner, outer, hi0, Scopes.getElem?_define_self x v hscope, hparent,
        hlocated, { hholds' with bound := fun y hy _ => ?_ }, houter.mono hw⟩
      by_cases hyx : x = y
      · simp [hyx]
      · exact hholds'.bound y hy fun hsome => hyx (hpending y hsome).symm

def IsBound (w : World) (i : Nat) (x : Bytes) : Prop :=
  ∃ scope, w.scopes[i]? = some scope ∧ scope.bindings.has x = true

theorem IsBound.mono {w' : World} {x : Bytes} (h : IsBound w i x) (hw : Grows F w w') :
    IsBound w' i x := by
  obtain ⟨scope, hscope, hx⟩ := h
  obtain ⟨scope', hscope', hext⟩ := hw.scopes i scope hscope
  exact ⟨scope', hscope', hext.bound x hx⟩

theorem IsBound.define {x : Bytes} (hi : i < w.scopes.size) (v : Value) :
    IsBound (w.define i x v) i x :=
  ⟨_, Scopes.getElem?_define_self x v (Array.getElem?_eq_getElem hi), by simp⟩

theorem defineIn_sim {x : Bytes} (henv : EnvRel w pending (Γ.declare x) i ρ)
    (hpending : ∀ y ∈ pending, y = x) (hx : x ≠ utf8 "this" ∧ x ≠ utf8 "super") {v v' : Value}
    (hv : ValueRel (w.define i x v) v v') :
    Sim F i w (Machine.defineIn i x v) (define ρ x v') fun w' _ _ =>
      EnvRel w' none (Γ.declare x) i ρ ∧ IsBound w' i x ∧ w'.layout i = w.layout i := by
  intro m s h hi _
  have hw : Grows F w (w.define i x v) := .define w i v hx
  cases Γ with
  | nil =>
      obtain rfl := henv.level.mpr rfl
      obtain ⟨rfl, -⟩ := henv.placed
      have hdefine : lift (Machine.define x v') s = .done () { s with
          machine := { s.machine with scopes := s.machine.scopes.define 0 x v' } } := by
        simp [lift, Machine.define, Machine.defineIn, h.current]
      simp only [Machine.defineIn, define, Env.find?, Env.names, Option.getD_none,
        Bindings.get?_nil, hdefine]
      exact .done hw (h.defineGlobal hx hv) hi
        ⟨henv.settled hpending hx v, .define (henv.lt_size h) v, rfl⟩
  | cons names Γ =>
      have hd : Context.hops? (Context.declare (names :: Γ) x) x = some 0 := by
        simp [Context.hops?_cons]
      obtain ⟨scope, -, -, -, -, hscope, -⟩ := henv.placed
      obtain ⟨j, -, location, u', hj, -, hlayout, hfind, -⟩ := henv.local h hd
      obtain rfl : i = j := by
        have hsize : i < m.scopes.size := by
          rw [← h.scopes]
          exact (Array.getElem?_eq_some_iff.mp hscope).1
        simpa [Scopes.ancestor?, hsize] using hj
      simp only [Machine.defineIn, define, hfind, store]
      exact .done hw (h.define hx hlayout hv) hi
        ⟨henv.settled hpending hx v, .define (henv.lt_size h) v, rfl⟩

theorem define_sim {x : Bytes} (henv : EnvRel w pending (Γ.declare x) i ρ)
    (hpending : ∀ y ∈ pending, y = x) (hx : x ≠ utf8 "this" ∧ x ≠ utf8 "super") {v v' : Value}
    (hv : ValueRel (w.define i x v) v v') :
    Sim F i w (Machine.define x v) (define ρ x v') fun w' _ _ =>
      EnvRel w' none (Γ.declare x) i ρ ∧ IsBound w' i x ∧ w'.layout i = w.layout i := by
  intro m s h hi hF
  unfold Machine.define
  rw [hi]
  exact defineIn_sim henv hpending hx hv m s h hi hF

theorem assign_sim {x : Bytes} (henv : EnvRel w none (Γ.declare x) i ρ)
    (hbound : IsBound w i x) (hx : x ≠ utf8 "this" ∧ x ≠ utf8 "super") {v v' : Value}
    (hv : ValueRel w v v') :
    Sim F i w (Machine.assign x v) (define ρ x v') fun w' _ _ =>
      EnvRel w' none (Γ.declare x) i ρ ∧ IsBound w' i x ∧ w'.layout i = w.layout i := by
  intro m s h hi hF
  obtain ⟨scope, hscope, hhas⟩ := hbound
  have howner : m.scopes.owner? i x = some i := Scopes.owner?_of_has (h.scopes ▸ hscope) hhas
  unfold Machine.assign
  rw [hi, howner]
  exact defineIn_sim henv (by simp) hx (hv.mono (Grows.define (F := F) w i v hx)) m s h hi hF

/-! ## Scopes -/

theorem currentScope_sim :
    Sim F i w Machine.currentScope (Pure.pure ()) fun _ k _ => k = i :=
  fun _ _ h hi _ => .done (.refl w) h hi hi

theorem capture_sim (ρ : Env) :
    Sim F i w (Pure.pure ()) (capture ρ) fun w' _ id => w'.captured[id]? = some ρ := by
  intro m s h hi _
  refine .done (.capture w ρ) (h.capture ρ) hi ?_
  simp [World.capture, h.captured]

theorem release_sim {id : Nat} (hid : w.captured[id]? = some ρ) :
    Sim F i w (Pure.pure ()) (release id) fun _ _ ρ' => ρ' = ρ := by
  intro m s h hi _
  rw [h.captured] at hid
  simp only [release, hid]
  exact .done (.refl w) h hi rfl

theorem Related.newScope {m : Machine} {s : State} {parent : Nat} {bindings : Bindings Value}
    {located : Bindings Nat} {locations : Array Value} (h : Related w m s)
    (names : List Bytes) (henv : EnvRel w none Γ parent ρ)
    (hF : ∀ j, F j → j < w.scopes.size)
    (hold : ∀ (l : Nat) v, s.locations[l]? = some v → locations[l]? = some v)
    (hb : Bound w s.locations.size locations bindings located)
    (hnames : ∀ x, located.has x = true ↔ x ∈ names)
    (hthis : utf8 "this" ∈ names → ∃ id c, bindings.get? (utf8 "this") = some (.object id c))
    (hsuper : utf8 "super" ∈ names → ∃ c, bindings.get? (utf8 "super") = some (.classObject c)) :
    ∃ w', Grows F w w' ∧
      Related w' { m with scopes := m.scopes.push ⟨some parent, bindings⟩ }
        { s with locations } ∧
      ¬F m.scopes.size ∧
      EnvRel w' none (names :: Γ) m.scopes.size (some (located ++ ρ.names)) ∧
      Exact w' (names :: Γ) m.scopes.size := by
  have hw : Grows F w (w.push ⟨some parent, bindings⟩ located) := .push h _ _ hF
  have hglobal := h.size_pos
  have hlayout : ∀ x, (w.push ⟨some parent, bindings⟩ located).layout m.scopes.size x =
      located.get? x := by
    intro x
    simp [World.push, h.scopes]
  refine ⟨_, hw, h.push parent hold hb, fun hf => ?_, ⟨?_, by simp⟩, ?_⟩
  · have := hF _ hf
    rw [h.scopes] at this
    exact Nat.lt_irrefl _ this
  · refine ⟨⟨some parent, bindings⟩, parent, located, ρ.names, Nat.ne_of_gt hglobal,
      by simp [World.push, h.scopes], rfl, rfl, ?_, henv.placed.mono hw⟩
    refine ⟨hnames, fun x l hx => (hlayout x).trans hx, fun x hx _ => ?_, hthis, hsuper⟩
    exact (hb.bound x).trans ((hnames x).mpr hx)
  · rintro _ ⟨⟩ x hx
    rw [hlayout] at hx
    exact (hnames x).mp hx

theorem openScope_sim {parent : Nat} (henv : EnvRel w none Γ parent ρ) :
    Sim F i w (Machine.newScope parent []) (Pure.pure ()) fun w' k _ =>
      ¬F k ∧ EnvRel w' none ([] :: Γ) k ρ.inner ∧ Exact w' ([] :: Γ) k := by
  intro m s h hi hF
  have hb : Bound w s.locations.size s.locations [] [] :=
    ⟨by simp, by simp, by simp, by simp⟩
  obtain ⟨w', hw, hrel, hfree, henv', hexact⟩ := h.newScope [] henv hF (fun _ _ hl => hl) hb
    (by simp) (by simp) (by simp)
  exact .done hw hrel hi ⟨hfree, henv', hexact⟩

theorem bindWord_sim {parent : Nat} {x : Bytes} {v v' : Value}
    (henv : EnvRel w none Γ parent ρ) (hv : ValueRel w v v')
    (hword : x = utf8 "this" ∧ (∃ id c, v = .object id c) ∨
      x = utf8 "super" ∧ ∃ c, v = .classObject c) :
    Sim F i w (Machine.newScope parent [(x, v)]) (bindLocal ρ x v') fun w' k ρ' =>
      EnvRel w' none ([x] :: Γ) k ρ' := by
  intro m s h hi hF
  have hb : Bound w s.locations.size (s.locations.push v') [(x, v)] [(x, s.locations.size)] := by
    refine ⟨?_, ?_, ?_, ?_⟩
    · intro y l hy
      simp_all [Bindings.get?_cons]
    · intro y l hy
      simp only [Bindings.get?_cons, Bindings.get?_nil, Option.ite_none_right_eq_some,
        Option.some.injEq] at hy
      obtain ⟨rfl, rfl⟩ := hy
      exact ⟨v, v', by simp [Bindings.get?_cons], by simp, hv⟩
    · intro y z l hy hz
      simp only [Bindings.get?_cons, Bindings.get?_nil, Option.ite_none_right_eq_some,
        Option.some.injEq] at hy hz
      exact hy.1.symm.trans hz.1
    · simp
  have hne : utf8 "this" ≠ utf8 "super" := by decide
  obtain ⟨w', hw, hrel, -, henv', -⟩ := h.newScope [x] henv hF
    (fun l u hl => by
      have hlt : l < s.locations.size := (Array.getElem?_eq_some_iff.mp hl).1
      simpa [Array.getElem?_push, Nat.ne_of_lt hlt] using hl)
    hb (by simp [eq_comm]) (by
      intro hx
      obtain rfl := List.mem_singleton.mp hx
      rcases hword with ⟨-, id, c, rfl⟩ | ⟨hx, -⟩
      · exact ⟨id, c, by simp [Bindings.get?_cons]⟩
      · exact absurd hx hne) (by
      intro hx
      obtain rfl := List.mem_singleton.mp hx
      rcases hword with ⟨hx, -⟩ | ⟨-, c, rfl⟩
      · exact absurd hx.symm hne
      · exact ⟨c, by simp [Bindings.get?_cons]⟩)
  exact .done hw hrel hi henv'

theorem Bound.cons {base : Nat} {locations : Array Value} {bindings : Bindings Value}
    {located : Bindings Nat} {x : Bytes} {v v' : Value}
    (h : Bound w base locations bindings located) (hbase : base ≤ locations.size)
    (hv : ValueRel w v v') :
    Bound w base (locations.push v') (bindings.set x v) ((x, locations.size) :: located) := by
  have hget : ∀ y, Bindings.get? ((x, locations.size) :: located) y =
      if x = y then some locations.size else located.get? y :=
    fun y => Bindings.get?_cons x y _ _
  have hlt : ∀ y l, located.get? y = some l → l < locations.size := by
    intro y l hy
    obtain ⟨-, u', -, hu', -⟩ := h.value y l hy
    exact (Array.getElem?_eq_some_iff.mp hu').1
  refine ⟨fun y l hy => ?_, fun y l hy => ?_, fun y z l hy hz => ?_, fun y => ?_⟩
  · rw [hget] at hy
    by_cases hxy : x = y
    · rw [if_pos hxy] at hy
      cases hy
      exact hbase
    · rw [if_neg hxy] at hy
      exact h.fresh y l hy
  · rw [hget] at hy
    by_cases hxy : x = y
    · rw [if_pos hxy] at hy
      cases hy
      exact ⟨v, v', by simp [hxy], by simp, hv⟩
    · rw [if_neg hxy] at hy
      obtain ⟨u, u', hu, hu', hrel⟩ := h.value y l hy
      refine ⟨u, u', (Bindings.get?_set_of_ne _ _ hxy).trans hu, ?_, hrel⟩
      simpa [Array.getElem?_push, Nat.ne_of_lt (hlt y l hy)] using hu'
  · rw [hget] at hy hz
    by_cases hxy : x = y <;> by_cases hxz : x = z
    · exact hxy.symm.trans hxz
    · rw [if_pos hxy] at hy
      rw [if_neg hxz] at hz
      cases hy
      exact absurd (hlt z _ hz) (Nat.lt_irrefl _)
    · rw [if_neg hxy] at hy
      rw [if_pos hxz] at hz
      cases hz
      exact absurd (hlt y _ hy) (Nat.lt_irrefl _)
    · rw [if_neg hxy] at hy
      rw [if_neg hxz] at hz
      exact h.separate y z l hy hz
  · simp [h.bound y]

theorem bindParameters_bound {ps : List Token} {args args' : List Value} {base : Nat}
    {outer : Bindings Nat} (hargs : List.Forall₂ (ValueRel w) args args')
    (hlength : args.length = ps.length) (s : State)
    {bindings : Bindings Value} {located : Bindings Nat}
    (h : Bound w base s.locations bindings located) (hbase : base ≤ s.locations.size)
    (hρ : ρ.names = located ++ outer) :
    ∃ located' locations,
      bindParameters ρ ps args' s = .done (some (located' ++ outer)) { s with locations } ∧
      Bound w base locations
        ((ps.zip args).foldl (fun bound entry => bound.set entry.1.lexeme entry.2) bindings)
        located' ∧
      (∀ x, located'.has x = true ↔ located.has x = true ∨ x ∈ ps.map Token.lexeme) ∧
      ∀ (l : Nat) v, s.locations[l]? = some v → locations[l]? = some v := by
  induction ps generalizing args args' s bindings located ρ with
  | nil =>
      refine ⟨located, s.locations, ?_, h, by simp, fun _ _ hl => hl⟩
      simp only [bindParameters, Env.inner, hρ]
      rfl
  | cons p ps ih =>
      cases hargs with
      | nil => simp at hlength
      | @cons v v' args args' hv hargs =>
          obtain ⟨located', locations, hrun, hbound, hhas, hold⟩ :=
            ih (ρ := some ((p.lexeme, s.locations.size) :: ρ.names)) hargs
              (by simpa using hlength) { s with locations := s.locations.push v' }
              (h.cons (x := p.lexeme) hbase hv) (by simp; omega) (by simp [Env.names, ← hρ])
          refine ⟨located', locations, hrun, hbound, fun x => ?_, fun l u hl => ?_⟩
          · rw [hhas x]
            simp only [Bindings.has_cons, Bool.or_eq_true, decide_eq_true_eq, List.map_cons,
              List.mem_cons]
            tauto
          · have hlt : l < s.locations.size := (Array.getElem?_eq_some_iff.mp hl).1
            refine hold l u ?_
            simpa [Array.getElem?_push, Nat.ne_of_lt hlt] using hl

theorem parameters_sim {parent : Nat} {ps : List Token} {args args' : List Value}
    (henv : EnvRel w none Γ parent ρ) (hargs : List.Forall₂ (ValueRel w) args args')
    (hlength : args.length = ps.length) (hnames : ∀ p ∈ ps, p.Nameable) :
    ∃ bindings, Machine.bindParameters [] ps args = Pure.pure bindings ∧
      Sim F i w (Machine.newScope parent bindings) (bindParameters ρ ps args') fun w' k ρ' =>
        ¬F k ∧ EnvRel w' none (ps.map Token.lexeme :: Γ) k ρ' ∧
          Exact w' (ps.map Token.lexeme :: Γ) k := by
  refine ⟨_, Machine.bindParameters_of_le [] (Nat.le_of_eq hlength.symm), ?_⟩
  intro m s h hi hF
  have hnil : Bound w s.locations.size s.locations [] [] :=
    ⟨by simp, by simp, by simp, by simp⟩
  obtain ⟨located, locations, hrun, hbound, hhas, hold⟩ :=
    bindParameters_bound hargs hlength s hnil (Nat.le_refl _) (List.nil_append ρ.names).symm
  have hthis : utf8 "this" ∉ ps.map Token.lexeme := by
    intro hmem
    obtain ⟨p, hp, hlexeme⟩ := List.mem_map.mp hmem
    exact (hnames p hp).1 hlexeme
  have hsuper : utf8 "super" ∉ ps.map Token.lexeme := by
    intro hmem
    obtain ⟨p, hp, hlexeme⟩ := List.mem_map.mp hmem
    exact (hnames p hp).2 hlexeme
  obtain ⟨w', hw, hrel, hfree, henv', hexact⟩ := h.newScope (ps.map Token.lexeme) henv hF hold
    hbound (by simpa using hhas) (fun hmem => absurd hmem hthis)
    (fun hmem => absurd hmem hsuper)
  rw [hrun]
  exact .done hw hrel hi ⟨hfree, henv', hexact⟩

/-! ## Methods and classes -/

theorem bindThis_sim {c c' : Closure} {id : Nat} {k k' : ClassObject} (h : MethodRel w c c')
    (hk : ClassRel w k k') :
    Sim F i w (Machine.bindThis c (.object id k)) (bindThis c' (.object id k'))
      fun w' f f' => ClosureRel w' [] f f' ∧ f.arity = c.arity := by
  obtain ⟨Γ, ρ, hscoped, hcaptured, henv, hinit⟩ := h.scope
  unfold Machine.bindThis bindThis
  refine (release_sim hcaptured).bindRight fun w₁ ρ₁ hw₁ hρ₁ => ?_
  subst hρ₁
  refine (bindWord_sim (henv.mono hw₁) (.object id (hk.mono hw₁))
    (.inl ⟨rfl, id, k, rfl⟩)).bind fun w₂ scope ρ₂ hw₂ henv₂ => ?_
  refine (capture_sim ρ₂).bindRight fun w₃ id₃ hw₃ hcaptured₃ => .pure ?_
  exact ⟨⟨h.declaration, h.isInitializer,
    [utf8 "this"] :: Γ, ρ₂, hscoped, hcaptured₃, henv₂.mono hw₃, fun _ => ⟨Γ, rfl⟩⟩, rfl⟩

theorem getProperty_sim {id : Nat} {c c' : ClassObject} (name : Token) (h : ClassRel w c c') :
    Sim F i w (Machine.getProperty id c name) (getProperty id c' name) ValueRel := by
  unfold Machine.getProperty getProperty
  refine (field?_sim id name.lexeme).bind fun w₁ v v' hw₁ hfield => ?_
  obtain ⟨rfl, rfl⟩ | ⟨u, u', rfl, rfl, hu⟩ := hfield
  · obtain ⟨hm, hm'⟩ | ⟨f, f', hm, hm', hf⟩ := h.method? name.lexeme
    · rw [hm, hm']
      exact .raise _ _
    · rw [hm, hm']
      refine (bindThis_sim (hf.mono hw₁) (h.mono hw₁)).bind fun w₂ c₂ c₂' _ hc₂ => ?_
      exact boundMethod_sim hc₂.1
  · exact .pure hu

theorem EnvRel.find?_eq_some {x : Bytes} {d : Nat} (henv : EnvRel w pending Γ i ρ)
    (hd : Γ.hops? x = some d) : ∃ location, ρ.find? x = some location := by
  obtain ⟨j, scope, names, inner, pending', -, -, -, hholds, hx, hget, -⟩ :=
    henv.placed.scope hd
  obtain ⟨location, hlocation⟩ := Option.isSome_iff_exists.mp ((hholds.exact x).mpr hx)
  exact ⟨location, hget.trans hlocation⟩

theorem bindingAt_sim {k : Nat} {x : Bytes} {d location : Nat} (henv : EnvRel w pending Γ k ρ)
    (hd : Γ.hops? x = some d) (hfind : ρ.find? x = some location) :
    Sim F i w (Machine.bindingAt k d x) (load location) ValueRel := by
  intro m s h hi _
  obtain ⟨j, scope, location', v', hj, hscope, -, hfind', hv', hrel⟩ := henv.local h hd
  obtain rfl : location = location' := Option.some.inj (hfind.symm.trans hfind')
  simp only [Machine.bindingAt, load, hv', Scopes.getAt?_eq hj hscope]
  exact .done (.refl w) h hi hrel

theorem getSuper_sim {r : Reference} (method : Token) (henv : EnvRel w pending Γ i ρ)
    (hr : r.hops = Γ.hops? (utf8 "super"))
    (hthis : ∀ d ∈ r.hops, ∃ k, d = k + 1 ∧ Γ.hops? (utf8 "this") = some k) :
    Sim F i w (Machine.getSuper r method) (getSuper ρ (r.relabel .unresolve) method)
      ValueRel := by
  unfold Machine.getSuper getSuper
  cases hd : r.hops with
  | none =>
      rw [henv.find?_eq_none (hr.symm.trans hd)]
      exact .raise _ _
  | some d =>
      obtain ⟨k, rfl, hk⟩ := hthis d hd
      have hsuper : Γ.hops? (utf8 "super") = some (k + 1) := hr.symm.trans hd
      obtain ⟨l₁, hl₁⟩ := henv.find?_eq_some hsuper
      obtain ⟨l₂, hl₂⟩ := henv.find?_eq_some hk
      rw [hl₁, hl₂]
      refine currentScope_sim.bindLeft fun w₁ scope hw₁ hscope => ?_
      subst hscope
      refine (bindingAt_sim (henv.mono hw₁) hsuper hl₁).bind fun w₂ parent parent' hw₂ hparent => ?_
      have henv₂ := (henv.mono hw₁).mono hw₂
      refine (bindingAt_sim henv₂ hk hl₂).bind fun w₃ receiver receiver' hw₃ hreceiver => ?_
      cases hparent with
      | classObject hc =>
          cases hreceiver with
          | object id hown =>
              obtain ⟨hm, hm'⟩ | ⟨f, f', hm, hm', hf⟩ := (hc.mono hw₃).method? method.lexeme
              · simp only [hm, hm']
                exact .raise _ _
              · simp only [hm, hm']
                refine (bindThis_sim hf hown).bind fun w₄ c₄ c₄' _ hc₄ => ?_
                exact boundMethod_sim hc₄.1
          | _ => exact .raise _ _
      | _ => exact .raise _ _

theorem methodsIn_rel {k id : Nat} {methods : List FunctionDecl}
    (hmethods : FunctionDecl.ScopedList ([utf8 "this"] :: Γ) methods)
    (hcaptured : w.captured[id]? = some ρ) (henv : EnvRel w none Γ k ρ) :
    (Machine.methodsIn k methods).Rel (MethodRel w)
      (Machine.methodsIn id (FunctionDecl.relabelList .unresolve methods)) := by
  suffices step : ∀ {bound bound' : Bindings Closure}, bound.Rel (MethodRel w) bound' →
      Bindings.Rel (MethodRel w)
        (methods.foldl (fun bound f => bound.set f.name.lexeme
          { declaration := f, scope := k, isInitializer := f.name.lexeme == utf8 "init" }) bound)
        ((FunctionDecl.relabelList .unresolve methods).foldl (fun bound f =>
          bound.set f.name.lexeme
            { declaration := f, scope := id, isInitializer := f.name.lexeme == utf8 "init" })
          bound') from step .nil
  induction methods with
  | nil => exact fun h => h
  | cons f rest ih =>
      intro bound bound' h
      simp only [FunctionDecl.ScopedList] at hmethods
      simp only [FunctionDecl.relabelList, List.foldl_cons, FunctionDecl.relabel_name]
      refine ih hmethods.2 (h.set _ ?_)
      exact ⟨rfl, rfl, Γ, ρ, hmethods.1, hcaptured, henv, fun _ => ⟨Γ, rfl⟩⟩

inductive ParentRel (w : World) : Option ClassObject → Option ClassObject → Prop where
  | none : ParentRel w none none
  | some {c c' : ClassObject} (h : ClassRel w c c') : ParentRel w (some c) (some c')

theorem ParentRel.classRel {parent parent' : Option ClassObject}
    {methods methods' : Bindings Closure} (h : ParentRel w parent parent')
    (hmethods : methods.Rel (MethodRel w) methods') (id : Nat) (name : Bytes) :
    ClassRel w (.mk id name parent methods) (.mk id name parent' methods') := by
  cases h with
  | none => exact .root id name hmethods
  | some h => exact .sub id name h hmethods

theorem ParentRel.mono {w' : World} {parent parent' : Option ClassObject}
    (h : ParentRel w parent parent') (hw : Grows F w w') : ParentRel w' parent parent' := by
  cases h with
  | none => exact .none
  | some h => exact .some (h.mono hw)

theorem assignClass_sim {x : Bytes} {k : Nat} {Δ : Context} {ρ' : Env}
    {parent parent' : Option ClassObject} {methods : List FunctionDecl}
    (henv : EnvRel w none (Γ.declare x) i ρ) (hbound : IsBound w i x)
    (hx : x ≠ utf8 "this" ∧ x ≠ utf8 "super") (hinner : EnvRel w none Δ k ρ')
    (hparent : ParentRel w parent parent')
    (hmethods : FunctionDecl.ScopedList ([utf8 "this"] :: Δ) methods) :
    Sim F i w
      (do
        let id ← Machine.newIdentity
        Machine.assign x (.classObject (.mk id x parent (Machine.methodsIn k methods))))
      (do
        let scope ← capture ρ'
        let id ← lift Machine.newIdentity
        define ρ x (.classObject (.mk id x parent'
          (Machine.methodsIn scope (FunctionDecl.relabelList .unresolve methods))))
        return ρ)
      fun w' _ ρ' => EnvRel w' none (Γ.declare x) i ρ' := by
  refine (capture_sim ρ').bindRight fun w₁ scope hw₁ hscope => ?_
  refine newIdentity_sim.bind fun w₂ id id' hw₂ hid => ?_
  subst hid
  have hw := hw₁.trans hw₂
  have hrel := methodsIn_rel hmethods (hw₂.captured _ _ hscope) (hinner.mono hw)
  have hclass := (hparent.mono hw).classRel hrel id x
  exact (assign_sim (henv.mono hw) (hbound.mono hw) hx (.classObject hclass)).mapRight
    fun _ _ _ _ h => h.1

def superFrame : Option ClassObject → Context
  | none => []
  | some _ => [[utf8 "super"]]

theorem declareClass_sim {name : Token} {parent parent' : Option ClassObject}
    {methods : List FunctionDecl} (henv : EnvRel w none Γ i ρ) (hexact : Exact w Γ i)
    (hfree : ¬F i) (hname : Declarable Γ name) (hparent : ParentRel w parent parent')
    (hmethods : FunctionDecl.ScopedList
      ([utf8 "this"] :: (superFrame parent ++ Γ.declare name.lexeme)) methods) :
    Sim F i w (Machine.declareClass name parent methods)
      (declareClass ρ name parent' (FunctionDecl.relabelList .unresolve methods))
      fun w' _ ρ' => EnvRel w' none (Γ.declare name.lexeme) i ρ' ∧
        Exact w' (Γ.declare name.lexeme) i := by
  unfold Machine.declareClass declareClass
  refine (declare_sim henv hexact hfree hname).bindRight fun w₁ ρ₁ hw₁ h₁ => ?_
  refine (define_sim h₁.1 Context.eq_of_mem_initializing hname.1 .nil).bind
    fun w₂ _ _ hw₂ h₂ => ?_
  -- From here on the current scope gets no further names, so it stays exact.
  refine (Sim.keep (R := fun w' _ ρ' => EnvRel w' none (Γ.declare name.lexeme) i ρ') h₂.1 ?_).imp
    fun w' _ _ _ h => ⟨h.1, (h₁.2.of_layout_eq h₂.2.2).of_layout_eq h.2⟩
  refine currentScope_sim.bindLeft fun w₃ outer hw₃ houter => ?_
  subst houter
  have henv₃ := h₂.1.mono hw₃
  have hbound₃ := h₂.2.1.mono hw₃
  cases hparent with
  | none => exact assignClass_sim henv₃ hbound₃ hname.1 henv₃ .none hmethods
  | some hc =>
      have hc₃ := ((hc.mono hw₁).mono hw₂).mono hw₃
      refine (bindWord_sim henv₃ (.classObject hc₃) (.inr ⟨rfl, _, rfl⟩)).bind
        fun w₄ k ρ₄ hw₄ henv₄ => ?_
      exact assignClass_sim (henv₃.mono hw₄) (hbound₃.mono hw₄) hname.1 henv₄
        (.some (hc₃.mono hw₄)) hmethods

end Lexical

end Lox
