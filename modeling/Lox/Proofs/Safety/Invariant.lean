import Lox.Machine.Eval
import Lox.Proofs.Bindings
import Lox.Proofs.Safety.Trees
import Lox.Proofs.Scopes

/-!
What holds of a machine at every point of a run.

Every function that a value, a scope or a field holds was declared inside as many scopes
as its body needs.  Scopes are added and their bindings change, but no scope loses its
parent, so what holds of a value keeps holding.  The judgement `Safe` says of a run that
it keeps all this and that it stops short only for a reason that blames a token.
-/

namespace Lox

/-! ## Bindings -/

namespace Bindings

def All (P : α → Prop) (bindings : Bindings α) : Prop :=
  ∀ name v, bindings.get? name = some v → P v

namespace All

variable {P : α → Prop} {bindings : Bindings α}

theorem imp {P' : α → Prop} (h : bindings.All P) (hP : ∀ v, P v → P' v) : bindings.All P' :=
  fun name v hv => hP v (h name v hv)

theorem of_forall_mem (h : ∀ entry ∈ bindings, P entry.2) : bindings.All P := by
  intro name v hv
  obtain ⟨before, after, hsplit, -⟩ := List.lookup_eq_some_iff.mp hv
  exact h (name, v) (by simp [hsplit])

theorem nil : All P [] :=
  of_forall_mem (by simp)

theorem set (h : bindings.All P) (name : Bytes) {v : α} (hv : P v) :
    (bindings.set name v).All P := by
  intro name' v' hget
  rw [Bindings.get?_set] at hget
  split at hget
  · cases hget
    exact hv
  · exact h name' v' hget

theorem single (name : Bytes) {v : α} (hv : P v) : All P [(name, v)] :=
  nil.set name hv

theorem foldl_set {β : Type} (key : β → Bytes) (value : β → α) {entries : List β}
    (h : bindings.All P) (hentries : ∀ entry ∈ entries, P (value entry)) :
    (entries.foldl (fun bound entry => bound.set (key entry) (value entry)) bindings).All P := by
  induction entries generalizing bindings with
  | nil => exact h
  | cons entry rest ih =>
      have hentry : P (value entry) := hentries entry List.mem_cons_self
      exact ih (h.set (key entry) hentry) fun e he => hentries e (List.mem_cons_of_mem entry he)

end All

end Bindings

theorem Machine.bindParameters_all {P : Value → Prop} {parameters : List Token}
    {vs : List Value} (hlength : parameters.length ≤ vs.length) (h : ∀ v ∈ vs, P v) :
    ∃ bindings : Bindings Value,
      bindParameters [] parameters vs = pure bindings ∧ bindings.All P := by
  refine ⟨_, bindParameters_of_le [] hlength, ?_⟩
  refine Bindings.All.nil.foldl_set (fun entry : Token × Value => entry.1.lexeme) Prod.snd ?_
  intro entry hentry
  exact h entry.2 (List.of_mem_zip hentry).2

/-! ## Values -/

theorem ClassObject.forall_method {P : Closure → Prop} {id : Nat} {name : Bytes}
    {parent : Option ClassObject} {methods : Bindings Closure} (hmethods : methods.All P)
    (hparent : ∀ c ∈ parent, ∀ x code, c.method? x = some code → P code) :
    ∀ x code, (ClassObject.mk id name parent methods).method? x = some code → P code := by
  intro x code hfound
  cases parent with
  | none => exact hmethods x code hfound
  | some c =>
      rw [ClassObject.method?] at hfound
      split at hfound
      · next own hown =>
          cases hfound
          exact hmethods x code hown
      · exact hparent c rfl x code hfound

section

variable (T : Token → Prop) (s : Scopes)

/-- The code runs `inner` scopes further in than where the closure stands. -/
def Closure.Sound (inner : Nat) (c : Closure) : Prop :=
  ∃ k, s.Reaches c.scope k ∧ c.declaration.Fit T (k + inner)

def ClassObject.Sound (c : ClassObject) : Prop :=
  ∀ name code, c.method? name = some code → code.Sound T s 1

def Value.Sound : Value → Prop
  | .function _ code => code.Sound T s 0
  | .classObject c | .object _ c => c.Sound T s
  | _ => True

end

section

variable {T : Token → Prop} {s t : Scopes}

theorem Closure.Sound.mono {inner : Nat} {c : Closure} (h : s.Extends t)
    (hc : c.Sound T s inner) : c.Sound T t inner := by
  obtain ⟨k, hreaches, hfit⟩ := hc
  exact ⟨k, h.reaches hreaches, hfit⟩

theorem ClassObject.Sound.mono {c : ClassObject} (h : s.Extends t) (hc : c.Sound T s) :
    c.Sound T t :=
  fun name code hmethod => (hc name code hmethod).mono h

theorem Value.Sound.mono {v : Value} (h : s.Extends t) (hv : v.Sound T s) : v.Sound T t := by
  cases v with
  | function id code => exact Closure.Sound.mono h hv
  | classObject c | object id c => exact ClassObject.Sound.mono h hv
  | _ => trivial

theorem Bindings.All.mono {bindings : Bindings Value} (h : s.Extends t)
    (hb : bindings.All (Value.Sound T s)) : bindings.All (Value.Sound T t) :=
  hb.imp fun _ hv => hv.mono h

end

/-! ## Machines -/

structure Machine.Sound (T : Token → Prop) (m : Machine) : Prop where
  scopes : ∀ (id : Nat) (scope : Scope), m.scopes[id]? = some scope →
    scope.bindings.All (Value.Sound T m.scopes)
  fields : ∀ (id : Nat) (bindings : Bindings Value), m.fields[id]? = some bindings →
    bindings.All (Value.Sound T m.scopes)

structure Machine.Later (m m' : Machine) : Prop where
  scopes : m.scopes.Extends m'.scopes
  current : m'.current = m.current

namespace Machine.Later

variable {m m₁ m₂ : Machine} {k : Nat}

theorem refl (m : Machine) : m.Later m := ⟨.refl _, rfl⟩

theorem trans (h : m.Later m₁) (h' : m₁.Later m₂) : m.Later m₂ :=
  ⟨h.scopes.trans h'.scopes, h'.current.trans h.current⟩

theorem reaches (h : m.Later m₁) (hk : m.scopes.Reaches m.current k) :
    m₁.scopes.Reaches m₁.current k := by
  rw [h.current]
  exact h.scopes.reaches hk

end Machine.Later

theorem Machine.Sound.define {T : Token → Prop} {m : Machine} (h : m.Sound T) (id : Nat)
    (name : Bytes) {v : Value} (hv : v.Sound T m.scopes) :
    ({ m with scopes := m.scopes.define id name v } : Machine).Sound T := by
  have hext := Scopes.Extends.define m.scopes id name v
  constructor
  · intro i scope hscope
    rw [Scopes.getElem?_define] at hscope
    split at hscope
    · obtain ⟨old, hold, rfl⟩ := Option.map_eq_some_iff.mp hscope
      exact (Bindings.All.set (h.scopes i old hold) name hv).mono hext
    · exact (h.scopes i scope hscope).mono hext
  · intro i bindings hbindings
    exact (h.fields i bindings hbindings).mono hext

theorem Machine.Sound.value_of_get? {T : Token → Prop} {m : Machine} (h : m.Sound T) {id : Nat}
    {name : Bytes} {v : Value} (hget : m.scopes.get? id name = some v) : v.Sound T m.scopes := by
  obtain ⟨owner, scope, hscope, hfound⟩ := Scopes.exists_of_get? hget
  exact h.scopes owner scope hscope name v hfound

theorem Machine.Sound.value_of_getAt? {T : Token → Prop} {m : Machine} (h : m.Sound T)
    {id hops : Nat} {name : Bytes} {v : Value} (hget : m.scopes.getAt? id hops name = some v) :
    v.Sound T m.scopes := by
  rcases Scopes.exists_of_getAt? hget with rfl | ⟨owner, scope, hscope, hfound⟩
  · trivial
  · exact h.scopes owner scope hscope name v hfound

/-! ## Runs -/

/-- A runtime error that blames one of the tokens, or no fuel. -/
def Fault.Blames (T : Token → Prop) : Fault → Prop
  | .runtime error => T error.token ∧ ¬error.cause.IsUnknown
  | .outOfFuel => True
  | .absentExpression | .missingScope | .missingArgument => False

/-- From a sound machine to a sound one with a value as `Q` says, or to a fault with blame. -/
def Run.Safe (T : Token → Prop) (m : Machine) (p : Run α) (Q : Scopes → α → Prop) : Prop :=
  m.Sound T →
    match p m with
    | .done v m' => m'.Sound T ∧ m.Later m' ∧ Q m'.scopes v
    | .fault cause _ => cause.Blames T

namespace Run.Safe

variable {T : Token → Prop} {m : Machine} {α β : Type} {p : Run α} {f : α → Run β}
variable {Q : Scopes → α → Prop} {R : Scopes → β → Prop} {k : Nat}

theorem pure {v : α} (h : Q m.scopes v) : Run.Safe T m (Pure.pure v) Q :=
  fun hm => ⟨hm, .refl m, h⟩

theorem bind (hp : Run.Safe T m p Q)
    (hf : ∀ v m₁, m.Later m₁ → Q m₁.scopes v → Run.Safe T m₁ (f v) R) :
    Run.Safe T m (p >>= f) R := by
  intro hm
  have hfirst := hp hm
  have hbind : (p >>= f) m = Run.bind p f m := rfl
  rw [hbind]
  unfold Run.bind
  cases hpm : p m with
  | fault cause m' =>
      rw [hpm] at hfirst
      exact hfirst
  | done v m₁ =>
      rw [hpm] at hfirst
      obtain ⟨hm₁, hlater, hv⟩ := hfirst
      have hsecond := hf v m₁ hlater hv hm₁
      simp only
      cases hfm : f v m₁ with
      | fault cause m₂ =>
          rw [hfm] at hsecond
          exact hsecond
      | done w m₂ =>
          rw [hfm] at hsecond
          exact ⟨hsecond.1, hlater.trans hsecond.2.1, hsecond.2.2⟩

theorem ite {b : Prop} [Decidable b] {q : Run α} (hp : b → Run.Safe T m p Q)
    (hq : ¬b → Run.Safe T m q Q) : Run.Safe T m (if b then p else q) Q := by
  split
  · exact hp ‹_›
  · exact hq ‹_›

theorem outOfFuel : Run.Safe T m (Machine.stop .outOfFuel) Q :=
  fun _ => trivial

theorem raise {cause : Cause} {t : Token} (ht : T t) (hcause : ¬cause.IsUnknown) :
    Run.Safe T m (Machine.raise cause t) Q :=
  fun _ => ⟨ht, hcause⟩

/-! ### Names -/

theorem newScope {parent : Nat} {bindings : Bindings Value} (hk : m.scopes.Reaches parent k)
    (hb : bindings.All (Value.Sound T m.scopes)) :
    Run.Safe T m (Machine.newScope parent bindings) fun s id => s.Reaches id (k + 1) := by
  intro hm
  have hext := Scopes.Extends.push m.scopes { parent := some parent, bindings }
  refine ⟨⟨?_, ?_⟩, ⟨hext, rfl⟩, hk.push bindings⟩
  · intro id scope hscope
    rw [Array.getElem?_push] at hscope
    split at hscope
    · cases hscope
      exact hb.mono hext
    · exact (hm.scopes id scope hscope).mono hext
  · intro id fields hfields
    exact (hm.fields id fields hfields).mono hext

theorem currentScope (hk : m.scopes.Reaches m.current k) :
    Run.Safe T m Machine.currentScope fun s id => s.Reaches id k :=
  fun hm => ⟨hm, .refl m, hk⟩

theorem inScope {id : Nat} (h : Run.Safe T { m with current := id } p Q) :
    Run.Safe T m (Machine.inScope id p) Q := by
  intro hm
  have hrun := h ⟨hm.scopes, hm.fields⟩
  unfold Machine.inScope
  cases hp : p { m with current := id } with
  | done v m' =>
      rw [hp] at hrun
      obtain ⟨hm', hlater, hv⟩ := hrun
      exact ⟨⟨hm'.scopes, hm'.fields⟩, ⟨hlater.scopes, rfl⟩, hv⟩
  | fault cause m' =>
      rw [hp] at hrun
      exact hrun

theorem defineIn (id : Nat) (name : Bytes) {v : Value} (hv : v.Sound T m.scopes) :
    Run.Safe T m (Machine.defineIn id name v) fun _ _ => True :=
  fun hm => ⟨hm.define id name hv, ⟨.define _ _ _ _, rfl⟩, trivial⟩

theorem define (name : Bytes) {v : Value} (hv : v.Sound T m.scopes) :
    Run.Safe T m (Machine.define name v) fun _ _ => True :=
  defineIn m.current name hv

theorem assign (name : Bytes) {v : Value} (hv : v.Sound T m.scopes) :
    Run.Safe T m (Machine.assign name v) fun _ _ => True := by
  intro hm
  unfold Machine.assign
  cases m.scopes.owner? m.current name with
  | some owner => exact defineIn owner name hv hm
  | none => exact ⟨hm, .refl m, trivial⟩

theorem bindingAt {id hops : Nat} (name : Bytes) (h : m.scopes.Reaches id hops) :
    Run.Safe T m (Machine.bindingAt id hops name) fun s v => v.Sound T s := by
  intro hm
  obtain ⟨owner, howner⟩ := Option.isSome_iff_exists.mp h
  have hfound : ∃ v, m.scopes.getAt? id hops name = some v := by
    have hlt : owner < m.scopes.size := Scopes.ancestor?_lt howner
    simp [Scopes.getAt?, howner, Scopes.bindingsOf?, hlt]
  obtain ⟨v, hv⟩ := hfound
  unfold Machine.bindingAt
  rw [hv]
  exact ⟨hm, .refl m, hm.value_of_getAt? hv⟩

theorem read {r : Reference} (hr : r.Fit T k) (hk : m.scopes.Reaches m.current k) :
    Run.Safe T m (Machine.read r) fun s v => v.Sound T s := by
  intro hm
  unfold Machine.read
  cases hhops : r.hops with
  | some hops =>
      have hreaches := hk.of_le (Nat.le_of_lt (hr.2 hops hhops))
      exact bindingAt r.name.lexeme hreaches hm
  | none =>
      simp only
      cases hget : m.scopes.get? Machine.globalScope r.name.lexeme with
      | some v => exact ⟨hm, .refl m, hm.value_of_get? hget⟩
      | none => exact ⟨hr.1, by simp [Cause.IsUnknown]⟩

theorem write {r : Reference} {v : Value} (hr : r.Fit T k)
    (hk : m.scopes.Reaches m.current k) (hv : v.Sound T m.scopes) :
    Run.Safe T m (Machine.write r v) fun _ _ => True := by
  intro hm
  unfold Machine.write
  cases hhops : r.hops with
  | some hops =>
      have hreaches := hk.of_le (Nat.le_of_lt (hr.2 hops hhops))
      obtain ⟨owner, howner⟩ := Option.isSome_iff_exists.mp hreaches
      simp only [howner]
      exact defineIn owner r.name.lexeme hv hm
  | none =>
      simp only
      cases howner : m.scopes.owner? Machine.globalScope r.name.lexeme with
      | some owner => exact defineIn owner r.name.lexeme hv hm
      | none => exact ⟨hr.1, by simp [Cause.IsUnknown]⟩

/-! ### Identities and fields -/

theorem newIdentity : Run.Safe T m Machine.newIdentity fun _ _ => True :=
  fun hm => ⟨⟨hm.scopes, hm.fields⟩, ⟨.refl _, rfl⟩, trivial⟩

theorem newObject {c : ClassObject} (hc : c.Sound T m.scopes) :
    Run.Safe T m (Machine.newObject c) fun s v => v.Sound T s := by
  intro hm
  refine ⟨⟨hm.scopes, ?_⟩, ⟨.refl _, rfl⟩, hc⟩
  intro id bindings hbindings
  rw [Array.getElem?_push] at hbindings
  split at hbindings
  · cases hbindings
    exact .nil
  · exact hm.fields id bindings hbindings

theorem field? (id : Nat) (name : Bytes) :
    Run.Safe T m (Machine.field? id name) fun s found => ∀ v ∈ found, v.Sound T s := by
  intro hm
  refine ⟨hm, .refl m, ?_⟩
  intro v hv
  obtain ⟨bindings, hbindings, hget⟩ := Option.bind_eq_some_iff.mp hv
  exact hm.fields id bindings hbindings name v hget

theorem setField (id : Nat) (name : Bytes) {v : Value} (hv : v.Sound T m.scopes) :
    Run.Safe T m (Machine.setField id name v) fun _ _ => True := by
  intro hm
  refine ⟨⟨hm.scopes, ?_⟩, ⟨.refl _, rfl⟩, trivial⟩
  intro i bindings hbindings
  simp only [Array.getElem?_modify] at hbindings
  split at hbindings
  · obtain ⟨old, hold, rfl⟩ := Option.map_eq_some_iff.mp hbindings
    exact Bindings.All.set (hm.fields i old hold) name hv
  · exact hm.fields i bindings hbindings

/-! ### Calls, the clock and output -/

theorem deeper (h : Run.Safe T { m with depth := m.depth + 1 } p Q) :
    Run.Safe T m (Machine.deeper p) Q := by
  intro hm
  have hrun := h ⟨hm.scopes, hm.fields⟩
  unfold Machine.deeper
  cases hp : p { m with depth := m.depth + 1 } with
  | done v m' =>
      rw [hp] at hrun
      obtain ⟨hm', hlater, hv⟩ := hrun
      exact ⟨⟨hm'.scopes, hm'.fields⟩, ⟨hlater.scopes, hlater.current⟩, hv⟩
  | fault cause m' =>
      rw [hp] at hrun
      exact hrun

theorem isFull : Run.Safe T m Machine.isFull fun _ _ => True :=
  fun hm => ⟨hm, .refl m, trivial⟩

theorem printLine (line : Bytes) : Run.Safe T m (Machine.printLine line) fun _ _ => True :=
  fun hm => ⟨⟨hm.scopes, hm.fields⟩, ⟨.refl _, rfl⟩, trivial⟩

end Run.Safe

end Lox
