import Lox.Proofs.Objects.Known
import Lox.Proofs.Termination.Finishing

/-!
Initializers that have their object.

A class keeps its methods without an object, and a method becomes a value only by being bound:
a new scope then binds `this` to the object.  No variable, parameter or declaration is named
`this`, so nothing ever binds it again there.  The judgement `Guarded` says of a run that it
keeps all this, whether it ends by a value or by a fault, and whatever distances its
references have.
-/

namespace Lox

open Access (Binds)

/-! ## Names -/

def Expr.Named (e : Expr) : Prop := (e.relabel .unresolve).WellFormed

def Expr.NamedList (es : List Expr) : Prop := Expr.WellFormedList (Expr.relabelList .unresolve es)

def Stmt.Named (s : Stmt) : Prop := (s.relabel .unresolve).WellFormed

def Stmt.NamedList (body : List Stmt) : Prop :=
  Stmt.WellFormedList (Stmt.relabelList .unresolve body)

def FunctionDecl.Named (f : FunctionDecl) : Prop := (f.relabel .unresolve).WellFormed

theorem FunctionDecl.named_of_mem {methods : List FunctionDecl}
    (h : FunctionDecl.WellFormedList (FunctionDecl.relabelList .unresolve methods)) :
    ∀ f ∈ methods, f.Named := by
  induction methods with
  | nil => simp
  | cons first rest ih =>
      simp only [FunctionDecl.relabelList, FunctionDecl.WellFormedList] at h
      exact List.forall_mem_cons.mpr ⟨h.1, ih h.2⟩

theorem FunctionDecl.Named.body {f : FunctionDecl} (h : f.Named) : Stmt.NamedList f.body := by
  cases f
  simp only [Named, FunctionDecl.relabel, FunctionDecl.WellFormed] at h
  exact h.2

/-! ## Values -/

def Closure.BoundTo (m : Machine) (code : Closure) (v : Value) : Prop :=
  Binds m code.scope 0 (utf8 "this") v

structure Closure.Owned (m : Machine) (code : Closure) : Prop where
  named : code.declaration.Named
  bound : code.isInitializer = true → ∃ id c, code.BoundTo m (.object id c)

def ClassObject.Named (c : ClassObject) : Prop := c.Carries FunctionDecl.Named

/-- A function that is an initializer has its object, and an object is one of those made. -/
def Value.Owned (m : Machine) : Value → Prop
  | .function _ code => code.Owned m
  | .classObject c => c.Named
  | .object id c => id < m.fields.size ∧ c.Named
  | _ => True

def Machine.Owned (m : Machine) : Prop := ∀ v, m.Holds v → v.Owned m

/-- Later in a run: no object is gone, and no scope binds `this` anew. -/
structure Machine.Grows (m m' : Machine) : Prop where
  scopes : m.scopes.Keeps m'.scopes
  fields : m.fields.size ≤ m'.fields.size

section

variable {m m₁ m₂ : Machine}

theorem Machine.Grows.refl (m : Machine) : m.Grows m := ⟨.refl _, Nat.le_refl _⟩

theorem Machine.Grows.trans (h : m.Grows m₁) (h' : m₁.Grows m₂) : m.Grows m₂ :=
  ⟨h.scopes.trans h'.scopes, Nat.le_trans h.fields h'.fields⟩

theorem Machine.Grows.alike (h : m.Alike m₁) : m.Grows m₁ :=
  ⟨h.scopes ▸ .refl _, h.fields ▸ Nat.le_refl _⟩

theorem Closure.BoundTo.mono {code : Closure} {v : Value} (h : m.Grows m₁)
    (hcode : code.BoundTo m v) : code.BoundTo m₁ v :=
  Objects.binds_mono h.scopes (.inl rfl) hcode

theorem Closure.BoundTo.unique {code : Closure} {v w : Value} (hv : code.BoundTo m v)
    (hw : code.BoundTo m w) : v = w := by
  have hrun := (Objects.bindingAt_of_binds hv).symm.trans (Objects.bindingAt_of_binds hw)
  cases hrun
  rfl

theorem Closure.Owned.mono {code : Closure} (h : m.Grows m₁) (hcode : code.Owned m) :
    code.Owned m₁ := by
  refine ⟨hcode.named, fun hinit => ?_⟩
  obtain ⟨id, c, hbound⟩ := hcode.bound hinit
  exact ⟨id, c, hbound.mono h⟩

theorem Value.Owned.mono {v : Value} (h : m.Grows m₁) (hv : v.Owned m) : v.Owned m₁ := by
  cases v with
  | function id code => exact Closure.Owned.mono h hv
  | object id c => exact ⟨Nat.lt_of_lt_of_le hv.1 h.fields, hv.2⟩
  | _ => exact hv

theorem Value.owned_list_mono {vs : List Value} (h : m.Grows m₁) (hvs : ∀ v ∈ vs, v.Owned m) :
    ∀ v ∈ vs, v.Owned m₁ :=
  fun v hv => (hvs v hv).mono h

theorem Machine.Owned.alike (h : m.Owned) (hsame : m.Alike m₁) : m₁.Owned := by
  intro v hv
  unfold Machine.Holds at hv
  rw [hsame.scopes, hsame.fields] at hv
  exact (h v hv).mono (.alike hsame)

theorem Machine.Owned.read {r : Reference} {v : Value} (h : m.Owned)
    (hv : Machine.read r m = .done v m₁) : v.Owned m := by
  rcases Machine.holds_of_read hv with rfl | hheld
  · trivial
  · exact h v hheld

theorem Machine.Owned.bindingAt {i hops : Nat} {x : Bytes} {v : Value} (h : m.Owned)
    (hv : Machine.bindingAt i hops x m = .done v m₁) : v.Owned m := by
  rcases Machine.holds_of_bindingAt hv with rfl | hheld
  · trivial
  · exact h v hheld

end

/-! ## Runs -/

/-- From a machine whose initializers have their objects to one of that kind, with a value as
`Q` says or with a fault. -/
def Run.Guarded (m : Machine) (p : Run α) (Q : Machine → α → Prop) : Prop :=
  m.Owned → m.Grows (p m).machine ∧ (p m).machine.Owned ∧ ∀ v m', p m = .done v m' → Q m' v

namespace Run.Guarded

variable {m : Machine} {α β : Type} {p : Run α} {f : α → Run β}
variable {Q : Machine → α → Prop} {R : Machine → β → Prop}

theorem imp {Q' : Machine → α → Prop} (h : Run.Guarded m p Q) (hQ : ∀ m v, Q m v → Q' m v) :
    Run.Guarded m p Q' := by
  intro hm
  obtain ⟨hgrows, howned, hv⟩ := h hm
  exact ⟨hgrows, howned, fun v m' hrun => hQ m' v (hv v m' hrun)⟩

theorem done (h : Run.Guarded m p Q) (hm : m.Owned) {v : α} {m' : Machine}
    (hrun : p m = .done v m') : m.Grows m' ∧ m'.Owned ∧ Q m' v := by
  obtain ⟨hgrows, howned, hv⟩ := h hm
  rw [hrun] at hgrows howned
  exact ⟨hgrows, howned, hv v m' hrun⟩

theorem look (hp : Run.Looks p) (hQ : m.Owned → ∀ v, p m = .done v m → Q m v) :
    Run.Guarded m p Q := by
  intro hm
  have hsame := hp m
  refine ⟨?_, ?_, fun v m' hrun => ?_⟩
  · rw [hsame]
    exact .refl m
  · rw [hsame]
    exact hm
  · obtain rfl : m' = m := by rwa [hrun] at hsame
    exact hQ hm v hrun

theorem pure {v : α} (h : Q m v) : Run.Guarded m (Pure.pure v) Q := by
  refine look (fun _ => rfl) fun _ w hw => ?_
  cases hw
  exact h

theorem stop (cause : Fault) : Run.Guarded m (Machine.stop cause : Run α) Q := by
  refine look (fun _ => rfl) fun _ v hv => ?_
  cases hv

theorem raise (cause : Cause) (t : Token) : Run.Guarded m (Machine.raise cause t : Run α) Q :=
  stop _

theorem bind (hp : Run.Guarded m p Q)
    (hf : ∀ v m₁, m.Grows m₁ → Q m₁ v → Run.Guarded m₁ (f v) R) :
    Run.Guarded m (p >>= f) R := by
  intro hm
  obtain ⟨hgrows, howned, hv⟩ := hp hm
  have hbind : (p >>= f) m = Run.bind p f m := rfl
  rw [hbind]
  unfold Run.bind
  cases hpm : p m with
  | fault cause m₁ =>
      rw [hpm] at hgrows howned
      exact ⟨hgrows, howned, fun v m' hrun => by cases hrun⟩
  | done v m₁ =>
      rw [hpm] at hgrows howned
      obtain ⟨hgrows', howned', hw⟩ := hf v m₁ hgrows (hv v m₁ hpm) howned
      exact ⟨hgrows.trans hgrows', howned', hw⟩

theorem ite {c : Prop} [Decidable c] {q : Run α} (hp : c → Run.Guarded m p Q)
    (hq : ¬c → Run.Guarded m q Q) : Run.Guarded m (if c then p else q) Q := by
  split
  · exact hp ‹_›
  · exact hq ‹_›

theorem move (hgrows : m.Grows (p m).machine)
    (hheld : m.Owned → ∀ v, (p m).machine.Holds v → v.Owned m)
    (hQ : m.Owned → ∀ v m', p m = .done v m' → Q m' v) : Run.Guarded m p Q :=
  fun hm => ⟨hgrows, fun v hv => (hheld hm v hv).mono hgrows, hQ hm⟩

theorem aside (hsame : m.Alike (p m).machine) (hQ : ∀ v m', p m = .done v m' → Q m' v) :
    Run.Guarded m p Q :=
  fun hm => ⟨.alike hsame, hm.alike hsame, hQ⟩

theorem framed {q : Run α} {start : Machine} (finish : Machine → Machine)
    (h : Run.Guarded start p Q) (hq : q m = (p start).onMachine finish)
    (hstart : m.Alike start) (hfinish : ∀ m', Machine.Alike m' (finish m'))
    (hQ : ∀ m₁ m₂ v, m₁.Alike m₂ → Q m₁ v → Q m₂ v) : Run.Guarded m q Q := by
  intro hm
  obtain ⟨hgrows, howned, hv⟩ := h (hm.alike hstart)
  rw [hq, Outcome.onMachine_machine]
  refine ⟨(Machine.Grows.alike hstart).trans (hgrows.trans (.alike (hfinish _))),
    howned.alike (hfinish _), fun v m' hrun => ?_⟩
  cases hp : p start with
  | done w m₁ =>
      rw [hp] at hrun
      cases hrun
      exact hQ m₁ _ v (hfinish m₁) (hv v m₁ hp)
  | fault cause m₁ =>
      rw [hp] at hrun
      cases hrun

/-! ### Names -/

theorem newScope (parent : Nat) {bindings : Bindings Value}
    (hb : bindings.All (Value.Owned m)) :
    Run.Guarded m (Machine.newScope parent bindings) fun m' i =>
      ∀ v, bindings.get? (utf8 "this") = some v → Binds m' i 0 (utf8 "this") v := by
  refine move ⟨.push _ _, Nat.le_refl _⟩ (fun hm v hv => ?_) fun _ i m' hrun v hget => ?_
  · rcases Machine.holds_newScope hv with ⟨x, hget⟩ | hv
    · exact hb x v hget
    · exact hm v hv
  · cases hrun
    exact Objects.binds_zero Array.getElem?_push_size hget

theorem defineIn (i : Nat) {name : Token} (hname : name.Nameable) {v : Value}
    (hv : v.Owned m) : Run.Guarded m (Machine.defineIn i name.lexeme v) fun _ _ => True := by
  refine move ⟨.define _ i hname v, Nat.le_refl _⟩ (fun hm u hu => ?_) fun _ _ _ _ => trivial
  rcases Machine.holds_define hu with rfl | hu
  · exact hv
  · exact hm u hu

theorem define {name : Token} (hname : name.Nameable) {v : Value} (hv : v.Owned m) :
    Run.Guarded m (Machine.define name.lexeme v) fun _ _ => True :=
  defineIn m.current hname hv

theorem assign {name : Token} (hname : name.Nameable) {v : Value} (hv : v.Owned m) :
    Run.Guarded m (Machine.assign name.lexeme v) fun _ _ => True := by
  intro hm
  unfold Machine.assign
  split
  · exact defineIn _ hname hv hm
  · exact ⟨.refl m, hm, fun _ _ _ => trivial⟩

theorem write {r : Reference} (hname : r.name.Nameable) {v : Value} (hv : v.Owned m) :
    Run.Guarded m (Machine.write r v) fun _ _ => True := by
  intro hm
  unfold Machine.write
  split <;> split
  · exact defineIn _ hname hv hm
  · exact ⟨.refl m, hm, fun _ _ _ => trivial⟩
  · exact defineIn _ hname hv hm
  · exact ⟨.refl m, hm, fun _ _ _ => trivial⟩

theorem read (r : Reference) : Run.Guarded m (Machine.read r) fun m' v => v.Owned m' :=
  look (Machine.read_looks r) fun hm _ hv => hm.read hv

theorem bindingAt (i hops : Nat) (x : Bytes) :
    Run.Guarded m (Machine.bindingAt i hops x) fun m' v => v.Owned m' :=
  look (Machine.bindingAt_looks i hops x) fun hm _ hv => hm.bindingAt hv

theorem currentScope : Run.Guarded m Machine.currentScope fun _ _ => True :=
  look (fun _ => rfl) fun _ _ _ => trivial

theorem inScope {i : Nat} (h : Run.Guarded { m with current := i } p Q)
    (hQ : ∀ m₁ m₂ v, m₁.Alike m₂ → Q m₁ v → Q m₂ v) :
    Run.Guarded m (Machine.inScope i p) Q := by
  refine framed (fun m' => { m' with current := m.current }) h ?_ ⟨rfl, rfl⟩
    (fun _ => ⟨rfl, rfl⟩) hQ
  unfold Machine.inScope
  cases p { m with current := i } <;> rfl

/-! ### Identities and fields -/

theorem newIdentity : Run.Guarded m Machine.newIdentity fun _ _ => True :=
  aside ⟨rfl, rfl⟩ fun _ _ _ => trivial

theorem newObject {c : ClassObject} (hc : c.Named) :
    Run.Guarded m (Machine.newObject c) fun m' v =>
      v = .object m.fields.size c ∧ v.Owned m' := by
  refine move ⟨.refl _, ?_⟩ (fun hm v hv => hm v (Machine.holds_newObject hv)) ?_
  · simp [Machine.newObject, Outcome.machine]
  · intro _ v m' hrun
    cases hrun
    exact ⟨rfl, by simp, hc⟩

theorem field? (id : Nat) (name : Bytes) :
    Run.Guarded m (Machine.field? id name) fun m' found => ∀ v ∈ found, v.Owned m' := by
  refine look (fun _ => rfl) fun hm found hrun v hv => ?_
  cases hrun
  exact hm v (Machine.holds_of_field hv)

theorem setField (id : Nat) (name : Bytes) {v : Value} (hv : v.Owned m) :
    Run.Guarded m (Machine.setField id name v) fun _ _ => True := by
  refine move ⟨.refl _, ?_⟩ (fun hm u hu => ?_) fun _ _ _ _ => trivial
  · simp [Machine.setField, Outcome.machine]
  · rcases Machine.holds_setField hu with rfl | hu
    · exact hv
    · exact hm u hu

/-! ### Calls and output -/

theorem deeper (h : Run.Guarded { m with depth := m.depth + 1 } p Q)
    (hQ : ∀ m₁ m₂ v, m₁.Alike m₂ → Q m₁ v → Q m₂ v) :
    Run.Guarded m (Machine.deeper p) Q := by
  refine framed (fun m' => { m' with depth := m'.depth - 1 }) h ?_ ⟨rfl, rfl⟩
    (fun _ => ⟨rfl, rfl⟩) hQ
  unfold Machine.deeper
  cases p { m with depth := m.depth + 1 } <;> rfl

theorem isFull : Run.Guarded m Machine.isFull fun _ _ => True :=
  look (fun _ => rfl) fun _ _ _ => trivial

theorem bindParameters (parameters : List Token) {vs : List Value} (hvs : ∀ v ∈ vs, v.Owned m) :
    Run.Guarded m (Machine.bindParameters [] parameters vs) fun m' bindings =>
      bindings.All (Value.Owned m') := by
  by_cases hlength : parameters.length ≤ vs.length
  · obtain ⟨bindings, hbind, hbound⟩ := Machine.bindParameters_all hlength hvs
    rw [hbind]
    exact .pure hbound
  · rw [Machine.bindParameters_of_lt [] (Nat.lt_of_not_le hlength)]
    exact .stop _

theorem printLine (line : Bytes) : Run.Guarded m (Machine.printLine line) fun _ _ => True :=
  aside ⟨rfl, rfl⟩ fun _ _ _ => trivial

end Run.Guarded

end Lox
