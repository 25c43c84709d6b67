import Lox.Proofs.Objects.Chronicle
import Lox.Proofs.Scopes
import Lox.Proofs.WellFormed

/-!
Chronicles that tell the truth.

In a faithful chronicle every value that shows up was told of before: a function when it was
made, an object when it was created, a class and all its ancestors when their class statements
were executed.  Each of them gets a number that is greater than all numbers told of before.  So
a number stands for one thing ever after, and the ancestors of a class are older than it is.
No scope that binds `this` or `super` ever binds it to something else.  A use of `this` gives
the object of the home it is told with, and a use of `super` finds its method from the
superclass of the home's class on.
-/

namespace Lox

namespace Scopes

def Keeps (s t : Scopes) : Prop :=
  ∀ (i : Nat) (scope : Scope), s[i]? = some scope →
    ∃ scope' : Scope, t[i]? = some scope' ∧ scope'.parent = scope.parent ∧
      scope'.bindings.get? (utf8 "this") = scope.bindings.get? (utf8 "this") ∧
      scope'.bindings.get? (utf8 "super") = scope.bindings.get? (utf8 "super")

variable {s t u : Scopes}

theorem Keeps.refl (s : Scopes) : s.Keeps s := fun _ scope h => ⟨scope, h, rfl, rfl, rfl⟩

theorem Keeps.trans (h : s.Keeps t) (h' : t.Keeps u) : s.Keeps u := by
  intro i scope hscope
  obtain ⟨scope₁, hscope₁, hparent₁, hthis₁, hsuper₁⟩ := h i scope hscope
  obtain ⟨scope₂, hscope₂, hparent₂, hthis₂, hsuper₂⟩ := h' i scope₁ hscope₁
  exact ⟨scope₂, hscope₂, hparent₂.trans hparent₁, hthis₂.trans hthis₁, hsuper₂.trans hsuper₁⟩

theorem Keeps.extends (h : s.Keeps t) : s.Extends t := by
  intro i scope hscope
  obtain ⟨scope', hscope', hparent, -⟩ := h i scope hscope
  exact ⟨scope', hscope', hparent⟩

theorem Extends.ancestor? (h : s.Extends t) {i hops j : Nat} (hj : s.ancestor? i hops = some j) :
    t.ancestor? i hops = some j := by
  induction hops generalizing i with
  | zero =>
      rw [Scopes.ancestor?] at hj ⊢
      split at hj
      · obtain ⟨scope', hscope', -⟩ := h i s[i] (Array.getElem?_eq_getElem ‹_›)
        rw [if_pos (Array.getElem?_eq_some_iff.mp hscope').1]
        exact hj
      · cases hj
  | succ hops ih =>
      rw [Scopes.ancestor?] at hj ⊢
      split at hj
      next parent bindings hscope =>
        obtain ⟨⟨_, bindings'⟩, hscope', rfl⟩ := h i _ hscope
        rw [hscope']
        exact ih hj
      next => cases hj

theorem Keeps.push (s : Scopes) (scope : Scope) : s.Keeps (s.push scope) := by
  intro i scope' h
  obtain ⟨hlt, -⟩ := Array.getElem?_eq_some_iff.mp h
  refine ⟨scope', ?_, rfl, rfl, rfl⟩
  rw [Array.getElem?_push_lt hlt]
  exact (Array.getElem?_eq_getElem hlt).symm.trans h

theorem Keeps.define (s : Scopes) (i : Nat) {name : Token} (hname : name.Nameable) (v : Value) :
    s.Keeps (s.define i name.lexeme v) := by
  intro j scope h
  by_cases hj : i = j
  · subst hj
    exact ⟨_, getElem?_define_self _ v h, rfl, Bindings.get?_set_of_ne _ v hname.1,
      Bindings.get?_set_of_ne _ v hname.2⟩
  · exact ⟨scope, (getElem?_define_of_ne s _ v hj).trans h, rfl, rfl, rfl⟩

end Scopes

def Machine.Holds (m : Machine) (v : Value) : Prop :=
  (∃ (i : Nat) (scope : Scope) (x : Bytes),
      m.scopes[i]? = some scope ∧ scope.bindings.get? x = some v) ∨
    ∃ (i : Nat) (bindings : Bindings Value) (x : Bytes),
      m.fields[i]? = some bindings ∧ bindings.get? x = some v

def Value.classes : Value → List ClassObject
  | .classObject c | .object _ c => c.lineage
  | _ => []

namespace Objects

/-- The superclass is the class that its name stood for when the class statement began. -/
def Inherits (before : Machine) (superclass : Option Reference) (parent : Option ClassObject) :
    Prop :=
  match superclass with
  | none => parent = none
  | some r => ∃ c, parent = some c ∧ Machine.read r before = .done (.classObject c) before

/-- Objects are numbered by themselves, functions and classes together. -/
inductive Kind where
  | object
  | other
  deriving DecidableEq, Repr

namespace Entry

def number? : Entry → Option (Kind × Nat)
  | .created id _ => some (.object, id)
  | .declared _ _ _ _ _ c => some (.other, c.id)
  | .made id _ _ => some (.other, id)
  | _ => none

def Shows : Entry → Value → Prop
  | .state m, v => m.Holds v
  | .given u, v => u = v
  | _, _ => False

end Entry

namespace Tape

def Declares (tape : Tape) (c : ClassObject) (methods : List FunctionDecl) : Prop :=
  ∃ before name superclass scope,
    Entry.declared before name superclass methods scope c ∈ tape

def Lists (tape : Tape) : Value → Prop
  | .function id code => ∃ home, Entry.made id code home ∈ tape
  | .classObject c => ∀ a ∈ c.lineage, ∃ methods, tape.Declares a methods
  | .object id c =>
      Entry.created id c ∈ tape ∧ ∀ a ∈ c.lineage, ∃ methods, tape.Declares a methods
  | _ => True

def Below (tape : Tape) (kind : Kind) (n : Nat) : Prop :=
  ∀ entry ∈ tape, ∀ i, entry.number? = some (kind, i) → i < n

end Tape

/--
The home is that of a method which one of the object's classes declares, in the class statement
that made that class.
-/
def Tape.Backs (tape : Tape) (h : Home) : Prop :=
  ∃ id c, h.receiver = .object id c ∧ Entry.created id c ∈ tape ∧ h.owner ∈ c.lineage ∧
    ∃ methods, tape.Declares h.owner methods ∧ h.method ∈ methods

/--
What an entry says is right, given the entries before it.  Only the uses in `stray` may have no
home.
-/
def Entry.Right (stray : Reference → Prop) (tape : Tape) : Entry → Prop
  | .state m => (∀ v, m.Holds v → tape.Lists v) ∧
      ∀ m₀, Entry.state m₀ ∈ tape → m₀.scopes.Keeps m.scopes
  | .given v => tape.Lists v
  | .declared before name superclass methods scope c =>
      c.name = name.lexeme ∧ c.ownMethods = Machine.methodsIn scope methods ∧
        Inherits before superclass c.parent? ∧
        (∀ parent ∈ c.parent?, tape.Lists (.classObject parent)) ∧ tape.Below .other c.id
  | .created id c => tape.Lists (.classObject c) ∧ tape.Below .object id
  | .made id _ _ => tape.Below .other id
  | .thisUsed (some h) r before answer =>
      tape.Backs h ∧ r ∈ h.method.selves ∧ answer = .done h.receiver before
  | .superUsed (some h) r method before answer =>
      tape.Backs h ∧ r ∈ h.method.selves ∧
        ∃ parent, h.owner.parent? = some parent ∧
          answer = Machine.methodFrom parent h.receiver method before
  | .thisUsed none r _ _ | .superUsed none r _ _ _ => stray r

def Tape.Faithful (stray : Reference → Prop) : Tape → Prop
  | [] => True
  | entry :: earlier => entry.Right stray earlier ∧ Faithful stray earlier

/-! ## More entries -/

section

variable {tape tape' : Tape}

theorem Tape.Declares.mono (h : tape ⊆ tape') {c : ClassObject} {methods : List FunctionDecl}
    (hc : tape.Declares c methods) : tape'.Declares c methods := by
  obtain ⟨before, name, superclass, scope, hmem⟩ := hc
  exact ⟨before, name, superclass, scope, h hmem⟩

theorem Tape.Lists.mono (h : tape ⊆ tape') {v : Value} (hv : tape.Lists v) : tape'.Lists v := by
  have hclass {c : ClassObject} (hc : ∀ a ∈ c.lineage, ∃ methods, tape.Declares a methods) :
      ∀ a ∈ c.lineage, ∃ methods, tape'.Declares a methods := by
    intro a ha
    obtain ⟨methods, hmethods⟩ := hc a ha
    exact ⟨methods, hmethods.mono h⟩
  cases v with
  | function id code =>
      obtain ⟨home, hmem⟩ := hv
      exact ⟨home, h hmem⟩
  | classObject c => exact hclass hv
  | object id c => exact ⟨h hv.1, hclass hv.2⟩
  | _ => trivial

theorem Tape.Backs.mono (h : tape ⊆ tape') {home : Home} (hhome : tape.Backs home) :
    tape'.Backs home := by
  obtain ⟨id, c, hreceiver, hcreated, howner, methods, hdeclares, hmethod⟩ := hhome
  exact ⟨id, c, hreceiver, h hcreated, howner, methods, hdeclares.mono h, hmethod⟩

theorem Tape.Below.le {kind : Kind} {m n : Nat} (h : tape.Below kind m) (hle : m ≤ n) :
    tape.Below kind n :=
  fun entry hentry i hi => Nat.lt_of_lt_of_le (h entry hentry i hi) hle

theorem Tape.Below.cons {kind : Kind} {n : Nat} {entry : Entry}
    (hentry : ∀ i, entry.number? = some (kind, i) → i < n) (h : tape.Below kind n) :
    Tape.Below (entry :: tape) kind n :=
  List.forall_mem_cons.mpr ⟨hentry, h⟩

end

/-! ## Faithful chronicles -/

variable {stray : Reference → Prop} {tape : Tape}

theorem Entry.Right.below {entry : Entry} (h : entry.Right stray tape) {kind : Kind} {n : Nat}
    (hn : entry.number? = some (kind, n)) : tape.Below kind n := by
  cases entry with
  | created id c =>
      cases hn
      exact h.2
  | declared before name superclass methods scope c =>
      cases hn
      exact h.2.2.2.2
  | made id code home =>
      cases hn
      exact h
  | _ => cases hn

namespace Tape

theorem Faithful.suffix {later earlier : Tape} (h : Faithful stray (later ++ earlier)) :
    earlier.Faithful stray := by
  induction later with
  | nil => exact h
  | cons entry rest ih => exact ih h.2

theorem Faithful.right (h : tape.Faithful stray) {entry : Entry} (hmem : entry ∈ tape) :
    ∃ later earlier : Tape, tape = later ++ entry :: earlier ∧ earlier ⊆ tape ∧
      entry.Right stray earlier := by
  obtain ⟨later, earlier, rfl⟩ := List.append_of_mem hmem
  refine ⟨later, earlier, rfl, fun e he => ?_, h.suffix.1⟩
  exact List.mem_append_right _ (List.mem_cons_of_mem _ he)

/-- A number stands for one thing. -/
theorem Faithful.eq_of_number? (h : tape.Faithful stray) {entry entry' : Entry} {kind : Kind}
    {n : Nat} (hmem : entry ∈ tape) (hmem' : entry' ∈ tape)
    (hn : entry.number? = some (kind, n)) (hn' : entry'.number? = some (kind, n)) :
    entry = entry' := by
  induction tape with
  | nil => cases hmem
  | cons first rest ih =>
      have hbelow {e : Entry} (he : e ∈ rest) (hfirst : first.number? = some (kind, n))
          (hn : e.number? = some (kind, n)) : False :=
        Nat.lt_irrefl n (h.1.below hfirst e he n hn)
      rcases List.mem_cons.mp hmem with rfl | hmem <;>
        rcases List.mem_cons.mp hmem' with rfl | hmem'
      · rfl
      · exact (hbelow ‹_› hn hn').elim
      · exact (hbelow ‹_› hn' hn).elim
      · exact ih h.2 ‹_› ‹_›

theorem Faithful.homeOf_eq (h : tape.Faithful stray) {id : Nat} {code : Closure}
    {home : Option Home} (hmem : Entry.made id code home ∈ tape) : tape.homeOf id = home := by
  induction tape with
  | nil => cases hmem
  | cons first rest ih =>
      rcases List.mem_cons.mp hmem with rfl | hrest
      · simp [homeOf]
      · have hhome := ih h.2 hrest
        cases first with
        | made id' code' home' =>
            rw [homeOf]
            split
            next hid =>
              subst hid
              cases h.eq_of_number? List.mem_cons_self hmem rfl rfl
              rfl
            next => exact hhome
        | _ => exact hhome

/-- The ancestors of a class are older, the farther the older. -/
theorem Faithful.lineage_older {tape : Tape} (h : tape.Faithful stray) (c : ClassObject)
    (hc : tape.Lists (.classObject c)) : c.lineage.Pairwise fun a b => b.id < a.id := by
  match c with
  | .mk id name none methods => exact List.pairwise_singleton _ _
  | .mk id name (some parent) methods =>
      obtain ⟨declarations, before, name, superclass, scope, hmem⟩ :=
        hc _ (ClassObject.mem_lineage_self _)
      obtain ⟨later, earlier, hsplit, -, -, -, -, hparent, hbelow⟩ := h.right hmem
      have hearlier : Lists earlier (.classObject parent) := hparent parent rfl
      have hfaithful : Faithful stray earlier := (hsplit ▸ h).suffix.2
      have holder := Faithful.lineage_older hfaithful parent hearlier
      refine List.pairwise_cons.mpr ⟨fun a ha => ?_, holder⟩
      obtain ⟨methods, before, name, superclass, scope, hmem⟩ := hearlier a ha
      exact hbelow _ hmem a.id rfl

end Tape

end Objects

end Lox
