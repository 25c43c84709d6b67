import Lox.Proofs.Operations

/-!
Steps that have nothing to do with the limit on calls.

All that a program does outside of function calls keeps the depth, only adds to the
output and would be the same under any other limit.
-/

namespace Lox

def Machine.withLimit (limit : Nat) (m : Machine) : Machine := { m with limit }

structure Machine.Onward (m m' : Machine) : Prop where
  current : m'.current = m.current
  depth : m'.depth = m.depth
  limit : m'.limit = m.limit
  printed : m.printed <:+ m'.printed

theorem Machine.Onward.refl (m : Machine) : m.Onward m :=
  ⟨rfl, rfl, rfl, List.suffix_refl _⟩

theorem Machine.Onward.trans {m m₁ m₂ : Machine} (h : m.Onward m₁) (h' : m₁.Onward m₂) :
    m.Onward m₂ where
  current := h'.current.trans h.current
  depth := h'.depth.trans h.depth
  limit := h'.limit.trans h.limit
  printed := h.printed.trans h'.printed

def Fault.IsOverflow : Fault → Prop
  | .runtime error => error.cause = .stackOverflow
  | _ => False

namespace Outcome

def onMachine (change : Machine → Machine) : Outcome α → Outcome α
  | .done v m => .done v (change m)
  | .fault cause m => .fault cause (change m)

@[simp] theorem onMachine_machine (change : Machine → Machine) (out : Outcome α) :
    (out.onMachine change).machine = change out.machine := by
  cases out <;> rfl

def withLimit (limit : Nat) (out : Outcome α) : Outcome α := out.onMachine (.withLimit limit)

def Overflows : Outcome α → Prop
  | .done _ _ => False
  | .fault cause _ => cause.IsOverflow

@[simp] theorem onMachine_overflows (change : Machine → Machine) (out : Outcome α) :
    (out.onMachine change).Overflows ↔ out.Overflows := by
  cases out <;> rfl

end Outcome

namespace Run

theorem bind_of_done {p : Run α} {f : α → Run β} {m m₁ : Machine} {v : α}
    (h : p m = .done v m₁) : (p >>= f) m = f v m₁ := by
  change Run.bind p f m = _
  unfold Run.bind
  rw [h]

theorem exists_of_bind {p : Run α} {f : α → Run β} {m m' : Machine} {w : β}
    (h : (p >>= f) m = .done w m') : ∃ v m₁, p m = .done v m₁ ∧ f v m₁ = .done w m' := by
  change Run.bind p f m = _ at h
  unfold Run.bind at h
  cases hp : p m with
  | done v m₁ => exact ⟨v, m₁, rfl, by rwa [hp] at h⟩
  | fault cause m₁ =>
      rw [hp] at h
      cases h

theorem bind_of_fault {p : Run α} {f : α → Run β} {m m₁ : Machine} {cause : Fault}
    (h : p m = .fault cause m₁) : (p >>= f) m = .fault cause m₁ := by
  change Run.bind p f m = _
  unfold Run.bind
  rw [h]

/-- Without influence on the depth, and under no influence of the limit. -/
structure Steady (p : Run α) : Prop where
  onward : ∀ m : Machine, m.Onward (p m).machine
  calm : ∀ m, ¬(p m).Overflows
  blind : ∀ (limit : Nat) (m : Machine), p (m.withLimit limit) = (p m).withLimit limit

namespace Steady

open Machine

variable {α β : Type} {p : Run α}

theorem pure (v : α) : Steady (Pure.pure v) :=
  ⟨Onward.refl, fun _ => id, fun _ _ => rfl⟩

theorem bind {f : α → Run β} (hp : Steady p) (hf : ∀ v, Steady (f v)) : Steady (p >>= f) := by
  constructor
  case onward =>
    intro m
    have hfirst := hp.onward m
    cases hpm : p m with
    | done v m₁ =>
        rw [hpm] at hfirst
        rw [bind_of_done hpm]
        exact hfirst.trans ((hf v).onward m₁)
    | fault cause m₁ =>
        rw [hpm] at hfirst
        rwa [bind_of_fault hpm]
  case calm =>
    intro m
    have hfirst := hp.calm m
    cases hpm : p m with
    | done v m₁ =>
        rw [bind_of_done hpm]
        exact (hf v).calm m₁
    | fault cause m₁ =>
        rw [hpm] at hfirst
        rwa [bind_of_fault hpm]
  case blind =>
    intro limit m
    have hfirst := hp.blind limit m
    cases hpm : p m with
    | done v m₁ =>
        rw [hpm] at hfirst
        rw [bind_of_done hpm, bind_of_done hfirst]
        exact (hf v).blind limit m₁
    | fault cause m₁ =>
        rw [hpm] at hfirst
        rw [bind_of_fault hpm, bind_of_fault hfirst]
        rfl

theorem stop {cause : Fault} (h : ¬cause.IsOverflow) : Steady (stop cause : Run α) :=
  ⟨Onward.refl, fun _ => h, fun _ _ => rfl⟩

theorem raise {cause : Cause} {t : Token} (h : cause ≠ .stackOverflow) :
    Steady (raise cause t : Run α) :=
  stop h

theorem outOfFuel : Steady (Machine.stop .outOfFuel : Run α) := stop id

/-! ### Names -/

theorem newScope (parent : Nat) (bindings : Bindings Value) :
    Steady (newScope parent bindings) :=
  ⟨fun _ => ⟨rfl, rfl, rfl, List.suffix_refl _⟩, fun _ => id, fun _ _ => rfl⟩

theorem currentScope : Steady currentScope :=
  ⟨Onward.refl, fun _ => id, fun _ _ => rfl⟩

theorem defineIn (id : Nat) (name : Bytes) (v : Value) : Steady (defineIn id name v) :=
  ⟨fun _ => ⟨rfl, rfl, rfl, List.suffix_refl _⟩, fun _ h => h, fun _ _ => rfl⟩

theorem define (name : Bytes) (v : Value) : Steady (define name v) :=
  ⟨fun m => (defineIn m.current name v).onward m, fun m => (defineIn m.current name v).calm m,
    fun limit m => (defineIn m.current name v).blind limit m⟩

theorem look {γ : Type} (view : Scopes → Nat → Option γ) {found : γ → Run α} {missing : Run α}
    (hp : ∀ m : Machine, p m = (view m.scopes m.current).elim missing found m)
    (hfound : ∀ x, Steady (found x)) (hmissing : Steady missing) : Steady p := by
  have step (m : Machine) : ∃ q, Steady q ∧ p m = q m ∧
      ∀ limit, p (m.withLimit limit) = q (m.withLimit limit) := by
    have hwith (limit : Nat) : p (m.withLimit limit) =
        (view m.scopes m.current).elim missing found (m.withLimit limit) := hp _
    cases hview : view m.scopes m.current with
    | some x => exact ⟨found x, hfound x, by simp [hp, hview], by simp [hwith, hview]⟩
    | none => exact ⟨missing, hmissing, by simp [hp, hview], by simp [hwith, hview]⟩
  constructor
  case onward =>
    intro m
    obtain ⟨q, hq, heq, -⟩ := step m
    rw [heq]
    exact hq.onward m
  case calm =>
    intro m
    obtain ⟨q, hq, heq, -⟩ := step m
    rw [heq]
    exact hq.calm m
  case blind =>
    intro limit m
    obtain ⟨q, hq, heq, hwith⟩ := step m
    rw [heq, hwith]
    exact hq.blind limit m

theorem missingScope : Steady (Machine.stop .missingScope : Run α) := stop id

theorem assign (name : Bytes) (v : Value) : Steady (assign name v) := by
  apply look (fun scopes current => scopes.owner? current name) _
    (fun owner => defineIn owner name v) (pure ())
  intro m
  unfold Machine.assign
  cases m.scopes.owner? m.current name <;> rfl

theorem bindingAt (id hops : Nat) (name : Bytes) : Steady (bindingAt id hops name) := by
  apply look (fun scopes _ => scopes.getAt? id hops name) _ pure missingScope
  intro m
  unfold Machine.bindingAt
  cases m.scopes.getAt? id hops name <;> rfl

theorem read (r : Reference) : Steady (read r) := by
  unfold Machine.read
  cases r.hops with
  | some hops =>
      apply look (fun scopes current => scopes.getAt? current hops r.name.lexeme) _ pure
        missingScope
      intro m
      simp only [Machine.bindingAt]
      cases m.scopes.getAt? m.current hops r.name.lexeme <;> rfl
  | none =>
      have hcause : Cause.undefinedVariable r.name.lexeme ≠ .stackOverflow := nofun
      apply look (fun scopes _ => scopes.get? globalScope r.name.lexeme) _ pure
        (raise (t := r.name) hcause)
      intro m
      dsimp only
      cases m.scopes.get? globalScope r.name.lexeme <;> rfl

theorem write (r : Reference) (v : Value) : Steady (write r v) := by
  unfold Machine.write
  cases r.hops with
  | some hops =>
      apply look (fun scopes current => scopes.ancestor? current hops) _
        (fun owner => defineIn owner r.name.lexeme v) missingScope
      intro m
      dsimp only
      cases m.scopes.ancestor? m.current hops <;> rfl
  | none =>
      have hcause : Cause.undefinedVariable r.name.lexeme ≠ .stackOverflow := nofun
      apply look (fun scopes _ => scopes.owner? globalScope r.name.lexeme) _
        (fun owner => defineIn owner r.name.lexeme v) (raise (t := r.name) hcause)
      intro m
      dsimp only
      cases m.scopes.owner? globalScope r.name.lexeme <;> rfl

/-! ### Identities, fields and output -/

theorem newIdentity : Steady newIdentity :=
  ⟨fun _ => ⟨rfl, rfl, rfl, List.suffix_refl _⟩, fun _ => id, fun _ _ => rfl⟩

theorem newObject (c : ClassObject) : Steady (newObject c) :=
  ⟨fun _ => ⟨rfl, rfl, rfl, List.suffix_refl _⟩, fun _ => id, fun _ _ => rfl⟩

theorem field? (id : Nat) (name : Bytes) : Steady (field? id name) :=
  ⟨Onward.refl, fun _ h => h, fun _ _ => rfl⟩

theorem setField (id : Nat) (name : Bytes) (v : Value) : Steady (setField id name v) :=
  ⟨fun _ => ⟨rfl, rfl, rfl, List.suffix_refl _⟩, fun _ h => h, fun _ _ => rfl⟩

theorem printLine (line : Bytes) : Steady (printLine line) :=
  ⟨fun _ => ⟨rfl, rfl, rfl, List.suffix_cons _ _⟩, fun _ => id, fun _ _ => rfl⟩

end Steady

end Run

namespace Machine

open Run (Steady)

/-! ## Operators, native functions and methods -/

theorem Settles.steady {t : Token} {unknown : Prop} {p : Run Value} (h : Settles t unknown p) :
    Steady p := by
  cases h with
  | atom => exact .pure _
  | blame hcause => exact .raise hcause

theorem applyNative_steady (f : Native) (vs : List Value) (paren : Token) :
    Steady (applyNative f vs paren) := by
  constructor
  case onward =>
    intro m
    obtain ⟨clock, ⟨l, hrun⟩ | ⟨text, hrun⟩⟩ := applyNative_cases f vs paren m
    all_goals
      rw [hrun]
      exact ⟨rfl, rfl, rfl, List.suffix_refl _⟩
  case calm =>
    intro m
    obtain ⟨clock, ⟨l, hrun⟩ | ⟨text, hrun⟩⟩ := applyNative_cases f vs paren m
    · rw [hrun]
      exact id
    · rw [hrun]
      exact nofun
  case blind =>
    intro limit m
    simp only [applyNative, withLimit]
    obtain ⟨_ | _, clock⟩ := f.code (vs.map Value.face) m.clock <;> rfl

theorem bindParameters_steady (bound : Bindings Value) (parameters : List Token)
    (vs : List Value) : Steady (bindParameters bound parameters vs) := by
  obtain ⟨bindings, hbind⟩ | hbind := bindParameters_cases bound parameters vs
  · rw [hbind]
    exact .pure _
  · rw [hbind]
    exact .stop id

theorem bindThis_steady (method : Closure) (receiver : Value) :
    Steady (bindThis method receiver) := by
  unfold bindThis
  exact (Steady.newScope _ _).bind fun _ => .pure _

theorem functionOf_steady (code : Closure) : Steady (functionOf code) := by
  unfold functionOf
  exact Steady.newIdentity.bind fun _ => .pure _

theorem getProperty_steady (id : Nat) (c : ClassObject) (name : Token) :
    Steady (getProperty id c name) := by
  unfold getProperty
  apply (Steady.field? id name.lexeme).bind
  intro found
  cases found with
  | some v => exact .pure v
  | none =>
      cases c.method? name.lexeme with
      | some method => exact (bindThis_steady method _).bind functionOf_steady
      | none => exact .raise nofun

theorem getSuper_steady (r : Reference) (method : Token) : Steady (getSuper r method) := by
  unfold getSuper
  cases r.hops with
  | none => exact .raise nofun
  | some hops =>
      apply Steady.currentScope.bind
      intro scope
      apply (Steady.bindingAt _ _ _).bind
      intro parent
      apply (Steady.bindingAt _ _ _).bind
      intro receiver
      cases parent with
      | classObject c =>
          cases receiver with
          | object id own =>
              dsimp only
              cases c.method? method.lexeme with
              | some code => exact (bindThis_steady code _).bind functionOf_steady
              | none => exact .raise nofun
          | _ => exact .raise nofun
      | _ => exact .raise nofun

theorem declareClass_steady (name : Token) (parent : Option ClassObject)
    (methods : List FunctionDecl) : Steady (declareClass name parent methods) := by
  unfold declareClass
  apply (Steady.define _ _).bind
  intro _
  apply Steady.currentScope.bind
  intro outer
  cases parent with
  | none =>
      apply (Steady.pure outer).bind
      intro scope
      exact Steady.newIdentity.bind fun _ => .assign _ _
  | some c =>
      apply (Steady.newScope outer _).bind
      intro scope
      exact Steady.newIdentity.bind fun _ => .assign _ _

end Machine

end Lox
