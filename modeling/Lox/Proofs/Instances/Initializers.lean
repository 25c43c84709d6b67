import Lox.Proofs.Instances.Points

/-!
Initializers give their object.

Wherever a run has come to, a call of a class that succeeds gives a new object of it, and a call
of an initializer that succeeds gives the object that it is bound to, whichever way it was come
by and however its body ends.  An initializer without an object is nowhere to be found.
-/

namespace Lox.Instances

open Machine (eval callValue callClosure exec)

/-- The code has an object for its `this`, and if the run succeeds, then with that object. -/
def Yields (code : Closure) (m : Machine) (p : Run Value) : Prop :=
  ∃ id c, code.BoundTo m (.object id c) ∧
    ∀ v m', p m = .done v m' → v = .object id c ∧ code.BoundTo m' v

section

variable {m m' : Machine} {code : Closure} {vs : List Value} {v : Value} {paren : Token}

/-- The body ends with the object that was there when it began, however it ends. -/
theorem callClosure_yields (n : Nat) (paren : Token) (hm : m.Owned) (hcode : code.Owned m)
    (hvs : ∀ v ∈ vs, v.Owned m) (hinit : code.isInitializer = true) :
    Yields code m (callClosure n code vs paren) := by
  obtain ⟨id, c, hbound⟩ := hcode.bound hinit
  refine ⟨id, c, hbound, fun v m' hrun => ?_⟩
  obtain ⟨hgrows, -, -, hthis⟩ := (Machine.callClosure_guarded n hcode hvs).done hm hrun
  have hv : code.BoundTo m' v := hthis hinit
  exact ⟨hv.unique (hbound.mono hgrows), hv⟩

theorem callValue_yields (n id : Nat) (paren : Token) (hm : m.Owned) (hcode : code.Owned m)
    (hvs : ∀ v ∈ vs, v.Owned m) (hinit : code.isInitializer = true) :
    Yields code m (callValue n (.function id code) vs paren) := by
  obtain ⟨i, c, hbound, hbody⟩ := callClosure_yields (n - 1) paren hm hcode hvs hinit
  refine ⟨i, c, hbound, fun v m' hrun => ?_⟩
  cases n with
  | zero => cases hrun
  | succ n =>
      rw [callValue] at hrun
      by_cases harity : vs.length ≠ code.arity
      · rw [if_pos harity] at hrun
        cases hrun
      · rw [if_neg harity] at hrun
        exact hbody v m' hrun

/-- The object of a construction is the one that was created for it. -/
theorem callValue_classObject {n : Nat} {c : ClassObject}
    (hrun : callValue n (.classObject c) vs paren m = .done v m') :
    v = .object m.fields.size c := by
  cases n with
  | zero => cases hrun
  | succ n =>
      rw [callValue] at hrun
      by_cases harity : vs.length ≠ c.arity
      · rw [if_pos harity] at hrun
        cases hrun
      rw [if_neg harity] at hrun
      obtain ⟨object, m₁, hobject, hrun⟩ := Run.exists_of_bind hrun
      cases hobject
      cases hinit : c.initializer? with
      | none =>
          rw [hinit] at hrun
          cases hrun
          rfl
      | some method =>
          rw [hinit] at hrun
          obtain ⟨code, m₂, -, hrun⟩ := Run.exists_of_bind hrun
          obtain ⟨w, m₃, -, hrun⟩ := Run.exists_of_bind hrun
          cases hrun
          rfl

end

theorem Point.Owned.same_eq_false {p : Point} (h : p.Owned) (c : ClassObject) {u : Value}
    (hu : p.Has u) : (Value.object p.machine.fields.size c).same u = false := by
  cases u with
  | object id own =>
      have hlt : id < p.machine.fields.size := (h.has hu).1
      exact beq_false_of_ne (Nat.ne_of_gt hlt)
  | _ => rfl

/--
At every point that a run reaches, of a program resolved or not: every function around that is
an initializer is bound to an object; a call of a class that succeeds gives an object of it that
differs from every value around; a call of an initializer that succeeds gives the object that it
is bound to, and so does its body, as it is run for a call and for a new object.
-/
theorem initializers_yield_instance {p : Point} (hp : Reached p) :
    (∀ id code, p.Has (.function id code) → code.isInitializer = true →
      ∃ i c, code.BoundTo p.machine (.object i c)) ∧
    (∀ n c vs paren v m', p.task = .call n (.classObject c) vs paren →
      callValue n (.classObject c) vs paren p.machine = .done v m' →
        v = .object p.machine.fields.size c ∧ ∀ u, p.Has u → v.same u = false) ∧
    (∀ n id code vs paren, p.task = .call n (.function id code) vs paren →
      code.isInitializer = true →
        Yields code p.machine (callValue n (.function id code) vs paren)) ∧
    ∀ n code vs paren, p.task = .body n code vs paren → code.isInitializer = true →
      Yields code p.machine (callClosure n code vs paren) := by
  have howned := hp.owned
  refine ⟨fun id code hhas hinit => ?_, fun n c vs paren v m' htask hrun => ?_,
    fun n id code vs paren htask hinit => ?_, fun n code vs paren htask hinit => ?_⟩
  · have hcode : code.Owned p.machine := howned.has hhas
    exact hcode.bound hinit
  · obtain rfl := callValue_classObject hrun
    exact ⟨rfl, fun u hu => howned.same_eq_false c hu⟩
  · have hcall := howned.task
    rw [htask] at hcall
    exact callValue_yields n id paren howned.machine hcall.1 hcall.2 hinit
  · have hbody := howned.task
    rw [htask] at hbody
    exact callClosure_yields n paren howned.machine hbody.1 hbody.2 hinit

def keepingSource : Bytes :=
  utf8 "class A \x7b init() \x7b return; \x7d \x7d var again = A().init;"

def againSource : Bytes := utf8 "again();"

@[irreducible] def keepingMachine : Machine :=
  (Machine.execProgram 39 (check keepingSource).program (.start [] 0 [])).machine

def againStatement : Stmt := (parse againSource).1.headD (.block {} [])

def againCall : Expr :=
  match againStatement with
  | .expression _ e => e
  | _ => .absent

def againCallee : Expr :=
  match againCall with
  | .call _ callee _ _ => callee
  | _ => .absent

def againName : Token :=
  match againCallee with
  | .var r => r.name
  | _ => default

def againParen : Token :=
  match againCall with
  | .call _ _ paren _ => paren
  | _ => default

def isInitializer : Value → Bool
  | .function _ code => code.isInitializer
  | _ => false

theorem parse_again : (parse againSource).1 =
    [.expression againStatement.span (.call againCall.span againCallee againParen [])] := rfl

theorem againCallee_eq : againCallee = .var ⟨againCallee.span, againName, none⟩ := rfl

theorem eval_again : ∃ id code, code.isInitializer = true ∧
    eval 37 againCallee keepingMachine = .done (.function id code) keepingMachine ∧
      (callValue 37 (.function id code) [] againParen keepingMachine).value?.isSome = true := by
  have hkept : ((eval 37 againCallee keepingMachine).value?.map fun f =>
      isInitializer f && (callValue 37 f [] againParen keepingMachine).value?.isSome) =
        some true := by
    decide +kernel
  have hlooks : (eval 37 againCallee keepingMachine).machine = keepingMachine := by
    rw [againCallee_eq, eval]
    exact Machine.read_looks _ keepingMachine
  cases heval : eval 37 againCallee keepingMachine with
  | fault cause m =>
      rw [heval] at hkept
      cases hkept
  | done v m =>
      rw [heval] at hkept hlooks
      obtain rfl : m = keepingMachine := hlooks
      obtain ⟨hv, hcall⟩ := Bool.and_eq_true_iff.mp (Option.some.inj hkept)
      cases v with
      | function id code => exact ⟨id, code, hv, rfl, hcall⟩
      | _ => cases hv

theorem initializers_yield_instance_kept :
    ∃ id code, Reached ⟨.call 37 (.function id code) [] againParen, keepingMachine, []⟩ ∧
      code.isInitializer = true ∧
      (callValue 37 (.function id code) [] againParen keepingMachine).value?.isSome = true ∧
      Yields code keepingMachine (callValue 37 (.function id code) [] againParen) := by
  obtain ⟨id, code, hinit, hcallee, hdone⟩ := eval_again
  have hidle : Idle keepingMachine := by
    unfold keepingMachine
    exact (Idle.start [] 0 []).program (isProgram_checked {} keepingSource) 39
  have hprogram := Reached.program hidle (isProgram_parse againSource) 39
  rw [parse_again] at hprogram
  have harguments : Machine.evalList 37 [] keepingMachine = .done [] keepingMachine := rfl
  have hcall : Reached ⟨.call 37 (.function id code) [] againParen, keepingMachine, []⟩ :=
    ((hprogram.goes .declaration).goes .expression).goes (.call hcallee harguments)
  have hyields := (initializers_yield_instance hcall).2.2.1 37 id code [] againParen rfl hinit
  exact ⟨id, code, hcall, hinit, hdone, hyields⟩

end Lox.Instances
