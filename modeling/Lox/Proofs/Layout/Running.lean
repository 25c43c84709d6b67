import Lox.Machine.Eval
import Lox.Proofs.Layout.Parsing

/-!
Where tokens stand does not matter to a running program.

Values carry the declarations of functions, so a machine holds places as well; only the
tokens of faults show them.  Without places, a program does what it does with them.
-/

namespace Lox

/-! ## Values -/

def Closure.unplace (c : Closure) : Closure := c.relabel .unplace fun scope => scope

def ClassObject.unplace (c : ClassObject) : ClassObject := c.relabel .unplace fun scope => scope

def Value.unplace (v : Value) : Value := v.relabel .unplace fun scope => scope

namespace Closure

variable (c : Closure)

@[simp] theorem unplace_declaration :
    c.unplace.declaration = c.declaration.relabel .unplace := rfl

@[simp] theorem unplace_scope : c.unplace.scope = c.scope := rfl

@[simp] theorem unplace_isInitializer : c.unplace.isInitializer = c.isInitializer := rfl

@[simp] theorem unplace_name : c.unplace.name = c.name := by
  simp [name]

@[simp] theorem unplace_arity : c.unplace.arity = c.arity := by
  simp [arity]

end Closure

namespace ClassObject

@[simp] theorem unplace_id (c : ClassObject) : c.unplace.id = c.id := by
  obtain ⟨_, _, parent, _⟩ := c
  cases parent <;> rfl

@[simp] theorem unplace_name (c : ClassObject) : c.unplace.name = c.name := by
  obtain ⟨_, _, parent, _⟩ := c
  cases parent <;> rfl

theorem unplace_mk (id : Nat) (name : Bytes) (parent : Option ClassObject)
    (methods : Bindings Closure) :
    (mk id name parent methods).unplace =
      .mk id name (parent.map unplace) (methods.mapValues Closure.unplace) := by
  cases parent <;> rfl

@[simp] theorem method?_unplace (name : Bytes) :
    (c : ClassObject) → c.unplace.method? name = (c.method? name).map Closure.unplace
  | .mk _ _ none methods => by
      simp [unplace_mk, method?]
  | .mk _ _ (some parent) methods => by
      have ih := method?_unplace name parent
      cases h : methods.get? name <;> simp [unplace_mk, method?, h, ih]

@[simp] theorem initializer?_unplace (c : ClassObject) :
    c.unplace.initializer? = c.initializer?.map Closure.unplace := by
  simp [initializer?]

@[simp] theorem unplace_arity (c : ClassObject) : c.unplace.arity = c.arity := by
  cases h : c.initializer? <;> simp [arity, h]

end ClassObject

namespace Value

theorem unplace_native (f : Native) : (native f).unplace = native f := rfl

theorem unplace_function (id : Nat) (code : Closure) :
    (function id code).unplace = function id code.unplace := rfl

theorem unplace_classObject (c : ClassObject) :
    (classObject c).unplace = classObject c.unplace := rfl

theorem unplace_object (id : Nat) (c : ClassObject) :
    (object id c).unplace = object id c.unplace := rfl

@[simp] theorem unplace_face (v : Value) : v.unplace.face = v.face := by
  cases v with
  | function id code => exact congrArg (Face.function id) code.unplace_name
  | classObject c => exact congrArg₂ Face.classObject c.unplace_id c.unplace_name
  | object id c => exact congrArg (Face.object id) c.unplace_name
  | _ => rfl

@[simp] theorem unplace_display (v : Value) : v.unplace.display = v.display :=
  congrArg Face.display v.unplace_face

@[simp] theorem unplace_isTruthy (v : Value) : v.unplace.isTruthy = v.isTruthy := by
  cases v <;> rfl

@[simp] theorem same_unplace (v w : Value) : v.unplace.same w.unplace = v.same w := by
  unfold same
  rw [unplace_face, unplace_face]

@[simp] theorem unplace_ofLiteral (l : Literal) : (ofLiteral l).unplace = ofLiteral l := by
  cases l <;> rfl

end Value

/-! ## Scopes -/

def Scope.unplace (s : Scope) : Scope := { s with bindings := s.bindings.mapValues Value.unplace }

namespace Scopes

def unplace (s : Scopes) : Scopes := s.map Scope.unplace

variable (s : Scopes) (id : Nat) (name : Bytes)

@[simp] theorem size_unplace : s.unplace.size = s.size := by
  simp [unplace]

@[simp] theorem getElem?_unplace : s.unplace[id]? = s[id]?.map Scope.unplace := by
  simp [unplace]

@[simp] theorem bindingsOf?_unplace :
    s.unplace.bindingsOf? id = (s.bindingsOf? id).map (Bindings.mapValues Value.unplace) := by
  simp [bindingsOf?, Function.comp_def, Scope.unplace]

@[simp] theorem define_unplace (v : Value) :
    s.unplace.define id name v.unplace = (s.define id name v).unplace := by
  apply Array.ext_getElem?
  intro i
  simp only [define, unplace, Array.getElem?_map, Array.getElem?_modify]
  split
  · cases s[i]? <;> simp [Scope.unplace, Bindings.mapValues_set]
  · rfl

@[simp] theorem ownerWithin_unplace (links : Nat) :
    s.unplace.ownerWithin name links id = s.ownerWithin name links id := by
  induction links generalizing id with
  | zero => rfl
  | succ links ih =>
      rw [ownerWithin, ownerWithin, getElem?_unplace]
      cases s[id]? with
      | none => rfl
      | some scope => simp [Scope.unplace, ih]

@[simp] theorem owner?_unplace : s.unplace.owner? id name = s.owner? id name := by
  simp [owner?]

@[simp] theorem get?_unplace : s.unplace.get? id name = (s.get? id name).map Value.unplace := by
  unfold get?
  rw [owner?_unplace]
  cases s.owner? id name with
  | none => rfl
  | some owner =>
      simp only [Option.bind_eq_bind, Option.bind_some, bindingsOf?_unplace]
      cases s.bindingsOf? owner <;> simp

@[simp] theorem ancestor?_unplace (hops : Nat) :
    s.unplace.ancestor? id hops = s.ancestor? id hops := by
  induction hops generalizing id with
  | zero => simp [ancestor?]
  | succ hops ih =>
      rw [ancestor?, ancestor?, getElem?_unplace]
      cases s[id]? with
      | none => rfl
      | some scope =>
          obtain ⟨parent, bindings⟩ := scope
          cases parent with
          | none => rfl
          | some parent => exact ih parent

@[simp] theorem getAt?_unplace (hops : Nat) :
    s.unplace.getAt? id hops name = (s.getAt? id hops name).map Value.unplace := by
  unfold getAt?
  rw [ancestor?_unplace]
  cases s.ancestor? id hops with
  | none => rfl
  | some ancestor =>
      simp only [Option.bind_eq_bind, Option.bind_some, bindingsOf?_unplace]
      cases s.bindingsOf? ancestor with
      | none => rfl
      | some bindings =>
          cases h : bindings.get? name with
          | none => simp [h, Value.unplace, Value.relabel]
          | some v => simp [h]

@[simp] theorem names_unplace : s.unplace.names id = s.names id := by
  unfold names
  rw [bindingsOf?_unplace]
  cases s.bindingsOf? id <;> simp

end Scopes

/-! ## Machines -/

namespace Machine

def unplace (earlier : List Bytes) (m : Machine) : Machine :=
  { m with
    scopes := m.scopes.unplace
    fields := m.fields.map (Bindings.mapValues Value.unplace)
    printed := m.printed ++ earlier }

@[simp] theorem globals_unplace (earlier : List Bytes) (m : Machine) :
    (m.unplace earlier).globals = m.globals :=
  m.scopes.names_unplace globalScope

theorem output_unplace (earlier : List Bytes) (m : Machine) :
    (m.unplace earlier).output = Bytes.lines earlier.reverse ++ m.output := by
  simp [output, unplace, Bytes.lines]

end Machine

def Fault.unplace : Fault → Fault
  | .runtime error => .runtime { error with token := error.token.unplace }
  | fault => fault

@[simp] theorem Fault.message_unplace (f : Fault) :
    f.unplace.toRuntimeError.message = f.toRuntimeError.message := by
  cases f <;> rfl

def Outcome.unplace (earlier : List Bytes) (F : α → β) : Outcome α → Outcome β
  | .done v m => .done (F v) (m.unplace earlier)
  | .fault cause m => .fault cause.unplace (m.unplace earlier)

def Outcome.failure? : Outcome α → Option RuntimeError
  | .done _ _ => none
  | .fault cause _ => some cause.toRuntimeError

theorem Outcome.unplace_machine (earlier : List Bytes) (F : α → β) (out : Outcome α) :
    (out.unplace earlier F).machine = out.machine.unplace earlier := by
  cases out <;> rfl

theorem Outcome.unplace_message (earlier : List Bytes) (F : α → β) (out : Outcome α) :
    (out.unplace earlier F).failure?.map RuntimeError.message =
      out.failure?.map RuntimeError.message := by
  cases out with
  | done v m => rfl
  | fault cause m => exact congrArg some cause.message_unplace

/-- Two runs that are the same without places, of which one has the lines printed earlier. -/
theorem Outcome.of_unplace_eq {F : α → β} {earlier : List Bytes} {long short : Outcome α}
    (h : long.unplace [] F = short.unplace earlier F) :
    long.machine.output = Bytes.lines earlier.reverse ++ short.machine.output ∧
      long.machine.globals = short.machine.globals ∧
      long.failure?.map RuntimeError.message = short.failure?.map RuntimeError.message := by
  have hmachine := congrArg Outcome.machine h
  rw [unplace_machine, unplace_machine] at hmachine
  have houtput := congrArg Machine.output hmachine
  have hglobals := congrArg Machine.globals hmachine
  have hmessage := congrArg (fun out => out.failure?.map RuntimeError.message) h
  rw [Machine.output_unplace, Machine.output_unplace] at houtput
  rw [Machine.globals_unplace, Machine.globals_unplace] at hglobals
  simp only [unplace_message] at hmessage
  exact ⟨houtput, hglobals, hmessage⟩

/--
Without places, and whatever was printed earlier, the second run does what the first does
with them.
-/
def Run.Unplaced (F : α → β) (p : Run α) (q : Run β) : Prop :=
  ∀ (earlier : List Bytes) (m : Machine), q (m.unplace earlier) = (p m).unplace earlier F

namespace Run.Unplaced

open Machine

variable {α β γ δ : Type} {F : α → β} {G : γ → δ} {p : Run α} {q : Run β}

theorem bind {f : α → Run γ} {g : β → Run δ} (hp : Unplaced F p q)
    (hf : ∀ v, Unplaced G (f v) (g (F v))) : Unplaced G (p >>= f) (q >>= g) := by
  intro earlier m
  change Run.bind q g (m.unplace earlier) = (Run.bind p f m).unplace earlier G
  have hrun := hp earlier m
  unfold Run.bind
  rw [hrun]
  cases p m with
  | done v m' => exact hf v earlier m'
  | fault cause m' => rfl

theorem pure {v : α} {w : β} (h : w = F v) : Unplaced F (Pure.pure v) (Pure.pure w) := by
  subst h
  exact fun _ m => rfl

theorem ite {b : Prop} [Decidable b] {p' : Run α} {q' : Run β} (hp : Unplaced F p q)
    (hq : Unplaced F p' q') : Unplaced F (if b then p else p') (if b then q else q') := by
  split
  · exact hp
  · exact hq

theorem raise (cause : Cause) (t : Token) :
    Unplaced F (raise cause t) (raise cause t.unplace) := fun _ _ => rfl

theorem outOfFuel : Unplaced F (stop .outOfFuel) (stop .outOfFuel) := fun _ _ => rfl

theorem newScope (parent : Nat) (bindings : Bindings Value) :
    Unplaced id (newScope parent bindings)
      (newScope parent (bindings.mapValues Value.unplace)) := by
  intro earlier m
  simp [Machine.newScope, Machine.unplace, Outcome.unplace, Scopes.unplace, Scope.unplace]

theorem currentScope : Unplaced id currentScope currentScope := fun _ _ => rfl

theorem inScope (scope : Nat) (hp : Unplaced F p q) :
    Unplaced F (inScope scope p) (inScope scope q) := by
  intro earlier m
  have hrun := hp earlier { m with current := scope }
  have hinner : ({ (m.unplace earlier) with current := scope } : Machine) =
      ({ m with current := scope } : Machine).unplace earlier := rfl
  unfold Machine.inScope
  simp only [hinner, hrun]
  cases p { m with current := scope } <;> rfl

theorem deeper (hp : Unplaced F p q) : Unplaced F (deeper p) (deeper q) := by
  intro earlier m
  have hrun := hp earlier { m with depth := m.depth + 1 }
  have hinner : ({ (m.unplace earlier) with depth := (m.unplace earlier).depth + 1 } : Machine) =
      ({ m with depth := m.depth + 1 } : Machine).unplace earlier := rfl
  unfold Machine.deeper
  rw [hinner, hrun]
  cases p { m with depth := m.depth + 1 } <;> rfl

theorem defineIn (id : Nat) (name : Bytes) (v : Value) :
    Unplaced (fun u : Unit => u) (defineIn id name v) (defineIn id name v.unplace) := by
  intro earlier m
  simp [Machine.defineIn, Machine.unplace, Outcome.unplace]

theorem define (name : Bytes) (v : Value) :
    Unplaced (fun u : Unit => u) (define name v) (define name v.unplace) :=
  fun earlier m => defineIn m.current name v earlier m

theorem assign (name : Bytes) (v : Value) :
    Unplaced (fun u : Unit => u) (assign name v) (assign name v.unplace) := by
  intro earlier m
  have howner : (m.unplace earlier).scopes.owner? (m.unplace earlier).current name =
      m.scopes.owner? m.current name := m.scopes.owner?_unplace m.current name
  unfold Machine.assign
  rw [howner]
  cases m.scopes.owner? m.current name with
  | none => rfl
  | some owner => exact defineIn owner name v earlier m

theorem bindingAt (id hops : Nat) (name : Bytes) :
    Unplaced Value.unplace (bindingAt id hops name) (bindingAt id hops name) := by
  intro earlier m
  have hvalue : (m.unplace earlier).scopes.getAt? id hops name =
      (m.scopes.getAt? id hops name).map Value.unplace := m.scopes.getAt?_unplace id name hops
  unfold Machine.bindingAt
  rw [hvalue]
  cases m.scopes.getAt? id hops name <;> rfl

theorem read (r : Reference) :
    Unplaced Value.unplace (read r) (read (r.relabel .unplace)) := by
  intro earlier m
  obtain ⟨span, name, hops⟩ := r
  cases hops with
  | some hops => exact bindingAt m.current hops name.lexeme earlier m
  | none =>
      have hvalue : (m.unplace earlier).scopes.get? globalScope name.lexeme =
          (m.scopes.get? globalScope name.lexeme).map Value.unplace :=
        m.scopes.get?_unplace globalScope name.lexeme
      simp only [Machine.read, Reference.relabel, Relabelling.unplace, id, Token.unplace_lexeme,
        hvalue]
      cases m.scopes.get? globalScope name.lexeme <;> rfl

theorem write (r : Reference) (v : Value) :
    Unplaced (fun u : Unit => u) (write r v) (write (r.relabel .unplace) v.unplace) := by
  intro earlier m
  obtain ⟨span, name, hops⟩ := r
  cases hops with
  | some hops =>
      have howner : (m.unplace earlier).scopes.ancestor? (m.unplace earlier).current hops =
          m.scopes.ancestor? m.current hops := m.scopes.ancestor?_unplace m.current hops
      simp only [Machine.write, Reference.relabel, Relabelling.unplace, id, Token.unplace_lexeme,
        howner]
      cases m.scopes.ancestor? m.current hops with
      | none => rfl
      | some owner => exact defineIn owner name.lexeme v earlier m
  | none =>
      have howner : (m.unplace earlier).scopes.owner? globalScope name.lexeme =
          m.scopes.owner? globalScope name.lexeme :=
        m.scopes.owner?_unplace globalScope name.lexeme
      simp only [Machine.write, Reference.relabel, Relabelling.unplace, id, Token.unplace_lexeme,
        howner]
      cases m.scopes.owner? globalScope name.lexeme with
      | none => rfl
      | some owner => exact defineIn owner name.lexeme v earlier m

theorem newIdentity : Unplaced id newIdentity newIdentity := fun _ _ => rfl

theorem newObject (c : ClassObject) :
    Unplaced Value.unplace (newObject c) (newObject c.unplace) := by
  intro earlier m
  simp [Machine.newObject, Machine.unplace, Outcome.unplace, Bindings.mapValues]
  rfl

theorem field? (id : Nat) (name : Bytes) :
    Unplaced (Option.map Value.unplace) (field? id name) (field? id name) := by
  intro earlier m
  simp only [Machine.field?, Machine.unplace, Outcome.unplace, Array.getElem?_map]
  cases m.fields[id]? <;> simp

theorem setField (id : Nat) (name : Bytes) (v : Value) :
    Unplaced (fun u : Unit => u) (setField id name v) (setField id name v.unplace) := by
  intro earlier m
  have hfields : (m.fields.map (Bindings.mapValues Value.unplace)).modify id
        (fun bindings => bindings.set name v.unplace) =
      (m.fields.modify id fun bindings => bindings.set name v).map
        (Bindings.mapValues Value.unplace) := by
    apply Array.ext_getElem?
    intro i
    simp only [Array.getElem?_map, Array.getElem?_modify]
    split
    · cases m.fields[i]? <;> simp [Bindings.mapValues_set]
    · rfl
  simp [Machine.setField, Machine.unplace, Outcome.unplace, hfields]

theorem isFull : Unplaced id isFull isFull := fun _ _ => rfl

theorem printLine (line : Bytes) :
    Unplaced (fun u : Unit => u) (printLine line) (printLine line) := fun _ _ => rfl

end Run.Unplaced

/-! ## Evaluation -/

def Signal.unplace : Signal → Signal
  | .normal => .normal
  | .returned v => .returned v.unplace

namespace Machine

open Run

theorem applyUnary_unplaced (operator : Token) (v : Value) :
    Unplaced Value.unplace (applyUnary operator v) (applyUnary operator.unplace v.unplace) := by
  unfold applyUnary
  rw [Token.unplace_kind, Value.unplace_isTruthy]
  split
  · cases v with
    | number x => exact .pure rfl
    | _ => exact .raise _ _
  · exact .pure rfl
  · exact .raise _ _

theorem applyArithmetic_unplaced (operator : Token) (x y : Float) :
    Unplaced Value.unplace (applyArithmetic operator x y)
      (applyArithmetic operator.unplace x y) := by
  unfold applyArithmetic
  rw [Token.unplace_kind]
  generalize operator.kind = kind
  cases kind with
  | minus | star | slash | greater | greaterEqual | less | lessEqual => exact .pure rfl
  | _ => exact .raise _ _

theorem applyBinary_unplaced (operator : Token) (v w : Value) :
    Unplaced Value.unplace (applyBinary operator v w)
      (applyBinary operator.unplace v.unplace w.unplace) := by
  unfold applyBinary
  rw [Token.unplace_kind, Value.same_unplace]
  split
  · exact .pure rfl
  · exact .pure rfl
  · cases v with
    | number x =>
        cases w with
        | number y => exact .pure rfl
        | _ => exact .raise _ _
    | text s =>
        cases w with
        | text t => exact .pure rfl
        | _ => exact .raise _ _
    | _ => exact .raise _ _
  · cases v with
    | number x =>
        cases w with
        | number y => exact applyArithmetic_unplaced operator x y
        | _ => exact .raise _ _
    | _ => exact .raise _ _

theorem decides_unplace (operator : Token) (v : Value) :
    decides operator.unplace v.unplace = decides operator v := by
  simp [decides]

theorem applyNative_unplaced (f : Native) (vs : List Value) (paren : Token) :
    Unplaced Value.unplace (applyNative f vs paren)
      (applyNative f (vs.map Value.unplace) paren.unplace) := by
  intro earlier m
  have hfaces : (vs.map Value.unplace).map Value.face = vs.map Value.face := by
    simp [Function.comp_def]
  have hclock : (m.unplace earlier).clock = m.clock := rfl
  unfold applyNative
  rw [hfaces, hclock]
  obtain ⟨text | l, clock⟩ := f.code (vs.map Value.face) m.clock
  · rfl
  · simp only [Outcome.unplace, Value.unplace_ofLiteral]
    rfl

theorem bindThis_unplaced (method : Closure) (receiver : Value) :
    Unplaced Closure.unplace (bindThis method receiver)
      (bindThis method.unplace receiver.unplace) := by
  unfold bindThis
  exact (Unplaced.newScope _ _).bind fun _ => .pure rfl

theorem functionOf_unplaced (code : Closure) :
    Unplaced Value.unplace (functionOf code) (functionOf code.unplace) := by
  unfold functionOf
  exact Unplaced.newIdentity.bind fun _ => .pure rfl

theorem bindThis_functionOf_unplaced (method : Closure) (receiver : Value) :
    Unplaced Value.unplace (bindThis method receiver >>= functionOf)
      (bindThis method.unplace receiver.unplace >>= functionOf) :=
  (bindThis_unplaced method receiver).bind functionOf_unplaced

theorem getProperty_unplaced (id : Nat) (c : ClassObject) (name : Token) :
    Unplaced Value.unplace (getProperty id c name) (getProperty id c.unplace name.unplace) := by
  unfold getProperty
  refine (Unplaced.field? id name.lexeme).bind fun found => ?_
  cases found with
  | some v => exact .pure rfl
  | none =>
      simp only [Option.map_none, Token.unplace_lexeme, ClassObject.method?_unplace]
      cases c.method? name.lexeme with
      | some method => exact bindThis_functionOf_unplaced method (.object id c)
      | none => exact .raise _ _

theorem getSuper_unplaced (r : Reference) (method : Token) :
    Unplaced Value.unplace (getSuper r method)
      (getSuper (r.relabel .unplace) method.unplace) := by
  obtain ⟨span, name, hops⟩ := r
  unfold getSuper
  cases hops with
  | none => exact .raise _ _
  | some hops =>
      refine Unplaced.currentScope.bind fun scope => ?_
      refine (Unplaced.bindingAt _ _ _).bind fun parent => ?_
      refine (Unplaced.bindingAt _ _ _).bind fun receiver => ?_
      cases parent with
      | classObject c =>
          cases receiver with
          | object id own =>
              simp only [Value.unplace_classObject, Value.unplace_object, Token.unplace_lexeme,
                ClassObject.method?_unplace]
              cases c.method? method.lexeme with
              | some code => exact bindThis_functionOf_unplaced code (.object id own)
              | none => exact .raise _ _
          | _ => exact .raise _ _
      | _ => exact .raise _ _

theorem methodsIn_unplace (scope : Nat) (methods : List FunctionDecl) :
    methodsIn scope (FunctionDecl.relabelList .unplace methods) =
      (methodsIn scope methods).mapValues Closure.unplace := by
  unfold methodsIn
  rw [FunctionDecl.relabelList_eq_map, List.foldl_map]
  change List.foldl _ (Bindings.mapValues Closure.unplace []) methods = _
  refine List.foldl_hom (Bindings.mapValues Closure.unplace) fun bound f => ?_
  rw [Bindings.mapValues_set, FunctionDecl.relabel_name]
  rfl

theorem bindParameters_unplaced (bound : Bindings Value) (ps : List Token) (vs : List Value) :
    Unplaced (Bindings.mapValues Value.unplace) (bindParameters bound ps vs)
      (bindParameters (bound.mapValues Value.unplace) (ps.map Token.unplace)
        (vs.map Value.unplace)) := by
  induction ps generalizing bound vs with
  | nil => exact .pure rfl
  | cons p ps ih =>
      cases vs with
      | nil => exact fun _ _ => rfl
      | cons v vs =>
          have hrest := ih (bound.set p.lexeme v) vs
          rw [Bindings.mapValues_set] at hrest
          exact hrest

theorem declareClass_unplaced (name : Token) (parent : Option ClassObject)
    (methods : List FunctionDecl) :
    Unplaced (fun u : Unit => u) (declareClass name parent methods)
      (declareClass name.unplace (parent.map ClassObject.unplace)
        (FunctionDecl.relabelList .unplace methods)) := by
  have finish (scope : Nat) : Unplaced (fun u : Unit => u) (do
      let fresh ← newIdentity
      assign name.lexeme (.classObject (.mk fresh name.lexeme parent (methodsIn scope methods))))
      (do
        let fresh ← newIdentity
        assign name.lexeme (.classObject (.mk fresh name.lexeme (parent.map ClassObject.unplace)
          (methodsIn scope (FunctionDecl.relabelList .unplace methods))))) := by
    refine Unplaced.newIdentity.bind fun fresh => ?_
    rw [methodsIn_unplace, ← ClassObject.unplace_mk]
    exact .assign name.lexeme (.classObject _)
  unfold declareClass
  refine (Unplaced.define name.lexeme .nil).bind fun _ => ?_
  refine Unplaced.currentScope.bind fun outer => ?_
  cases parent with
  | none => exact (Unplaced.pure (F := id) rfl).bind finish
  | some c => exact (Unplaced.newScope outer _).bind finish

mutual

theorem eval_unplaced (n : Nat) (e : Expr) :
    Unplaced Value.unplace (eval n e) (eval n (e.relabel .unplace)) := by
  match n with
  | 0 => exact .outOfFuel
  | n + 1 =>
      cases e with
      | absent => exact fun _ _ => rfl
      | literal span value => exact .pure (Value.unplace_ofLiteral value).symm
      | grouping span inner => exact eval_unplaced n inner
      | unary span operator operand =>
          exact (eval_unplaced n operand).bind fun v => applyUnary_unplaced operator v
      | binary span operator left right =>
          refine (eval_unplaced n left).bind fun v => (eval_unplaced n right).bind fun w => ?_
          exact applyBinary_unplaced operator v w
      | logical span operator left right =>
          refine (eval_unplaced n left).bind fun v => ?_
          change Unplaced Value.unplace _ (if decides operator.unplace v.unplace then _ else _)
          rw [decides_unplace]
          exact .ite (.pure rfl) (eval_unplaced n right)
      | var r => exact .read r
      | assign target value =>
          refine (eval_unplaced n value).bind fun v => ?_
          exact (Unplaced.write target v).bind fun _ => .pure rfl
      | call span callee paren arguments =>
          refine (eval_unplaced n callee).bind fun f => ?_
          exact (evalList_unplaced n arguments).bind fun vs => callValue_unplaced n f vs paren
      | get span object name =>
          refine (eval_unplaced n object).bind fun v => ?_
          cases v with
          | object id c => exact getProperty_unplaced id c name
          | _ => exact .raise _ _
      | set span object name value =>
          refine (eval_unplaced n object).bind fun v => ?_
          cases v with
          | object id c =>
              refine (eval_unplaced n value).bind fun w => ?_
              exact (Unplaced.setField id name.lexeme w).bind fun _ => .pure rfl
          | _ => exact .raise _ _
      | thisRef r => exact .read r
      | superRef r method => exact getSuper_unplaced r method

theorem evalList_unplaced (n : Nat) (es : List Expr) :
    Unplaced (List.map Value.unplace) (evalList n es)
      (evalList n (Expr.relabelList .unplace es)) := by
  match n with
  | 0 => exact .outOfFuel
  | n + 1 =>
      cases es with
      | nil => exact .pure rfl
      | cons e rest =>
          refine (eval_unplaced n e).bind fun v => ?_
          exact (evalList_unplaced n rest).bind fun vs => .pure rfl

theorem callValue_unplaced (n : Nat) (f : Value) (vs : List Value) (paren : Token) :
    Unplaced Value.unplace (callValue n f vs paren)
      (callValue n f.unplace (vs.map Value.unplace) paren.unplace) := by
  match n with
  | 0 => exact .outOfFuel
  | n + 1 =>
      cases f with
      | native f =>
          simp only [callValue, Value.unplace_native, List.length_map]
          exact .ite (.raise _ _) (applyNative_unplaced f vs paren)
      | function id code =>
          simp only [callValue, Value.unplace_function, List.length_map, Closure.unplace_arity]
          exact .ite (.raise _ _) (callClosure_unplaced n code vs paren)
      | classObject c =>
          simp only [callValue, Value.unplace_classObject, List.length_map,
            ClassObject.unplace_arity, ClassObject.initializer?_unplace]
          refine .ite (.raise _ _) ((Unplaced.newObject c).bind fun object => ?_)
          cases c.initializer? with
          | none => exact .pure rfl
          | some method =>
              refine (bindThis_unplaced method object).bind fun code => ?_
              exact (callClosure_unplaced n code vs paren).bind fun _ => .pure rfl
      | _ => exact .raise _ _

theorem callClosure_unplaced (n : Nat) (code : Closure) (vs : List Value) (paren : Token) :
    Unplaced Value.unplace (callClosure n code vs paren)
      (callClosure n code.unplace (vs.map Value.unplace) paren.unplace) := by
  match n with
  | 0 => exact .outOfFuel
  | n + 1 =>
      refine Unplaced.isFull.bind fun full => .ite (.raise _ _) (.deeper ?_)
      have hparameters : code.unplace.declaration.parameters =
          code.declaration.parameters.map Token.unplace :=
        code.declaration.relabel_parameters .unplace
      have hbody : code.unplace.declaration.body =
          Stmt.relabelList .unplace code.declaration.body :=
        code.declaration.relabel_body .unplace
      rw [hparameters, hbody]
      refine (bindParameters_unplaced [] _ vs).bind fun bindings => ?_
      refine (Unplaced.newScope code.scope bindings).bind fun scope => ?_
      refine (Unplaced.inScope scope (execList_unplaced n code.declaration.body)).bind
        fun signal => ?_
      refine .ite (.bindingAt _ _ _) ?_
      cases signal <;> exact .pure rfl

theorem exec_unplaced (n : Nat) (s : Stmt) :
    Unplaced Signal.unplace (exec n s) (exec n (s.relabel .unplace)) := by
  match n with
  | 0 => exact .outOfFuel
  | n + 1 =>
      cases s with
      | expression span e => exact (eval_unplaced n e).bind fun _ => .pure rfl
      | print span e =>
          refine (eval_unplaced n e).bind fun v => ?_
          rw [Value.unplace_display]
          exact (Unplaced.printLine _).bind fun _ => .pure rfl
      | var span name initial =>
          cases initial with
          | none => exact (Unplaced.define name.lexeme .nil).bind fun _ => .pure rfl
          | some e =>
              refine (eval_unplaced n e).bind fun v => ?_
              exact (Unplaced.define name.lexeme v).bind fun _ => .pure rfl
      | block span body =>
          refine Unplaced.currentScope.bind fun outer => ?_
          refine (Unplaced.newScope outer []).bind fun scope => ?_
          exact .inScope scope (execList_unplaced n body)
      | branch span condition onTrue onFalse =>
          cases onFalse with
          | none =>
              refine (eval_unplaced n condition).bind fun v => ?_
              rw [Value.unplace_isTruthy]
              exact .ite (exec_unplaced n onTrue) (.pure rfl)
          | some onFalse =>
              refine (eval_unplaced n condition).bind fun v => ?_
              rw [Value.unplace_isTruthy]
              exact .ite (exec_unplaced n onTrue) (exec_unplaced n onFalse)
      | loop span condition body => exact execLoop_unplaced n condition body
      | function f =>
          refine Unplaced.currentScope.bind fun scope => ?_
          refine (functionOf_unplaced { declaration := f, scope }).bind fun v => ?_
          rw [FunctionDecl.relabel_name]
          exact (Unplaced.define f.name.lexeme v).bind fun _ => .pure rfl
      | ret span keyword value =>
          cases value with
          | none => exact .pure rfl
          | some e => exact (eval_unplaced n e).bind fun v => .pure rfl
      | classDecl span name parent methods =>
          cases parent with
          | none => exact (declareClass_unplaced name none methods).bind fun _ => .pure rfl
          | some parent =>
              refine (Unplaced.read parent).bind fun v => ?_
              cases v with
              | classObject c =>
                  exact (declareClass_unplaced name (some c) methods).bind fun _ => .pure rfl
              | _ => exact .raise _ _

theorem execList_unplaced (n : Nat) (body : List Stmt) :
    Unplaced Signal.unplace (execList n body) (execList n (Stmt.relabelList .unplace body)) := by
  match n with
  | 0 => exact .outOfFuel
  | n + 1 =>
      cases body with
      | nil => exact .pure rfl
      | cons s rest =>
          refine (exec_unplaced n s).bind fun signal => ?_
          cases signal with
          | returned v => exact .pure rfl
          | normal => exact execList_unplaced n rest

theorem execLoop_unplaced (n : Nat) (condition : Expr) (body : Stmt) :
    Unplaced Signal.unplace (execLoop n condition body)
      (execLoop n (condition.relabel .unplace) (body.relabel .unplace)) := by
  match n with
  | 0 => exact .outOfFuel
  | n + 1 =>
      refine (eval_unplaced n condition).bind fun v => ?_
      rw [Value.unplace_isTruthy]
      refine .ite ((exec_unplaced n body).bind fun signal => ?_) (.pure rfl)
      cases signal with
      | returned v => exact .pure rfl
      | normal => exact execLoop_unplaced n condition body

end

/-! ## Programs -/

theorem execProgram_unplaced (n : Nat) (program : List Stmt) :
    Unplaced (fun u : Unit => u) (execProgram n program)
      (execProgram n (Stmt.relabelList .unplace program)) := by
  induction program with
  | nil => exact .pure rfl
  | cons s rest ih => exact (exec_unplaced n s).bind fun _ => ih

end Machine

end Lox
