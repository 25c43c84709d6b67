import Lox.Proofs.Recorded.Evaluation

/-!
Runs that leave a log.

A log is a list of entries, which what is told of a run and the changes of the machine add to.
Each kind of entry says for itself what it keeps.
-/

namespace Lox

def Outcome.value? : Outcome α → Option α
  | .done v _ => some v
  | .fault _ _ => none

namespace Recorded

/-- The entries for what a recorder is told. -/
class Log (ε : Type) where
  note : Note → Machine → List ε
  /-- For a change from one machine to another. -/
  move : Act → Machine → Machine → List ε := fun _ _ _ => []
  /-- For a call, from the entries of the function body and its value. -/
  activation : Value → List Value → List ε → Option Value → List ε := fun _ _ inside _ => inside

abbrev Traced (ε α : Type) := Machine → Outcome α × List ε

namespace Traced

variable {ε α β : Type}

def run (t : Traced ε α) : Run α := fun m => (t m).1

def next (rest : α → Traced ε β) : Outcome α → List ε
  | .done value m => (rest value m).2
  | .fault _ _ => []

def pure (value : α) : Traced ε α := fun m => (.done value m, [])

def bind (first : Traced ε α) (rest : α → Traced ε β) : Traced ε β := fun m =>
  (Run.bind first.run (fun value => (rest value).run) m,
    (first m).2 ++ next rest (first m).1)

def silent (p : Run α) : Traced ε α := fun m => (p m, [])

def asking (t : Machine → Traced ε α) : Traced ε α := fun m => t m m

variable [Log ε]

def noting (note : Note) (t : Traced ε α) : Traced ε α := fun m =>
  ((t m).1, Log.note note m ++ (t m).2)

def move (act : Act) (p : Run α) : Traced ε α := fun m =>
  (p m, Log.move act m (p m).machine)

def inScope (id : Nat) (body : Traced ε α) : Traced ε α := fun m =>
  let inner := body { m with current := id }
  let out := Machine.inScope id body.run m
  (out, Log.move .other m { m with current := id } ++ inner.2 ++
    Log.move .other inner.1.machine out.machine)

def activation (callee : Value) (arguments : List Value) (body : Traced ε Value) :
    Traced ε Value := fun m =>
  let inner := body { m with depth := m.depth + 1 }
  let out := Machine.deeper body.run m
  (out, Log.move .other m { m with depth := m.depth + 1 } ++
    Log.activation callee arguments inner.2 inner.1.value? ++
    Log.move .other inner.1.machine out.machine)

end Traced

instance : Monad (Traced ε) where
  pure := Traced.pure
  bind := Traced.bind

instance [Log ε] : Recorder (Traced ε) where
  look := Traced.silent
  move := Traced.move
  inScope := Traced.inScope
  activation := Traced.activation
  evaluation _ _ t := t
  note := Traced.noting
  withMachine := Traced.asking
  withHome _ t := t none

namespace Traced

variable {ε α β : Type}

theorem bind_of_done {t : Traced ε α} {rest : α → Traced ε β} {m m₁ : Machine} {v : α}
    (h : (t m).1 = .done v m₁) :
    (t >>= rest) m = ((rest v m₁).1, (t m).2 ++ (rest v m₁).2) := by
  change Traced.bind t rest m = _
  simp only [Traced.bind, Run.bind, Traced.run, Traced.next, h]

theorem bind_of_fault {t : Traced ε α} {rest : α → Traced ε β} {m m₁ : Machine} {cause : Fault}
    (h : (t m).1 = .fault cause m₁) : (t >>= rest) m = (.fault cause m₁, (t m).2) := by
  change Traced.bind t rest m = _
  simp only [Traced.bind, Run.bind, Traced.run, Traced.next, h, List.append_nil]

theorem look_pure_bind [Log ε] (v : α) (rest : α → Traced ε β) :
    (Recorder.look (Pure.pure v) >>= rest) = rest v := rfl

theorem silent_bind_of_done {p : Run α} {rest : α → Traced ε β} {m m₁ : Machine} {v : α}
    (h : p m = .done v m₁) : (silent p >>= rest) m = rest v m₁ :=
  bind_of_done h

end Traced

/-! ## Runs without entries -/

/-- A log that keeps nothing of changes and of births. -/
class Log.Discreet (ε : Type) [Log ε] : Prop where
  move (act : Act) (m m' : Machine) : (Log.move act m m' : List ε) = []
  birth (note : Note) (m : Machine) : note.IsBirth → (Log.note note m : List ε) = []

def Quiet (t : Traced ε α) (p : Run α) : Prop := ∀ m, t m = (p m, [])

namespace Quiet

variable {ε α β : Type} {t : Traced ε α} {p : Run α}

theorem pure (v : α) : Quiet (Pure.pure v : Traced ε α) (Pure.pure v) := fun _ => rfl

theorem silent (p : Run α) : Quiet (Traced.silent p : Traced ε α) p := fun _ => rfl

theorem bind {rest : α → Traced ε β} {f : α → Run β} (ht : Quiet t p)
    (hf : ∀ v, Quiet (rest v) (f v)) : Quiet (t >>= rest) (p >>= f) := by
  intro m
  change (Run.bind t.run (fun v => (rest v).run) m, (t m).2 ++ Traced.next rest (t m).1) =
    (Run.bind p f m, [])
  simp only [Run.bind, Traced.run, ht m]
  cases p m with
  | done v m' => simp [Traced.next, hf v m']
  | fault cause m' => rfl

variable [Log ε] [Log.Discreet ε]

theorem move (act : Act) (p : Run α) : Quiet (Traced.move act p : Traced ε α) p :=
  fun m => by simp [Traced.move, Log.Discreet.move]

theorem noting {note : Note} (hnote : note.IsBirth) (h : Quiet t p) :
    Quiet (Traced.noting note t) p :=
  fun m => by simp [Traced.noting, Log.Discreet.birth note m hnote, h m]

theorem bindThis (method : Closure) (receiver : Value) :
    Quiet (Recorded.bindThis method receiver : Traced ε Closure)
      (Machine.bindThis method receiver) :=
  (move .other _).bind fun _ => .pure _

theorem functionOf (code : Closure) (home : Option Home) :
    Quiet (Recorded.functionOf code home : Traced ε Value) (Machine.functionOf code) :=
  (move .other _).bind fun _ => .noting trivial (.pure _)

theorem methodFrom (c : ClassObject) (receiver : Value) (name : Token) :
    Quiet (Recorded.methodFrom c receiver name : Traced ε Value)
      (Machine.methodFrom c receiver name) := by
  unfold Recorded.methodFrom Machine.methodFrom
  cases c.method? name.lexeme with
  | some method => exact (bindThis method receiver).bind fun code => functionOf code _
  | none => exact silent _

theorem getProperty (id : Nat) (c : ClassObject) (name : Token) :
    Quiet (Recorded.getProperty id c name : Traced ε Value) (Machine.getProperty id c name) := by
  refine (silent _).bind fun found => ?_
  cases found with
  | some v => exact pure v
  | none => exact methodFrom c _ name

theorem getSuper (r : Reference) (method : Token) :
    Quiet (Recorded.getSuper r method : Traced ε Value) (Machine.getSuper r method) := by
  unfold Recorded.getSuper Machine.getSuper
  cases r.hops with
  | none => exact silent _
  | some hops =>
      refine (silent _).bind fun scope => (silent _).bind fun parent => ?_
      refine (silent _).bind fun receiver => ?_
      cases parent with
      | classObject c =>
          cases receiver with
          | object id own => exact methodFrom c _ method
          | _ => exact silent _
      | _ => exact silent _

theorem newObject (c : ClassObject) :
    Quiet (Recorded.newObject c : Traced ε Value) (Machine.newObject c) := by
  have hp : Machine.newObject c = (Machine.newObject c >>= fun v => Pure.pure v) := rfl
  rw [hp]
  refine (move .other _).bind fun v => ?_
  cases v with
  | object id own => exact .noting trivial (.pure _)
  | _ => exact .pure _

theorem declareClass (before : Machine) (name : Token) (superclass : Option Reference)
    (parent : Option ClassObject) (methods : List FunctionDecl) :
    Quiet (Recorded.declareClass before name superclass parent methods : Traced ε Unit)
      (Machine.declareClass name parent methods) := by
  unfold Recorded.declareClass Machine.declareClass
  refine (move _ _).bind fun _ => (silent _).bind fun outer => ?_
  cases parent with
  | none =>
      refine (Quiet.pure outer).bind fun scope => (move _ _).bind fun id => ?_
      exact .noting trivial (move _ _)
  | some c =>
      refine (move _ _).bind fun scope => (move _ _).bind fun id => ?_
      exact .noting trivial (move _ _)

end Quiet

end Recorded

end Lox
