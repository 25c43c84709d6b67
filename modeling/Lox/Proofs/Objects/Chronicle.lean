import Lox.Proofs.Recorded.Session
import Lox.Proofs.Session.Fuel

/-!
Evaluation that keeps a chronicle.

The chronicle tells of every machine on the way, of every value that an expression gives, of
every class, object and function that comes to be, and of every use of `this` and `super`.
Code runs at a home: that of the method it is in, and none outside of methods.  A function
takes the home of the code that declares it along, wherever it is called; a method gets a new
home each time it is bound.  No scope is looked at for this.
-/

namespace Lox.Objects

open Recorded (Note Place Recorder)

inductive Entry where
  /-- The machine after a change. -/
  | state (m : Machine)
  /-- An expression gives a value. -/
  | given (v : Value)
  /-- A class statement makes a class; `before` is the machine that it starts with. -/
  | declared (before : Machine) (name : Token) (superclass : Option Reference)
      (methods : List FunctionDecl) (scope : Nat) (c : ClassObject)
  | created (id : Nat) (c : ClassObject)
  /-- A function is declared, or a method is bound, and runs at a home from now on. -/
  | made (id : Nat) (code : Closure) (home : Option Home)
  | thisUsed (home : Option Home) (r : Reference) (before : Machine) (answer : Outcome Value)
  | superUsed (home : Option Home) (r : Reference) (method : Token) (before : Machine)
      (answer : Outcome Value)

/-- Of what a recorder is told the chronicle keeps the births. -/
def Entry.of? : Note → Option Entry
  | .declared before name superclass methods scope c =>
      some (.declared before name superclass methods scope c)
  | .created id c => some (.created id c)
  | .made id code home => some (.made id code home)
  | _ => none

/-- The latest entry comes first. -/
abbrev Tape := List Entry

def Tape.homeOf : Tape → Nat → Option Home
  | [], _ => none
  | .made id _ home :: rest, f => if id = f then home else homeOf rest f
  | _ :: rest, f => homeOf rest f

/-! ## Runs with their chronicle -/

structure World where
  tape : Tape
  machine : Machine

abbrev Told (α : Type) := World → Outcome α × Tape

namespace Told

def pure (value : α) : Told α := fun w => (.done value w.machine, w.tape)

def bind (first : Told α) (rest : α → Told β) : Told β := fun w =>
  match first w with
  | (.done value m, tape) => rest value ⟨tape, m⟩
  | (.fault cause m, tape) => (.fault cause m, tape)

instance : Monad Told where
  pure := Told.pure
  bind := Told.bind

def look (p : Run α) : Told α := fun w => (p w.machine, w.tape)

def move (p : Run α) : Told α := fun w =>
  (p w.machine, .state (p w.machine).machine :: w.tape)

def between (enter : Machine → Machine) (leave : Machine → Machine → Machine) (body : Told α) :
    Told α := fun w =>
  let (out, tape) := body ⟨.state (enter w.machine) :: w.tape, enter w.machine⟩
  (out.onMachine (leave w.machine), .state (leave w.machine out.machine) :: tape)

def inScope (id : Nat) (body : Told α) : Told α :=
  between (fun m => { m with current := id }) (fun m m' => { m' with current := m.current }) body

def deeper (body : Told α) : Told α :=
  between (fun m => { m with depth := m.depth + 1 }) (fun _ m' => { m' with depth := m'.depth - 1 })
    body

def note (note : Note) (t : Told α) : Told α := fun w =>
  t { w with tape := (Entry.of? note).toList ++ w.tape }

def telling (entry : Machine → Outcome α → Entry) (t : Told α) : Told α := fun w =>
  ((t w).1, entry w.machine (t w).1 :: (t w).2)

def giving (t : Told Value) : Told Value := do
  let v ← t
  fun w => (.done v w.machine, .given v :: w.tape)

def evaluation (place : Place) (e : Expr) (t : Told Value) : Told Value :=
  giving
    (match e with
    | .thisRef r => telling (.thisUsed place.home r) t
    | .superRef r method => telling (.superUsed place.home r method) t
    | _ => t)

def asking (t : Machine → Told α) : Told α := fun w => t w.machine w

def withHome (id : Nat) (t : Option Home → Told α) : Told α := fun w => t (w.tape.homeOf id) w

end Told

instance : Recorder Told where
  look := Told.look
  move _ := Told.move
  inScope := Told.inScope
  activation _ _ := Told.deeper
  evaluation := Told.evaluation
  note := Told.note
  withMachine := Told.asking
  withHome := Told.withHome

/-! ## Sessions -/

def perform (fuel : Nat) (s : Session) (step : Session.Step) (tape : Tape) :
    Outcome (Option Value) × Tape :=
  (Recorded.task fuel s step : Told (Option Value)) ⟨tape, s.machine⟩

def chronicleFrom (fuel : Nat) (tape : Tape) : Session → List Session.Step → Tape
  | _, [] => tape
  | s, step :: rest => chronicleFrom fuel (perform fuel s step tape).2 (s.next fuel step) rest

def chronicle (fuel : Nat) (s : Session) (steps : List Session.Step) : Tape :=
  chronicleFrom fuel [.state s.machine] s steps

end Lox.Objects
