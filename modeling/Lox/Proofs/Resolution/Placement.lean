import Lox.Proofs.Resolution.Analysis
import Lox.Proofs.Resolution.Soundness

/-!
The state of the resolver at a place of the text.

The stack has one frame for each scope around, with the names declared so far, and at
most one of these names is not ready.  The roles tell of the nearest function and of the
nearest class.  Declaring, entering a scope and leaving it again keep to this, also
after problems.
-/

namespace Lox.Resolution

/-! ## Places -/

theorem Layer.scopes_length_pos (layer : Layer) : 0 < layer.scopes.length := by
  rcases layer with names | ⟨_, names⟩ | ⟨_ | _⟩ <;> simp [Layer.scopes]

namespace Place

/-- A place where statements stand: directly inside of a class there are methods only. -/
def Open : Place → Prop
  | .classBody _ :: _ => False
  | _ => True

variable {place : Place} (name : Bytes)

theorem Open.declare (h : place.Open) : (place.declare name).Open := by
  cases place with
  | nil => exact h
  | cons layer outer => cases layer <;> exact h

theorem Open.scopes_declare (h : place.Open) :
    (place.declare name).scopes = Context.declare place.scopes name := by
  cases place with
  | nil => rfl
  | cons layer outer =>
      cases layer with
      | block | function => simp [Place.declare, scopes, Layer.scopes]
      | classBody => exact h.elim

theorem Open.neighbours_eq (h : place.Open) : place.neighbours = place.scopes.headD [] := by
  cases place with
  | nil => rfl
  | cons layer outer =>
      cases layer with
      | block | function => simp [neighbours, scopes, Layer.scopes, Layer.names]
      | classBody => exact h.elim

@[simp] theorem function?_declare (place : Place) :
    (place.declare name).function? = place.function? := by
  cases place with
  | nil => rfl
  | cons layer outer =>
      cases layer <;> simp [declare, function?, List.findSome?_cons, Layer.function?]

@[simp] theorem class?_declare (place : Place) :
    (place.declare name).class? = place.class? := by
  cases place with
  | nil => rfl
  | cons layer outer => cases layer <;> simp [declare, class?, List.findSome?_cons, Layer.class?]

theorem any_scopes_contains {word : Bytes} (hThis : word ≠ utf8 "this")
    (hSuper : word ≠ utf8 "super") (place : Place) :
    place.scopes.any (·.contains word) = place.any fun layer => layer.names.contains word := by
  induction place with
  | nil => rfl
  | cons layer outer ih =>
      have hLayer : layer.scopes.any (·.contains word) = layer.names.contains word := by
        rcases layer with names | ⟨_, names⟩ | ⟨_ | _⟩ <;>
          simp [Layer.scopes, Layer.names, hThis, hSuper]
      simp only [scopes, List.flatMap_cons, List.any_append, List.any_cons] at ih ⊢
      rw [hLayer, ih]

theorem exists_classBody_of_class? {place : Place} {inherits : Bool}
    (h : place.class? = some inherits) : .classBody inherits ∈ place := by
  obtain ⟨layer, hmem, hlayer⟩ := List.exists_of_findSome?_eq_some h
  cases layer with
  | block | function => simp [Layer.class?] at hlayer
  | classBody inherits' =>
      obtain rfl : inherits' = inherits := by simpa [Layer.class?] using hlayer
      exact hmem

theorem any_scopes_this {place : Place} {inherits : Bool} (h : place.class? = some inherits) :
    place.scopes.any (·.contains (utf8 "this")) = true := by
  refine List.any_eq_true.mpr ⟨[utf8 "this"], List.mem_flatMap.mpr ?_, by simp⟩
  exact ⟨_, exists_classBody_of_class? h, by cases inherits <;> simp [Layer.scopes]⟩

theorem any_scopes_super {place : Place} (h : place.class? = some true) :
    place.scopes.any (·.contains (utf8 "super")) = true := by
  refine List.any_eq_true.mpr ⟨[utf8 "super"], List.mem_flatMap.mpr ?_, by simp⟩
  exact ⟨_, exists_classBody_of_class? h, by simp [Layer.scopes]⟩

end Place

end Lox.Resolution

namespace Lox.Stmt

open Resolution

theorem placeAfter_of_declared?_eq_none {s : Stmt} (h : s.declared? = none) (place : Place) :
    s.placeAfter place = place := by
  simp [placeAfter, h]

theorem placeAfter_open (s : Stmt) {place : Place} (h : place.Open) :
    (s.placeAfter place).Open := by
  unfold placeAfter
  split
  · exact h.declare _
  · exact h

end Lox.Stmt

namespace Lox.Resolution

/-! ## The state of the walk at a place -/

def Holds (frame : Frame) (names : List Bytes) : Prop :=
  ∀ name, frame.has name = names.contains name

theorem Holds.set {frame : Frame} {names : List Bytes} (h : Holds frame names) (name : Bytes)
    (ready : Bool) : Holds (frame.set name ready) (names ++ [name]) := by
  intro other
  simp [h other, Bool.or_comm, eq_comm]

theorem holds_word (word : Bytes) : Holds [(word, true)] [word] := by
  intro name
  simp [eq_comm]

theorem Holds.set_of_mem {frame : Frame} {names : List Bytes} (h : Holds frame names)
    {name : Bytes} (hname : name ∈ names) (ready : Bool) :
    Holds (frame.set name ready) names := by
  intro other
  by_cases hother : name = other
  · subst hother
    simp [hname]
  · simp [h other, hother]

/-- The innermost of the frames with a word is as far away as the innermost of the scopes. -/
theorem findIdx?_eq_of_holds {frames : List Frame} {scopes : List (List Bytes)}
    (h : List.Forall₂ Holds frames scopes) (word : Bytes) :
    frames.findIdx? (fun frame => frame.has word) =
      if scopes.any (·.contains word) then
        some (scopes.takeWhile fun names => !names.contains word).length
      else none := by
  induction h with
  | nil => rfl
  | @cons frame names frames scopes hHolds _ ih =>
      rw [List.findIdx?_cons, ih, hHolds word]
      by_cases hword : word ∈ names
      · simp [hword]
      · simp only [List.contains_eq_mem, hword, List.any_cons, decide_false, Bool.false_or,
          Bool.not_false, List.takeWhile_cons_of_pos, Bool.false_eq_true, if_false]
        split <;> simp

theorem head?_any_has_of_holds {frames : List Frame} {scopes : List (List Bytes)}
    (h : List.Forall₂ Holds frames scopes) (name : Bytes) :
    frames.head?.any (·.has name) = (scopes.headD []).contains name := by
  cases h with
  | nil => rfl
  | cons hHolds hOuter => exact hHolds name

theorem forall₂_holds_declare {frames : List Frame} {Γ : Context}
    (h : List.Forall₂ Holds frames Γ) (name : Bytes) (ready : Bool) :
    List.Forall₂ Holds (frames.modifyHead (·.set name ready)) (Γ.declare name) := by
  cases h with
  | nil => exact .nil
  | cons hHolds hOuter => exact .cons (hHolds.set name ready) hOuter

theorem forall₂_holds_define {frames : List Frame} {Γ : Context} {name : Bytes}
    (h : List.Forall₂ Holds frames (Γ.declare name)) (ready : Bool) :
    List.Forall₂ Holds (frames.modifyHead (·.set name ready)) (Γ.declare name) := by
  cases Γ with
  | nil =>
      cases h
      exact .nil
  | cons names outer =>
      cases h with
      | cons hHolds hOuter => exact .cons (hHolds.set_of_mem (by simp) ready) hOuter

def FunctionRole.initializer? : FunctionRole → Option Bool
  | .none => Option.none
  | .function | .method => some false
  | .initializer => some true

def ClassRole.inherits? : ClassRole → Option Bool
  | .none => Option.none
  | .plain => some false
  | .subclass => some true

theorem methodRole_initializer? (name : Bytes) :
    (methodRole name).initializer? = some (decide (name = utf8 "init")) := by
  unfold methodRole
  by_cases h : name = utf8 "init" <;> simp [h, FunctionRole.initializer?]

namespace State

variable (s : State) (name : Token)

theorem declare_scopes :
    (s.declare name).scopes = s.scopes.modifyHead (·.set name.lexeme false) := by
  unfold declare
  cases h : s.scopes with
  | nil => simp [h]
  | cons frame outer => rfl

theorem define_scopes :
    (s.define name).scopes = s.scopes.modifyHead (·.set name.lexeme true) := by
  unfold define
  cases h : s.scopes with
  | nil => simp [h]
  | cons frame outer => rfl

theorem declare_reported_eq :
    (s.declare name).reported = s.reported ++
      if s.scopes.head?.any (·.has name.lexeme) then [.atToken .redeclared name] else [] := by
  unfold declare
  cases h : s.scopes with
  | nil => simp
  | cons frame outer =>
      cases hhas : frame.has name.lexeme <;> simp [hhas, report]

@[simp] theorem declare_entries : (s.declare name).entries = s.entries := by
  unfold declare
  cases h : s.scopes with
  | nil => rfl
  | cons frame outer =>
      simp only
      split <;> rfl

@[simp] theorem define_entries : (s.define name).entries = s.entries := by
  unfold define
  split <;> rfl

theorem isInitializing_declare (other : Bytes) :
    (s.declare name).isInitializing other =
      if name.lexeme = other then !s.scopes.isEmpty else s.isInitializing other := by
  unfold isInitializing
  rw [declare_scopes]
  cases s.scopes with
  | nil => simp
  | cons frame outer =>
      simp only [List.modifyHead_cons, Bindings.get?_set]
      split <;> rfl

theorem isInitializing_define (other : Bytes) :
    (s.define name).isInitializing other =
      if name.lexeme = other then false else s.isInitializing other := by
  unfold isInitializing
  rw [define_scopes]
  cases s.scopes with
  | nil => simp
  | cons frame outer =>
      simp only [List.modifyHead_cons, Bindings.get?_set]
      split <;> rfl

end State

theorem sameFrame_inClass (s : State) (name : Token) :
    SameFrame { s with classRole := .plain } (s.inClass name) :=
  (SameFrame.declare _ name).trans (SameFrame.define _ name)

theorem superclass_classRole (s : State) (name : Token) (r : Reference) :
    (superclass s name r).2.classRole = .subclass :=
  show (superclass s name r).2.core.classRole = .subclass by rw [superclass_core]

/-- The stack stands for the scopes of a place; `pending` is the one name that is not ready. -/
structure Framed (s : State) (place : Place) (pending : Option Bytes) : Prop where
  scopes : List.Forall₂ Holds s.scopes place.scopes
  initializing : ∀ name, s.isInitializing name = true ↔ pending = some name

namespace Framed

variable {s t : State} {place : Place} {pending : Option Bytes}

theorem ofScopes (h : Framed s place pending) (hscopes : t.scopes = s.scopes) :
    Framed t place pending where
  scopes := by rw [hscopes]; exact h.scopes
  initializing := by
    unfold State.isInitializing
    rw [hscopes]
    exact h.initializing

theorem hops? (h : Framed s place pending) (word : Bytes) :
    s.hops? word =
      if place.scopes.any (·.contains word) then some (place.distance word) else none :=
  findIdx?_eq_of_holds h.scopes word

theorem hops?_name (h : Framed s place pending) {name : Token} (hname : name.Nameable) :
    s.hops? name.lexeme =
      if place.any (fun layer => layer.names.contains name.lexeme) then
        some (place.distance name.lexeme)
      else none := by
  rw [h.hops?, Place.any_scopes_contains hname.1 hname.2]

theorem hops?_this (h : Framed s place pending) {inherits : Bool}
    (hclass : place.class? = some inherits) :
    s.hops? (utf8 "this") = some (place.distance (utf8 "this")) := by
  rw [h.hops?, if_pos (Place.any_scopes_this hclass)]

theorem hops?_super (h : Framed s place pending) (hclass : place.class? = some true) :
    s.hops? (utf8 "super") = some (place.distance (utf8 "super")) := by
  rw [h.hops?, if_pos (Place.any_scopes_super hclass)]

theorem scopes_isEmpty (h : Framed s place pending) : s.scopes.isEmpty = place.isEmpty := by
  have hlength := h.scopes.length_eq
  cases place with
  | nil => simpa [Place.scopes] using hlength
  | cons layer outer =>
      have hpos := Layer.scopes_length_pos layer
      simp only [Place.scopes, List.flatMap_cons, List.length_append] at hlength
      rw [List.isEmpty_cons, List.isEmpty_eq_false_iff, ← List.length_pos_iff]
      omega

theorem declare (h : Framed s place none) (hopen : place.Open) (name : Token) :
    Framed (s.declare name) (place.declare name.lexeme) (place.initializing name.lexeme) where
  scopes := by
    rw [hopen.scopes_declare, State.declare_scopes]
    exact forall₂_holds_declare h.scopes name.lexeme false
  initializing := by
    intro other
    have hready : s.isInitializing other = false := by simpa using h.initializing other
    rw [State.isInitializing_declare, h.scopes_isEmpty, hready]
    cases place <;> simp [Place.initializing]

theorem define {name : Token} (hopen : place.Open)
    (h : Framed s (place.declare name.lexeme) (place.initializing name.lexeme)) :
    Framed (s.define name) (place.declare name.lexeme) none where
  scopes := by
    have hscopes := h.scopes
    rw [hopen.scopes_declare] at hscopes ⊢
    rw [State.define_scopes]
    exact forall₂_holds_define hscopes true
  initializing := by
    intro other
    rw [State.isInitializing_define]
    split
    · simp
    · -- Only `name` was not ready.
      rename_i hne
      have hready := h.initializing other
      have hnot : place.initializing name.lexeme ≠ some other := by
        cases place <;> simp [Place.initializing, hne]
      simpa [hnot] using hready

theorem declare_define (h : Framed s place none) (hopen : place.Open) (name : Token) :
    Framed ((s.declare name).define name) (place.declare name.lexeme) none :=
  (h.declare hopen name).define hopen

theorem inClass (h : Framed s place none) (hopen : place.Open) (name : Token) :
    Framed (s.inClass name) (place.declare name.lexeme) none :=
  (h.ofScopes (t := { s with classRole := .plain }) rfl).declare_define hopen name

end Framed

/-- The state stands for a place, with its nearest function and class. -/
structure Mirrors (s : State) (place : Place) (pending : Option Bytes) : Prop
    extends Framed s place pending where
  function : s.function.initializer? = place.function?
  classRole : s.classRole.inherits? = place.class?

namespace Mirrors

variable {s t : State} {place : Place} {pending : Option Bytes}

theorem back (h : Mirrors s place pending) (hscopes : t.scopes = s.scopes)
    (hframe : SameFrame s t) : Mirrors t place pending where
  toFramed := h.toFramed.ofScopes hscopes
  function := by rw [hframe.function, h.function]
  classRole := by rw [hframe.classRole, h.classRole]

theorem ofCore (h : Mirrors s place pending) (hcore : t.core = s.core) :
    Mirrors t place pending :=
  h.back (State.scopes_of_core hcore) (.ofCore hcore)

theorem ofDeclared (h : Mirrors s place none) {name : Bytes}
    (hframed : Framed t (place.declare name) pending) (hframe : SameFrame s t) :
    Mirrors t (place.declare name) pending where
  toFramed := hframed
  function := by rw [hframe.function, Place.function?_declare, h.function]
  classRole := by rw [hframe.classRole, Place.class?_declare, h.classRole]

/-! ### Entering a scope -/

theorem openScope (h : Mirrors s place none) :
    Mirrors s.openScope (.block [] :: place) none where
  scopes := .cons (fun _ => rfl) h.scopes
  initializing := by simp [State.openScope, State.openWith, State.isInitializing]
  function := h.function
  classRole := h.classRole

theorem openFunction (h : Mirrors s place none) {role : FunctionRole} {initializer : Bool}
    (hrole : role.initializer? = some initializer) :
    Mirrors ({ s with function := role } : State).openScope (.function initializer [] :: place)
      none where
  scopes := .cons (fun _ => rfl) h.scopes
  initializing := by simp [State.openScope, State.openWith, State.isInitializing]
  function := hrole
  classRole := h.classRole

/-! ### Declarations -/

theorem declare (h : Mirrors s place none) (hopen : place.Open) (name : Token) :
    Mirrors (s.declare name) (place.declare name.lexeme) (place.initializing name.lexeme) :=
  h.ofDeclared (h.toFramed.declare hopen name) (SameFrame.declare s name)

theorem declare_define (h : Mirrors s place none) (hopen : place.Open) (name : Token) :
    Mirrors ((s.declare name).define name) (place.declare name.lexeme) none :=
  h.ofDeclared (h.toFramed.declare_define hopen name)
    ((SameFrame.declare s name).trans (SameFrame.define _ name))

/-! ### Classes -/

private theorem function_inClass (h : Mirrors s place none) (name : Token) :
    (s.inClass name).function.initializer? = (place.declare name.lexeme).function? := by
  rw [(sameFrame_inClass s name).function, Place.function?_declare, ← h.function]

theorem openThis (h : Mirrors s place none) (hopen : place.Open) (name : Token) :
    Mirrors ((s.inClass name).openWith [(utf8 "this", true)])
      (.classBody false :: place.declare name.lexeme) none where
  scopes := .cons (holds_word _) (h.toFramed.inClass hopen name).scopes
  initializing := by simp [State.openWith, State.isInitializing, Bindings.get?_cons]
  function := function_inClass h name
  classRole := congrArg ClassRole.inherits? (sameFrame_inClass s name).classRole

theorem openSuperThis (h : Mirrors s place none) (hopen : place.Open) (name : Token)
    (parent : Reference) :
    Mirrors (((superclass (s.inClass name) name parent).2.openWith
        [(utf8 "super", true)]).openWith [(utf8 "this", true)])
      (.classBody true :: place.declare name.lexeme) none where
  scopes := by
    have hclass := h.toFramed.inClass hopen name
    exact .cons (holds_word _) (.cons (holds_word _)
      (hclass.ofScopes (superclass_scopes _ name parent)).scopes)
  initializing := by simp [State.openWith, State.isInitializing, Bindings.get?_cons]
  function := (congrArg _ (superclass_function _ name parent)).trans (function_inClass h name)
  classRole := congrArg ClassRole.inherits? (superclass_classRole _ name parent)

end Mirrors

end Lox.Resolution
