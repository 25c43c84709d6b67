import Lox.Proofs.Lexical.Simulation

/-!
The steps that are not recursive correspond: operators, fields, calls of native
functions, names, methods and class declarations.
-/

namespace Lox.Lexical

open Resolution (Context)

/-! ## What is seen of a value -/

namespace ClassRel

variable {w : World} {c c' : ClassObject}

theorem id_eq (h : ClassRel w c c') : c.id = c'.id := by cases h <;> rfl

theorem name_eq (h : ClassRel w c c') : c.name = c'.name := by cases h <;> rfl

theorem method? (h : ClassRel w c c') (name : Bytes) :
    c.method? name = none ∧ c'.method? name = none ∨
      ∃ f f', c.method? name = some f ∧ c'.method? name = some f' ∧ MethodRel w f f' := by
  induction h with
  | root id _ h => exact h.get? name
  | sub id _ _ h ih =>
      simp only [ClassObject.method?]
      obtain ⟨hown, hown'⟩ | ⟨f, f', hown, hown', hf⟩ := h.get? name
      · simpa [hown, hown'] using ih
      · simpa [hown, hown'] using hf

end ClassRel

theorem ClosureRel.arity_eq {w : World} {own : Context} {c c' : Closure}
    (h : ClosureRel w own c c') : c.arity = c'.arity := by
  simp [Closure.arity, h.declaration]

theorem ClosureRel.name_eq {w : World} {own : Context} {c c' : Closure}
    (h : ClosureRel w own c c') : c.name = c'.name := by
  simp [Closure.name, h.declaration, Relabelling.unresolve]

theorem ClassRel.arity_eq {w : World} {c c' : ClassObject} (h : ClassRel w c c') :
    c.arity = c'.arity := by
  unfold ClassObject.arity ClassObject.initializer?
  obtain ⟨hm, hm'⟩ | ⟨f, f', hm, hm', hf⟩ := h.method? (utf8 "init")
  · simp [hm, hm']
  · simp [hm, hm', hf.arity_eq]

namespace ValueRel

variable {w : World} {u u' v v' : Value}

theorem isTruthy_eq (h : ValueRel w v v') : v.isTruthy = v'.isTruthy := by cases h <;> rfl

theorem face_eq (h : ValueRel w v v') : v.face = v'.face := by
  cases h with
  | nil | bool | number | text | native => rfl
  | function id h => simp [Value.face, h.name_eq]
  | classObject h => simp [Value.face, h.id_eq, h.name_eq]
  | object id h => simp [Value.face, h.name_eq]

theorem display_eq (h : ValueRel w v v') : v.display = v'.display :=
  congrArg Face.display h.face_eq

theorem same_eq (hu : ValueRel w u u') (hv : ValueRel w v v') : u.same v = u'.same v' := by
  unfold Value.same
  rw [hu.face_eq, hv.face_eq]

theorem map_face_eq {vs vs' : List Value} (h : List.Forall₂ (ValueRel w) vs vs') :
    vs.map Value.face = vs'.map Value.face := by
  induction h with
  | nil => rfl
  | cons hv _ ih => simp [hv.face_eq, ih]

theorem ofLiteral (w : World) (l : Literal) : ValueRel w (.ofLiteral l) (.ofLiteral l) := by
  cases l with
  | nil => exact .nil
  | bool b => exact .bool b
  | number x => exact .number x
  | text s => exact .text s

end ValueRel

section

variable {F : Nat → Prop} {i : Nat} {w : World}

/-! ## Operators and native functions -/

theorem applyUnary_sim (operator : Token) {v v' : Value} (hv : ValueRel w v v') :
    Sim F i w (Machine.applyUnary operator v) (lift (Machine.applyUnary operator v'))
      ValueRel := by
  unfold Machine.applyUnary
  split
  · cases hv with
    | number x => exact .pure (.number (-x))
    | _ => exact .raise _ _
  · rw [hv.isTruthy_eq]
    exact .pure (.bool _)
  · exact .raise _ _

theorem applyArithmetic_sim (operator : Token) (x y : Float) :
    Sim F i w (Machine.applyArithmetic operator x y)
      (lift (Machine.applyArithmetic operator x y)) ValueRel := by
  unfold Machine.applyArithmetic
  split
  case h_1 | h_2 | h_3 => exact .pure (.number _)
  case h_4 | h_5 | h_6 | h_7 => exact .pure (.bool _)
  case h_8 => exact .raise _ _

theorem applyBinary_sim (operator : Token) {u u' v v' : Value} (hu : ValueRel w u u')
    (hv : ValueRel w v v') :
    Sim F i w (Machine.applyBinary operator u v) (lift (Machine.applyBinary operator u' v'))
      ValueRel := by
  unfold Machine.applyBinary
  split
  · rw [hu.same_eq hv]
    exact .pure (.bool _)
  · rw [hu.same_eq hv]
    exact .pure (.bool _)
  · cases hu with
    | number x =>
        cases hv with
        | number y => exact .pure (.number _)
        | _ => exact .raise _ _
    | text s =>
        cases hv with
        | text t => exact .pure (.text _)
        | _ => exact .raise _ _
    | _ => exact .raise _ _
  · cases hu with
    | number x =>
        cases hv with
        | number y => exact applyArithmetic_sim operator x y
        | _ => exact .raise _ _
    | _ => exact .raise _ _

theorem decides_eq (operator : Token) {v v' : Value} (hv : ValueRel w v v') :
    Machine.decides operator v = Machine.decides operator v' := by
  simp [Machine.decides, hv.isTruthy_eq]

theorem applyNative_sim (f : Native) {args args' : List Value} (paren : Token)
    (h : List.Forall₂ (ValueRel w) args args') :
    Sim F i w (Machine.applyNative f args paren) (lift (Machine.applyNative f args' paren))
      ValueRel := by
  intro m s hrel hi _
  simp only [Machine.applyNative, lift, hrel.clock, ValueRel.map_face_eq h]
  obtain ⟨text | l, clock⟩ := f.code (args'.map Value.face) m.clock
  · exact .fault (.refl w) { hrel with clock := rfl } hi
  · exact .done (.refl w) { hrel with clock := rfl } hi (ValueRel.ofLiteral w l)

/-! ## Identities, fields, calls and output -/

theorem newIdentity_sim :
    Sim F i w Machine.newIdentity (lift Machine.newIdentity) fun _ id id' => id = id' :=
  fun _ _ h hi _ => .done (.refl w) { h with fresh := by simp [h.fresh] } hi h.fresh.symm

theorem functionOf_sim (c c' : Closure) :
    Sim F i w (Machine.functionOf c) (lift (Machine.functionOf c'))
      fun _ v v' => ∃ id, v = .function id c ∧ v' = .function id c' := by
  unfold Machine.functionOf
  rw [lift_bind]
  refine newIdentity_sim.bind fun w' id id' _ hid => ?_
  subst hid
  exact .pure ⟨id, rfl, rfl⟩

theorem boundMethod_sim {c c' : Closure} (h : ClosureRel w [] c c') :
    Sim F i w (Machine.functionOf c) (lift (Machine.functionOf c')) ValueRel := by
  refine (functionOf_sim c c').imp fun w' v v' hw hv => ?_
  obtain ⟨id, rfl, rfl⟩ := hv
  exact .function id (h.mono hw)

theorem isFull_sim :
    Sim F i w Machine.isFull (lift Machine.isFull) fun _ b b' => b = b' :=
  fun _ _ h hi _ => .done (.refl w) h hi (by simp [h.limit, h.depth])

theorem printLine_sim (line : Bytes) :
    Sim F i w (Machine.printLine line) (lift (Machine.printLine line)) fun _ _ _ => True :=
  fun _ _ h hi _ => .done (.refl w) { h with printed := by simp [h.printed] } hi trivial

theorem newObject_sim {c c' : ClassObject} :
    Sim F i w (Machine.newObject c) (lift (Machine.newObject c'))
      fun _ v v' => ∃ id, v = .object id c ∧ v' = .object id c' := by
  intro m s h hi _
  have hsize : m.fields.size = s.machine.fields.size := by simpa using h.fields.length_eq
  refine .done (.refl w) { h with fields := ?_ } hi ⟨m.fields.size, rfl, by rw [hsize]⟩
  simpa using List.rel_append h.fields (.cons .nil .nil)

theorem forall₂_getElem? {R : α → β → Prop} {as : List α} {bs : List β}
    (h : List.Forall₂ R as bs) (k : Nat) :
    as[k]? = none ∧ bs[k]? = none ∨ ∃ a b, as[k]? = some a ∧ bs[k]? = some b ∧ R a b := by
  induction h generalizing k with
  | nil => exact .inl ⟨rfl, rfl⟩
  | @cons a b _ _ hab _ ih =>
      cases k with
      | zero => exact .inr ⟨a, b, rfl, rfl, hab⟩
      | succ k => exact ih k

theorem forall₂_modify {R : α → β → Prop} {as : List α} {bs : List β} {f : α → α} {g : β → β}
    (h : List.Forall₂ R as bs) (hfg : ∀ a b, R a b → R (f a) (g b)) (k : Nat) :
    List.Forall₂ R (as.modify k f) (bs.modify k g) := by
  induction h generalizing k with
  | nil => simp
  | cons hab hrest ih =>
      cases k with
      | zero => exact .cons (hfg _ _ hab) hrest
      | succ k => exact .cons hab (ih k)

theorem field?_sim (id : Nat) (name : Bytes) :
    Sim F i w (Machine.field? id name) (lift (Machine.field? id name)) fun w' v v' =>
      v = none ∧ v' = none ∨ ∃ u u', v = some u ∧ v' = some u' ∧ ValueRel w' u u' := by
  intro m s h hi _
  refine .done (.refl w) h hi ?_
  obtain ⟨hb, hb'⟩ | ⟨bs, bs', hb, hb', hrel⟩ := forall₂_getElem? h.fields id
  · left
    simp_all
  · simp only [Array.getElem?_toList] at hb hb'
    simpa [hb, hb'] using hrel.get? name

theorem setField_sim (id : Nat) (name : Bytes) {v v' : Value} (hv : ValueRel w v v') :
    Sim F i w (Machine.setField id name v) (lift (Machine.setField id name v'))
      fun _ _ _ => True := by
  intro m s h hi _
  refine .done (.refl w) { h with fields := ?_ } hi trivial
  simpa using forall₂_modify h.fields (fun _ _ hrel => hrel.set name hv) id

end

end Lox.Lexical
