import Lox.Proofs.Course.Globals
import Lox.Proofs.Objects.Inside
import Lox.Proofs.Objects.Running

/-!
Classes, objects and methods in whole sessions.

The chronicle of a session is faithful from its start, whatever the outcomes of the steps were.
So the classes of a session are made by class statements, each after all of its ancestors, and
what a value of a session has been at one point it is at every other.
-/

namespace Lox.Objects

open Session (Step)

/-- The use stands in an expression that is evaluated by itself, which no resolver has checked. -/
def Strays (steps : List Step) (r : Reference) : Prop :=
  ∃ source e, Step.evaluate source ∈ steps ∧ (parseExpression source).1 = some e ∧ r ∈ e.selves

theorem Strays.mono {steps steps' : List Step} (h : steps ⊆ steps') {r : Reference}
    (hr : Strays steps r) : Strays steps' r := by
  obtain ⟨source, e, hstep, huse⟩ := hr
  exact ⟨source, e, h hstep, huse⟩

structure Chronicled (stray : Reference → Prop) (s : Session) (tape : Tape) : Prop where
  sound : World.Sound stray ⟨tape, s.machine⟩
  atTop : s.resolution.AtTop

variable {stray : Reference → Prop}

theorem World.Sound.alike {tape : Tape} {m m' : Machine} (h : World.Sound stray ⟨tape, m⟩)
    (hsame : m.Alike m') (hfresh : m'.fresh = m.fresh) : World.Sound stray ⟨tape, m'⟩ := by
  have hgrows : World.Grows ⟨tape, m⟩ ⟨tape, m'⟩ :=
    ⟨List.Subset.refl _, hsame.scopes ▸ .refl _⟩
  have hchanges : Changes stray ⟨tape, m⟩ m' := .of_alike h hsame (Nat.le_of_eq hfresh.symm)
  exact
    { faithful := h.faithful
      held := fun v hv => (hchanges.held v hv).mono hgrows
      below := fun kind => (h.below kind).le (hchanges.next kind)
      kept := fun m₀ hm₀ => (h.kept m₀ hm₀).trans hchanges.scopes }

theorem Ends.sound {w : World} {Q : World → α → Prop} {ended : Outcome α × Tape}
    {out : Outcome α} (h : Ends stray w Q ended out) :
    ended.1 = out ∧ World.Sound stray ⟨ended.2, out.machine⟩ := by
  cases h with
  | done hleads hsound hv => exact ⟨rfl, hsound⟩
  | fault hleads hsound => exact ⟨rfl, hsound⟩

theorem chronicled_fresh (natives : List Native) (limit : Nat) (clock : List Int) :
    Chronicled stray (.fresh natives limit clock)
      [.state (Session.fresh natives limit clock).machine] where
  sound :=
    { faithful := by
        refine ⟨⟨fun v hv => ?_, nofun⟩, trivial⟩
        obtain ⟨f, rfl⟩ := Machine.holds_start hv
        trivial
      held := fun v hv => by
        obtain ⟨f, rfl⟩ := Machine.holds_start hv
        trivial
      below := fun kind entry hentry i hi => by
        obtain rfl := List.mem_singleton.mp hentry
        cases hi
      kept := fun m hm => by
        cases List.mem_singleton.mp hm
        exact .refl _ }
  atTop := ⟨rfl, rfl, rfl⟩

/-! ## One step -/

namespace Chronicled

variable {s : Session} {tape : Tape}

theorem task_meets (h : Chronicled stray s tape) (fuel : Nat) {step : Step}
    (hstray : ∀ r, Strays [step] r → stray r) :
    Meets stray ⟨tape, s.machine⟩ (Recorded.task fuel s step) (s.task fuel step)
      fun _ _ => True := by
  cases step with
  | run source =>
      obtain ⟨hprogram, hreport⟩ := checkFrom_eq_check h.atTop source
      simp only [Recorded.task, Session.task, hprogram, hreport]
      refine .ite (fun _ => .pure trivial) fun hfailed => ?_
      have hclean : (check source).report.diagnostics = [] :=
        checkFrom_failed_eq_false_iff.mp (Bool.eq_false_iff.mpr hfailed)
      have hscoped : Stmt.ScopedList [] (check source).program :=
        (checkFrom_scoped ⟨rfl, rfl, rfl⟩ hclean).1
      have huses : ∀ r ∈ Stmt.selvesList (check source).program, stray r := by
        rw [check_selves hclean]
        exact List.forall_mem_nil _
      exact (execProgram_meets fuel _ hscoped huses).bind fun _ _ _ _ => .pure trivial
  | evaluate source =>
      refine .ite (fun _ => .pure trivial) fun hfailed => ?_
      obtain ⟨e, he⟩ := exists_parseExpression_eq (Bool.eq_false_iff.mpr hfailed)
      rw [he, Option.getD_some]
      have hscoped := Expr.scoped_nil e (parseExpression_wellFormed source e he)
      have huses : ∀ r ∈ e.selves, Admits stray none r :=
        fun r hr => hstray r ⟨source, e, List.mem_cons_self, he, hr⟩
      have hat : Situated ⟨tape, s.machine⟩ [] s.machine.current none := rfl
      exact (eval_meets fuel _ e hscoped hat (by simp) huses).bind fun _ _ _ _ => .pure trivial
  | globals => exact .pure trivial

theorem perform (h : Chronicled stray s tape) (fuel : Nat) {step : Step}
    (hstray : ∀ r, Strays [step] r → stray r) :
    (Objects.perform fuel s step tape).1 = s.perform fuel step ∧
      World.Sound stray ⟨(Objects.perform fuel s step tape).2, (s.perform fuel step).machine⟩ :=
  (h.task_meets fuel hstray h.sound).sound

theorem next (h : Chronicled stray s tape) (fuel : Nat) {step : Step}
    (hstray : ∀ r, Strays [step] r → stray r) :
    Chronicled stray (s.next fuel step) (Objects.perform fuel s step tape).2 where
  sound := (h.perform fuel hstray).2.alike ⟨rfl, rfl⟩ rfl
  atTop := by
    cases step with
    | run source => exact checkFrom_atTop h.atTop source
    | evaluate source | globals => exact h.atTop

/-! ## All steps -/

theorem chronicleFrom (h : Chronicled stray s tape) (fuel : Nat) {steps : List Step}
    (hstray : ∀ r, Strays steps r → stray r) :
    Chronicled stray (s.afterWith fuel steps) (Objects.chronicleFrom fuel tape s steps) := by
  induction steps generalizing s tape with
  | nil => exact h
  | cons step rest ih =>
      have hfirst : ∀ r, Strays [step] r → stray r := fun r hr => hstray r (hr.mono (by simp))
      have hstep := h.next fuel hfirst
      exact ih hstep fun r hr => hstray r (hr.mono (List.subset_cons_self _ _))

end Chronicled

/-- After any steps, a step does what its chronicle says and ends in a sound world. -/
theorem perform_sound (natives : List Native) (limit : Nat) (clock : List Int) (fuel : Nat)
    (earlier : List Step) (step : Step) :
    let start := Session.fresh natives limit clock
    let s := start.afterWith fuel earlier
    let ended := perform fuel s step (chronicle fuel start earlier)
    ended.1 = s.perform fuel step ∧
      World.Sound (Strays (earlier ++ [step])) ⟨ended.2, (s.perform fuel step).machine⟩ := by
  have hearlier : ∀ r, Strays earlier r → Strays (earlier ++ [step]) r :=
    fun r hr => hr.mono (by simp)
  have hbefore := (chronicled_fresh natives limit clock).chronicleFrom fuel hearlier
  exact hbefore.perform fuel fun r hr => hr.mono (by simp)

/-! ## Classes -/

/-- The value is there at some point of the session, up to the end of a step. -/
def Seen (tape : Tape) (outcome : Outcome (Option Value)) (v : Value) : Prop :=
  (∃ entry ∈ tape, entry.Shows v) ∨ outcome.machine.Holds v

/--
The class is what one class statement has made it, after its superclass: with the name and the
methods of the statement, of which the later counts if two have the same name.
-/
def Tape.Accounts (tape : Tape) (c : ClassObject) : Prop :=
  ∃ later earlier before name superclass methods scope,
    tape = later ++ .declared before name superclass methods scope c :: earlier ∧
      c.name = name.lexeme ∧ Inherits before superclass c.parent? ∧
      (∀ parent ∈ c.parent?, parent.id < c.id ∧ ∃ own, Tape.Declares earlier parent own) ∧
      ∀ x, c.ownMethods.get? x =
        (methods.reverse.find? fun f => f.name.lexeme = x).map fun f =>
          { declaration := f, scope, isInitializer := f.name.lexeme == utf8 "init" }

section

variable {tape : Tape} {outcome : Outcome (Option Value)}

theorem World.Sound.lists_of_seen (h : World.Sound stray ⟨tape, outcome.machine⟩) {v : Value}
    (hv : Seen tape outcome v) : tape.Lists v := by
  rcases hv with ⟨entry, hentry, hshows⟩ | hheld
  · obtain ⟨later, earlier, -, hsubset, hright⟩ := h.faithful.right hentry
    have hlists : earlier.Lists v := by
      cases entry with
      | state m => exact hright.1 v hshows
      | given u =>
          cases hshows
          exact hright
      | _ => cases hshows
    exact hlists.mono hsubset
  · exact (h.held v hheld).lists

theorem Tape.Lists.of_mem_classes {v : Value} (h : tape.Lists v) {c : ClassObject}
    (hc : c ∈ v.classes) : tape.Lists (.classObject c) := by
  cases v with
  | classObject own => exact fun a ha => h a (ClassObject.mem_lineage_trans ha hc)
  | object id own => exact fun a ha => h.2 a (ClassObject.mem_lineage_trans ha hc)
  | _ => cases hc

theorem Tape.Faithful.accounts (h : tape.Faithful stray) {c : ClassObject}
    {methods : List FunctionDecl} (hc : tape.Declares c methods) : tape.Accounts c := by
  obtain ⟨before, name, superclass, scope, hmem⟩ := hc
  obtain ⟨later, earlier, hsplit, -, hname, hown, hinherits, hparent, hbelow⟩ := h.right hmem
  refine ⟨later, earlier, before, name, superclass, methods, scope, hsplit, hname, hinherits,
    fun parent hmem => ?_, fun x => by rw [hown, Machine.get?_methodsIn]⟩
  obtain ⟨own, howner⟩ := hparent parent hmem parent (ClassObject.mem_lineage_self parent)
  refine ⟨?_, own, howner⟩
  obtain ⟨before, name, superclass, scope, hdeclared⟩ := howner
  exact hbelow _ hdeclared parent.id rfl

theorem Tape.Faithful.class_unique (h : tape.Faithful stray) {c c' : ClassObject}
    (hc : tape.Lists (.classObject c)) (hc' : tape.Lists (.classObject c')) (hid : c.id = c'.id) :
    c = c' := by
  obtain ⟨_, _, _, _, _, hmem⟩ := hc c (ClassObject.mem_lineage_self c)
  obtain ⟨_, _, _, _, _, hmem'⟩ := hc' c' (ClassObject.mem_lineage_self c')
  have hnumber := congrArg (fun n => some (Kind.other, n)) hid.symm
  cases h.eq_of_number? hmem hmem' rfl hnumber
  rfl

theorem Tape.Faithful.keeps (h : tape.Faithful stray) :
    tape.Pairwise fun after before => ∀ m m', before = .state m → after = .state m' →
      m.scopes.Keeps m'.scopes := by
  induction tape with
  | nil => exact .nil
  | cons entry rest ih =>
      refine List.pairwise_cons.mpr ⟨fun before hbefore m m' hm hm' => ?_, ih h.2⟩
      subst hm hm'
      exact h.1.2 m hbefore

end

/--
Whatever was executed before and however much fuel there is (every session has the fuel
`ample`), take all values that a session has had up to the end of a step, also in the middle of
steps and after faults.  Their classes come from class statements, each after its superclass and
with a greater number, so that the ancestors of a class are older link by link.  A method is
that of the nearest class which declares it.  Two values with one number have the same class,
ancestors, methods and code, at whatever points they are seen; and a scope that binds `this` or
`super`, as those around bound methods do, binds it to the same value ever after.
-/
theorem classes_acyclic_and_frozen (natives : List Native) (limit : Nat) (clock : List Int)
    (fuel : Nat) (earlier : List Step) (step : Step) :
    let start := Session.fresh natives limit clock
    let s := start.afterWith fuel earlier
    let (outcome, tape) := perform fuel s step (chronicle fuel start earlier)
    (fuel = Machine.ample → s = start.after earlier ∧ (s.answer step).2 = s.next fuel step) ∧
      outcome = s.perform fuel step ∧
      (∀ v, Seen tape outcome v → ∀ c ∈ v.classes,
        tape.Accounts c ∧ c.lineage.Pairwise (fun a b => b.id < a.id) ∧
        ∀ x, c.method? x = (c.lineage.find? fun a => a.ownMethods.has x).bind
          fun a => a.ownMethods.get? x) ∧
      (∀ v v', Seen tape outcome v → Seen tape outcome v' →
        (∀ c ∈ v.classes, ∀ c' ∈ v'.classes, c.id = c'.id → c = c') ∧
        (∀ id c c', v = .object id c → v' = .object id c' → c = c') ∧
        ∀ id code code', v = .function id code → v' = .function id code' → code = code') ∧
      tape.Pairwise fun after before => ∀ m m', before = .state m → after = .state m' →
        m.scopes.Keeps m'.scopes := by
  obtain ⟨hrun, hsound⟩ := perform_sound natives limit clock fuel earlier step
  have hlists {v : Value} (hv : Seen _ _ v) := World.Sound.lists_of_seen (hrun ▸ hsound) hv
  refine ⟨?_, hrun, ?_, ?_, ?_⟩
  · rintro rfl
    exact ⟨(Session.after_eq_afterWith _ earlier).symm, (Session.answer_eq_perform _ step).1⟩
  · intro v hv c hc
    have hclass := (hlists hv).of_mem_classes hc
    obtain ⟨methods, hdeclared⟩ := hclass c (ClassObject.mem_lineage_self c)
    exact ⟨hsound.faithful.accounts hdeclared, hsound.faithful.lineage_older c hclass,
      fun x => c.method?_eq x⟩
  · intro v v' hv hv'
    refine ⟨fun c hc c' hc' hid => ?_, ?_, ?_⟩
    · exact hsound.faithful.class_unique ((hlists hv).of_mem_classes hc)
        ((hlists hv').of_mem_classes hc') hid
    · rintro id c c' rfl rfl
      cases hsound.faithful.eq_of_number? (hlists hv).1 (hlists hv').1 rfl rfl
      rfl
    · rintro id code code' rfl rfl
      obtain ⟨home, hmade⟩ := hlists hv
      obtain ⟨home', hmade'⟩ := hlists hv'
      cases hsound.faithful.eq_of_number? hmade hmade' rfl rfl
      rfl
  · exact hsound.faithful.keeps

-- A class under the name of the oldest ancestor of its superclass is a third class.
example :
    let s := Session.fresh Machine.standardNatives 0 []
    let step := Step.run (utf8
      "class A \x7b f() \x7b\x7d \x7d class B < A \x7b\x7d class A < B \x7b\x7d")
    ((perform 100 s step [.state s.machine]).2.filterMap fun
      | .declared _ _ _ _ _ c => some (c.lineage.map ClassObject.id)
      | _ => none) = [[2, 1, 0], [1, 0], [0]] := by
  decide +kernel

/-! ## Methods -/

/--
The use stands in a method of the home, not in one of a class inside it, and the class of the
home comes from a class statement that begins in `begun` and declares the method.
-/
def Tape.Places (tape : Tape) (h : Home) (r : Reference) (begun : Machine)
    (superclass : Option Reference) : Prop :=
  r ∈ h.method.selves ∧
    (∃ id c, h.receiver = .object id c ∧ Entry.created id c ∈ tape ∧ h.owner ∈ c.lineage) ∧
    ∃ name methods scope,
      Entry.declared begun name superclass methods scope h.owner ∈ tape ∧ h.method ∈ methods

theorem Tape.Backs.places {tape : Tape} {h : Home} {r : Reference} (hbacks : tape.Backs h)
    (hr : r ∈ h.method.selves) : ∃ begun superclass, tape.Places h r begun superclass := by
  obtain ⟨id, c, hreceiver, hcreated, howner, methods, hdeclares, hmethod⟩ := hbacks
  obtain ⟨begun, name, superclass, scope, hdeclared⟩ := hdeclares
  exact ⟨begun, superclass, hr, ⟨id, c, hreceiver, hcreated, howner⟩, name, methods, scope,
    hdeclared, hmethod⟩

theorem Tape.Places.inherits {tape : Tape} (htape : tape.Faithful stray) {h : Home}
    {r : Reference} {begun : Machine} {superclass : Option Reference} {parent : ClassObject}
    (hplaces : tape.Places h r begun superclass) (hparent : h.owner.parent? = some parent) :
    ∃ b, superclass = some b ∧ Machine.read b begun = .done (.classObject parent) begun := by
  obtain ⟨-, -, name, methods, scope, hdeclared, -⟩ := hplaces
  obtain ⟨later, earlier, -, -, -, -, hinherits, -⟩ := htape.right hdeclared
  rw [hparent] at hinherits
  cases superclass with
  | none => cases hinherits
  | some b =>
      obtain ⟨c, hc, hread⟩ := hinherits
      cases hc
      exact ⟨b, rfl, hread⟩

/--
Whatever was executed before, and at any point up to the end of a step: a function runs, whenever
it is called, at the home that it was made with.  A use of `this` in the code of a method, or of
a function inside it, gives the object that the method was bound to.  A use of `super` in a
method of a class `D < B` gives the method that is found from the class on which `B` stood for
when the statement of `D` began, bound to that same object.  A use that has no method around it
stands in an expression that is evaluated by itself, never in a checked source.
-/
theorem this_bound_and_super_static (natives : List Native) (limit : Nat) (clock : List Int)
    (fuel : Nat) (earlier : List Step) (step : Step) :
    let start := Session.fresh natives limit clock
    let s := start.afterWith fuel earlier
    let (outcome, tape) := perform fuel s step (chronicle fuel start earlier)
    (fuel = Machine.ample → s = start.after earlier ∧ (s.answer step).2 = s.next fuel step) ∧
      outcome = s.perform fuel step ∧
      (∀ id code home, Entry.made id code home ∈ tape → tape.homeOf id = home) ∧
      (∀ home r before answer, Entry.thisUsed home r before answer ∈ tape →
        (home = none ∧ Strays (earlier ++ [step]) r) ∨
          ∃ h begun superclass, home = some h ∧ tape.Places h r begun superclass ∧
            answer = .done h.receiver before) ∧
      ∀ home r method before answer, Entry.superUsed home r method before answer ∈ tape →
        (home = none ∧ Strays (earlier ++ [step]) r) ∨
          ∃ h begun b parent, home = some h ∧ tape.Places h r begun (some b) ∧
            Machine.read b begun = .done (.classObject parent) begun ∧
            answer = Machine.methodFrom parent h.receiver method before := by
  obtain ⟨hrun, hsound⟩ := perform_sound natives limit clock fuel earlier step
  have hfaithful := hsound.faithful
  refine ⟨?_, hrun, fun id code home hmade => hfaithful.homeOf_eq hmade, ?_, ?_⟩
  · rintro rfl
    exact ⟨(Session.after_eq_afterWith _ earlier).symm, (Session.answer_eq_perform _ step).1⟩
  · intro home r before answer hused
    obtain ⟨later, rest, -, hsubset, hright⟩ := hfaithful.right hused
    cases home with
    | none => exact .inl ⟨rfl, hright⟩
    | some h =>
        obtain ⟨hbacks, hr, hanswer⟩ := hright
        obtain ⟨begun, superclass, hplaces⟩ := (hbacks.mono hsubset).places hr
        exact .inr ⟨h, begun, superclass, rfl, hplaces, hanswer⟩
  · intro home r method before answer hused
    obtain ⟨later, rest, -, hsubset, hright⟩ := hfaithful.right hused
    cases home with
    | none => exact .inl ⟨rfl, hright⟩
    | some h =>
        obtain ⟨hbacks, hr, parent, hparent, hanswer⟩ := hright
        obtain ⟨begun, superclass, hplaces⟩ := (hbacks.mono hsubset).places hr
        obtain ⟨b, rfl, hread⟩ := hplaces.inherits hfaithful hparent
        exact .inr ⟨h, begun, b, parent, rfl, hplaces, hread, hanswer⟩

-- A method that calls the one it overrides, and a function inside it that is called after the
-- name of its superclass has got another value.
example :
    let s := Session.fresh Machine.standardNatives 0 []
    let step := Step.run (utf8
      "class A \x7b f() \x7b return this; \x7d \x7d
       class B < A \x7b f() \x7b fun g() \x7b return super.f(); \x7d return g; \x7d \x7d
       var g = B().f(); A = nil; g();")
    ((perform 100 s step [.state s.machine]).2.filterMap fun
      | .thisUsed home _ _ _ | .superUsed home _ _ _ _ =>
          home.map fun h => (h.owner.name, h.method.name.lexeme)
      | _ => none) = [(utf8 "A", utf8 "f"), (utf8 "B", utf8 "f")] := by
  decide +kernel

end Lox.Objects
