import Lox.Proofs.Objects.Known

/-!
Runs that keep their chronicle faithful.

The judgement `Meets` says of a run with its chronicle, started in some world, that it does what
the run of the machine does, that it leads to a sound world in the same scope, and what holds of
its value there.  There is one rule for each way of putting runs together, and one for each
change of the machine.
-/

namespace Lox.Objects

open Recorded (Note Recorder)
open Run (Looks Steady)

/-- The same end with and without a chronicle: with a value as `Q` says, or with a fault. -/
inductive Ends (stray : Reference → Prop) (w : World) (Q : World → α → Prop) :
    Outcome α × Tape → Outcome α → Prop
  | done {v : α} {m : Machine} {tape : Tape} (hleads : w.Leads ⟨tape, m⟩)
      (hsound : World.Sound stray ⟨tape, m⟩) (hv : Q ⟨tape, m⟩ v) :
      Ends stray w Q (.done v m, tape) (.done v m)
  | fault {cause : Fault} {m : Machine} {tape : Tape} (hleads : w.Leads ⟨tape, m⟩)
      (hsound : World.Sound stray ⟨tape, m⟩) :
      Ends stray w Q (.fault cause m, tape) (.fault cause m)

def Meets (stray : Reference → Prop) (w : World) (t : Told α) (p : Run α)
    (Q : World → α → Prop) : Prop :=
  w.Sound stray → Ends stray w Q (t w) (p w.machine)

def Lasts (Q : World → α → Prop) : Prop := ∀ w w' v, w.Grows w' → Q w v → Q w' v

structure Changes (stray : Reference → Prop) (w : World) (m : Machine) : Prop where
  scopes : w.machine.scopes.Keeps m.scopes
  held : ∀ v, m.Holds v → Known stray w v
  next : ∀ kind : Kind, kind.next w.machine ≤ kind.next m

/-! ## Worlds -/

section

variable {stray : Reference → Prop} {w : World}

def World.tell (w : World) (entry : Entry) : World := { w with tape := entry :: w.tape }

theorem World.leads_tell (w : World) (entry : Entry) : w.Leads (w.tell entry) :=
  ⟨⟨List.subset_cons_self _ _, .refl _⟩, rfl⟩

theorem World.Sound.tell (h : w.Sound stray) {entry : Entry} (hright : entry.Right stray w.tape)
    (hnumber : ∀ (kind : Kind) (i : Nat), entry.number? = some (kind, i) →
      i < kind.next w.machine)
    (hstate : ∀ m, entry ≠ .state m) : (w.tell entry).Sound stray where
  faithful := ⟨hright, h.faithful⟩
  held v hv := (h.held v hv).mono (w.leads_tell entry).toGrows
  below kind := (h.below kind).cons (hnumber kind)
  kept m hm := h.kept m ((List.mem_cons.mp hm).resolve_left (hstate m).symm)

def World.moved (w : World) (m : Machine) : World := ⟨.state m :: w.tape, m⟩

theorem Changes.grows {m : Machine} (h : Changes stray w m) : w.Grows (w.moved m) :=
  ⟨List.subset_cons_self _ _, h.scopes⟩

theorem Changes.sound {m : Machine} (h : Changes stray w m) (hw : w.Sound stray) :
    (w.moved m).Sound stray where
  faithful := by
    refine ⟨⟨fun v hv => (h.held v hv).lists, fun m₀ hm₀ => ?_⟩, hw.faithful⟩
    exact (hw.kept m₀ hm₀).trans h.scopes
  held v hv := (h.held v hv).mono h.grows
  below kind := ((hw.below kind).le (h.next kind)).cons nofun
  kept m₀ hm₀ := by
    rcases List.mem_cons.mp hm₀ with heq | hm₀
    · cases heq
      exact .refl _
    · exact (hw.kept m₀ hm₀).trans h.scopes

theorem Changes.of_alike {m : Machine} (hw : w.Sound stray) (hsame : w.machine.Alike m)
    (hfresh : w.machine.fresh ≤ m.fresh) : Changes stray w m where
  scopes := hsame.scopes ▸ .refl _
  held v hv := by
    refine hw.held v ?_
    unfold Machine.Holds at hv
    rw [hsame.scopes, hsame.fields] at hv
    exact hv
  next kind := by
    cases kind with
    | object => exact Nat.le_of_eq (congrArg Array.size hsame.fields.symm)
    | other => exact hfresh

theorem Changes.define (hw : w.Sound stray) (i : Nat) {name : Token} (hname : name.Nameable)
    {v : Value} (hv : Known stray w v) :
    Changes stray w
      { w.machine with scopes := w.machine.scopes.define i name.lexeme v } where
  scopes := .define _ i hname v
  held u hu := by
    rcases Machine.holds_define hu with rfl | hu
    · exact hv
    · exact hw.held u hu
  next kind := by cases kind <;> exact Nat.le_refl _

theorem Changes.newScope (hw : w.Sound stray) (parent : Nat) {bindings : Bindings Value}
    (hb : bindings.All (Known stray w)) :
    Changes stray w
      { w.machine with
        scopes := w.machine.scopes.push { parent := some parent, bindings } } where
  scopes := .push _ _
  held u hu := by
    rcases Machine.holds_newScope hu with ⟨x, hget⟩ | hu
    · exact hb x u hget
    · exact hw.held u hu
  next kind := by cases kind <;> exact Nat.le_refl _

theorem Changes.newObject (hw : w.Sound stray) :
    Changes stray w { w.machine with fields := w.machine.fields.push [] } where
  scopes := .refl _
  held u hu := hw.held u (Machine.holds_newObject hu)
  next kind := by
    cases kind with
    | object => simp [Kind.next]
    | other => exact Nat.le_refl _

theorem Changes.setField (hw : w.Sound stray) (i : Nat) (name : Bytes) {v : Value}
    (hv : Known stray w v) :
    Changes stray w
      { w.machine with
        fields := w.machine.fields.modify i fun bindings => bindings.set name v } where
  scopes := .refl _
  held u hu := by
    rcases Machine.holds_setField hu with rfl | hu
    · exact hv
    · exact hw.held u hu
  next kind := by
    cases kind with
    | object => simp [Kind.next]
    | other => exact Nat.le_refl _

end

theorem Ends.earlier {stray : Reference → Prop} {w w' : World} {Q : World → α → Prop}
    {ended : Outcome α × Tape} {out : Outcome α} (hw : w.Leads w')
    (h : Ends stray w' Q ended out) : Ends stray w Q ended out := by
  cases h with
  | done hleads hsound hv => exact .done (hw.trans hleads) hsound hv
  | fault hleads hsound => exact .fault (hw.trans hleads) hsound

namespace Meets

variable {stray : Reference → Prop} {w : World} {α β : Type} {t : Told α} {p : Run α}
variable {Q : World → α → Prop} {R : World → β → Prop}

/-! ## Putting runs together -/

theorem imp {Q' : World → α → Prop} (h : Meets stray w t p Q) (hQ : ∀ w v, Q w v → Q' w v) :
    Meets stray w t p Q' := by
  intro hw
  have hends := h hw
  generalize t w = ended at hends ⊢
  generalize p w.machine = out at hends ⊢
  cases hends with
  | done hleads hsound hv => exact .done hleads hsound (hQ _ _ hv)
  | fault hleads hsound => exact .fault hleads hsound

theorem pure {v : α} (hv : Q w v) : Meets stray w (Pure.pure v) (Pure.pure v) Q :=
  fun hw => .done (.refl w) hw hv

theorem look (hlooks : Looks p)
    (hQ : w.Sound stray → ∀ v, p w.machine = .done v w.machine → Q w v) :
    Meets stray w (Told.look p) p Q := by
  intro hw
  have hmachine := hlooks w.machine
  unfold Told.look
  cases hp : p w.machine with
  | done v m =>
      obtain rfl : m = w.machine := by rwa [hp] at hmachine
      exact .done (.refl w) hw (hQ hw v hp)
  | fault cause m =>
      obtain rfl : m = w.machine := by rwa [hp] at hmachine
      exact .fault (.refl w) hw

theorem currentScope : Meets stray w (Told.look Machine.currentScope) Machine.currentScope
    fun w' i => w' = w ∧ i = w.machine.current := by
  refine look (fun _ => rfl) fun _ i hi => ?_
  cases hi
  exact ⟨rfl, rfl⟩

theorem isFull : Meets stray w (Told.look Machine.isFull) Machine.isFull fun w' _ => w' = w :=
  look (fun _ => rfl) fun _ _ _ => rfl

theorem read (r : Reference) : Meets stray w (Told.look (Machine.read r)) (Machine.read r)
    fun w' v => w' = w ∧ Known stray w v ∧ Machine.read r w.machine = .done v w.machine :=
  look (Machine.read_looks r) fun hw _ hv => ⟨rfl, hw.value_of_read hv, hv⟩

theorem bindingAt (i hops : Nat) (x : Bytes) :
    Meets stray w (Told.look (Machine.bindingAt i hops x)) (Machine.bindingAt i hops x)
      (Known stray) :=
  look (Machine.bindingAt_looks i hops x) fun hw _ hv => hw.value_of_bindingAt hv

theorem asking {t : Machine → Told α} (h : Meets stray w (t w.machine) p Q) :
    Meets stray w (Told.asking t) p Q := h

theorem stop (cause : Fault) : Meets stray w (Told.look (Machine.stop cause : Run α))
    (Machine.stop cause) Q :=
  fun hw => .fault (.refl w) hw

theorem raise (cause : Cause) (token : Token) :
    Meets stray w (Told.look (Machine.raise cause token : Run α)) (Machine.raise cause token) Q :=
  stop _

theorem bind {rest : α → Told β} {f : α → Run β} (h : Meets stray w t p Q)
    (hrest : ∀ w' v, w.Leads w' → Q w' v → Meets stray w' (rest v) (f v) R) :
    Meets stray w (t >>= rest) (p >>= f) R := by
  intro hw
  have hends := h hw
  change Ends stray w R (Told.bind t rest w) (Run.bind p f w.machine)
  unfold Told.bind Run.bind
  generalize t w = ended at hends
  generalize p w.machine = out at hends
  cases hends with
  | done hleads hsound hv => exact (hrest _ _ hleads hv hsound).earlier hleads
  | fault hleads hsound => exact .fault hleads hsound

theorem ite {c : Prop} [Decidable c] {t' : Told α} {p' : Run α}
    (hthen : c → Meets stray w t p Q) (helse : ¬c → Meets stray w t' p' Q) :
    Meets stray w (if c then t else t') (if c then p else p') Q := by
  split
  · exact hthen ‹_›
  · exact helse ‹_›

/-! ## Telling -/

theorem note {note : Note} {entry : Entry} (hentry : Entry.of? note = some entry)
    (hright : w.Sound stray → entry.Right stray w.tape)
    (hnumber : ∀ (kind : Kind) (i : Nat), entry.number? = some (kind, i) →
      i < kind.next w.machine)
    (hstate : ∀ m, entry ≠ .state m) (h : Meets stray (w.tell entry) t p Q) :
    Meets stray w (Recorder.note note t) p Q := by
  intro hw
  change Ends stray w Q (Told.note note t w) (p w.machine)
  unfold Told.note
  rw [hentry]
  exact (h (hw.tell (hright hw) hnumber hstate)).earlier (w.leads_tell entry)

theorem unnoted (note : Note) (hentry : Entry.of? note = none) (h : Meets stray w t p Q) :
    Meets stray w (Recorder.note note t) p Q := by
  intro hw
  change Ends stray w Q (Told.note note t w) (p w.machine)
  unfold Told.note
  rw [hentry]
  exact h hw

theorem withHome {t : Option Home → Told α} {id : Nat} {code : Closure} {home : Option Home}
    (hmem : Entry.made id code home ∈ w.tape) (h : Meets stray w (t home) p Q) :
    Meets stray w (Told.withHome id t) p Q := by
  intro hw
  unfold Told.withHome
  rw [hw.faithful.homeOf_eq hmem]
  exact h hw

theorem telling {entry : Machine → Outcome α → Entry} (h : Meets stray w t p Q)
    (hlasts : Lasts Q)
    (hright : w.Sound stray → ∀ w', w.Grows w' →
      (entry w.machine (p w.machine)).Right stray w'.tape)
    (hnumber : ∀ m out, (entry m out).number? = none)
    (hstate : ∀ m out m', entry m out ≠ .state m') :
    Meets stray w (Told.telling entry t) p Q := by
  intro hw
  have hends := h hw
  have hright := hright hw
  unfold Told.telling
  generalize t w = ended at hends
  generalize p w.machine = out at hends hright
  cases hends with
  | @done v m tape hleads hsound hv =>
      have htold := World.leads_tell ⟨tape, m⟩ (entry w.machine (.done v m))
      have hsound' := hsound.tell (hright _ hleads.toGrows) (by simp [hnumber]) (hstate _ _)
      exact .done (hleads.trans htold) hsound' (hlasts _ _ _ htold.toGrows hv)
  | @fault cause m tape hleads hsound =>
      have htold := World.leads_tell ⟨tape, m⟩ (entry w.machine (.fault cause m))
      have hsound' := hsound.tell (hright _ hleads.toGrows) (by simp [hnumber]) (hstate _ _)
      exact .fault (hleads.trans htold) hsound'

theorem giving {t : Told Value} {p : Run Value} (h : Meets stray w t p (Known stray)) :
    Meets stray w (Told.giving t) p (Known stray) := by
  have hp : (p >>= fun v => Pure.pure v) = p := by
    funext m
    cases hm : p m with
    | done v m' =>
        rw [Run.bind_of_done hm]
        rfl
    | fault cause m' => rw [Run.bind_of_fault hm]
  rw [← hp]
  refine h.bind fun w' v _ hv hw' => ?_
  have htold := w'.leads_tell (.given v)
  exact .done htold (hw'.tell hv.lists nofun nofun) (hv.mono htold.toGrows)

/-! ## Changes -/

theorem move (hsteady : Steady p) (hp : w.Sound stray → Changes stray w (p w.machine).machine)
    (hQ : w.Sound stray → ∀ v m, p w.machine = .done v m → Q (w.moved m) v) :
    Meets stray w (Told.move p) p Q := by
  intro hw
  have hchanges := hp hw
  have hcurrent := (hsteady.onward w.machine).current
  have hQ := hQ hw
  unfold Told.move
  generalize p w.machine = out at hchanges hcurrent hQ
  cases out with
  | done v m => exact .done ⟨hchanges.grows, hcurrent⟩ (hchanges.sound hw) (hQ v m rfl)
  | fault cause m => exact .fault ⟨hchanges.grows, hcurrent⟩ (hchanges.sound hw)

theorem define {name : Token} (hname : name.Nameable) {v : Value} (hv : Known stray w v) :
    Meets stray w (Told.move (Machine.define name.lexeme v)) (Machine.define name.lexeme v)
      fun _ _ => True :=
  move (.define _ _) (fun hw => .define hw _ hname hv) fun _ _ _ _ => trivial

theorem assign {name : Token} (hname : name.Nameable) {v : Value} (hv : Known stray w v) :
    Meets stray w (Told.move (Machine.assign name.lexeme v)) (Machine.assign name.lexeme v)
      fun _ _ => True := by
  refine move (.assign _ _) (fun hw => ?_) fun _ _ _ _ => trivial
  unfold Machine.assign
  split
  · exact .define hw _ hname hv
  · exact .of_alike hw ⟨rfl, rfl⟩ (Nat.le_refl _)

theorem write {r : Reference} (hname : r.name.Nameable) {v : Value} (hv : Known stray w v) :
    Meets stray w (Told.move (Machine.write r v)) (Machine.write r v) fun _ _ => True := by
  refine move (.write r v) (fun hw => ?_) fun _ _ _ _ => trivial
  have hsame : Changes stray w w.machine := .of_alike hw ⟨rfl, rfl⟩ (Nat.le_refl _)
  unfold Machine.write
  split
  · split
    · exact .define hw _ hname hv
    · exact hsame
  · split
    · exact .define hw _ hname hv
    · exact hsame

theorem newScope (parent : Nat) {bindings : Bindings Value}
    (hb : bindings.All (Known stray w)) :
    Meets stray w (Told.move (Machine.newScope parent bindings))
      (Machine.newScope parent bindings)
      fun w' k => w'.machine.scopes[k]? = some { parent := some parent, bindings } := by
  refine move (.newScope _ _) (fun hw => .newScope hw parent hb) fun _ k m hk => ?_
  cases hk
  exact Array.getElem?_push_size

theorem newIdentity : Meets stray w (Told.move Machine.newIdentity) Machine.newIdentity
    fun w' id => w'.tape.Below .other id ∧ id < w'.machine.fresh := by
  refine move .newIdentity (fun hw => .of_alike hw ⟨rfl, rfl⟩ (Nat.le_succ _))
    fun hw id m hid => ?_
  cases hid
  exact ⟨(hw.below .other).cons nofun, Nat.lt_succ_self _⟩

theorem setField (id : Nat) (name : Bytes) {v : Value} (hv : Known stray w v) :
    Meets stray w (Told.move (Machine.setField id name v)) (Machine.setField id name v)
      fun _ _ => True :=
  move (.setField _ _ _) (fun hw => .setField hw id name hv) fun _ _ _ _ => trivial

theorem printLine (line : Bytes) :
    Meets stray w (Told.move (Machine.printLine line)) (Machine.printLine line)
      fun _ _ => True :=
  move (.printLine _) (fun hw => .of_alike hw ⟨rfl, rfl⟩ (Nat.le_refl _))
    fun _ _ _ _ => trivial

/-! ## Runs in another scope or at another depth -/

theorem between {enter : Machine → Machine} {leave : Machine → Machine → Machine}
    (henter : ∀ m, m.Alike (enter m) ∧ (enter m).fresh = m.fresh)
    (hleave : ∀ m m', m'.Alike (leave m m') ∧ (leave m m').fresh = m'.fresh)
    (hcurrent : ∀ m m', m'.current = (enter m).current → (leave m m').current = m.current)
    (hlasts : Lasts Q)
    (h : Meets stray (w.moved (enter w.machine)) t p Q) :
    Meets stray w (Told.between enter leave t)
      (fun m => (p (enter m)).onMachine (leave m)) Q := by
  intro hw
  have hin : Changes stray w (enter w.machine) :=
    .of_alike hw (henter _).1 (Nat.le_of_eq (henter _).2.symm)
  have hends := h (hin.sound hw)
  dsimp only [Told.between]
  dsimp only [World.moved] at hends
  generalize t _ = ended at hends
  generalize p _ = out at hends
  have hout {tape : Tape} {m : Machine}
      (hleads : (w.moved (enter w.machine)).Leads ⟨tape, m⟩)
      (hsound : World.Sound stray ⟨tape, m⟩) :
      w.Leads (World.moved ⟨tape, m⟩ (leave w.machine m)) ∧
        World.Grows ⟨tape, m⟩ (World.moved ⟨tape, m⟩ (leave w.machine m)) ∧
        (World.moved ⟨tape, m⟩ (leave w.machine m)).Sound stray := by
    have hchanges : Changes stray ⟨tape, m⟩ (leave w.machine m) :=
      .of_alike hsound (hleave _ _).1 (Nat.le_of_eq (hleave _ _).2.symm)
    exact ⟨⟨hin.grows.trans (hleads.toGrows.trans hchanges.grows), hcurrent _ _ hleads.current⟩,
      hchanges.grows, hchanges.sound hsound⟩
  cases hends with
  | done hleads hsound hv =>
      obtain ⟨hleads', hgrows', hsound'⟩ := hout hleads hsound
      exact .done hleads' hsound' (hlasts _ _ _ hgrows' hv)
  | fault hleads hsound =>
      obtain ⟨hleads', -, hsound'⟩ := hout hleads hsound
      exact .fault hleads' hsound'

theorem inScope {k : Nat} (hlasts : Lasts Q)
    (h : Meets stray (w.moved { w.machine with current := k }) t p Q) :
    Meets stray w (Told.inScope k t) (Machine.inScope k p) Q := by
  have hp : Machine.inScope k p = fun m =>
      (p { m with current := k }).onMachine fun m' => { m' with current := m.current } := by
    funext m
    unfold Machine.inScope
    cases p { m with current := k } <;> rfl
  rw [hp]
  exact between (fun _ => ⟨⟨rfl, rfl⟩, rfl⟩) (fun _ _ => ⟨⟨rfl, rfl⟩, rfl⟩) (fun _ _ _ => rfl)
    hlasts h

theorem deeper (hlasts : Lasts Q)
    (h : Meets stray (w.moved { w.machine with depth := w.machine.depth + 1 }) t p Q) :
    Meets stray w (Told.deeper t) (Machine.deeper p) Q := by
  have hp : Machine.deeper p = fun m => (p { m with depth := m.depth + 1 }).onMachine
      fun m' => { m' with depth := m'.depth - 1 } := by
    funext m
    unfold Machine.deeper
    cases p { m with depth := m.depth + 1 } <;> rfl
  rw [hp]
  exact between (fun _ => ⟨⟨rfl, rfl⟩, rfl⟩) (fun _ _ => ⟨⟨rfl, rfl⟩, rfl⟩) (fun _ _ h => h)
    hlasts h

end Meets

end Lox.Objects
