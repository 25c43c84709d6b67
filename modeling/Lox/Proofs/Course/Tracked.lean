import Lox.Proofs.Course.Moves
import Lox.Proofs.Course.Rooted
import Lox.Proofs.Safety.Running

/-!
What holds of every move of a run.

At every point on the way the scopes form a tree under the global one, which binds no other
names than it may.  A move changes the scopes at one place at most; it binds a new global
name only for a declaration of that name, and never for an assignment.
-/

namespace Lox

abbrev Token.Any : Token → Prop := fun _ => True

/-- The scopes are a tree, and global names are among those that may be. -/
structure Machine.Orderly (N : Bytes → Prop) (m : Machine) : Prop where
  sound : m.Sound Token.Any
  rooted : m.scopes.Rooted
  globals : ∀ x ∈ m.globals, N x

structure Machine.Alike (m m' : Machine) : Prop where
  scopes : m'.scopes = m.scopes
  fields : m'.fields = m.fields

namespace Machine

variable {N : Bytes → Prop} {m m' : Machine}

theorem globals_congr (h : m'.scopes = m.scopes) : m'.globals = m.globals :=
  congrArg (Scopes.names · globalScope) h

theorem Orderly.mono {N' : Bytes → Prop} (h : m.Orderly N) (hN : ∀ x, N x → N' x) :
    m.Orderly N' :=
  ⟨h.sound, h.rooted, fun x hx => hN x (h.globals x hx)⟩

theorem Orderly.alike (h : m.Orderly N) (hsame : m.Alike m') : m'.Orderly N := by
  obtain ⟨hsound, hrooted, hglobals⟩ := h
  refine ⟨⟨?_, ?_⟩, ?_, ?_⟩
  · rw [hsame.scopes]
    exact hsound.scopes
  · rw [hsame.scopes, hsame.fields]
    exact hsound.fields
  · rw [hsame.scopes]
    exact hrooted
  · rw [globals_congr hsame.scopes]
    exact hglobals

end Machine

namespace Course

open Machine (Alike Orderly)
open Recorded (Act Traced)

/-! ## Courses -/

section

variable {m m₁ m₂ : Machine} {moves rest : List Move}

theorem Leads.append (h : Leads m moves m₁) (h' : Leads m₁ rest m₂) :
    Leads m (moves ++ rest) m₂ := by
  induction moves generalizing m with
  | nil =>
      cases h
      exact h'
  | cons move moves ih => exact ⟨h.1, ih h.2⟩

/-- What holds of the first machine and after every move holds of the last machine. -/
theorem Leads.last {P : Machine → Prop} (h : Leads m moves m₁) (hm : P m)
    (hmoves : ∀ move ∈ moves, P move.after) : P m₁ := by
  induction moves generalizing m with
  | nil =>
      cases h
      exact hm
  | cons move moves ih =>
      have hmove := hmoves move List.mem_cons_self
      exact ih h.2 hmove fun other hother => hmoves other (List.mem_cons_of_mem move hother)

end

/-! ## Moves -/

structure Move.Fair (N : Bytes → Prop) (move : Move) : Prop where
  orderly : move.after.Orderly N
  single : Scopes.Change move.before.scopes move.after.scopes
  declared : ∀ x ∈ move.after.globals, x ∈ move.before.globals ∨ move.act = .declares x
  assigned : ∀ target, move.act = .assigns target → move.after.globals = move.before.globals

/--
Started from an orderly machine, the traced run does what the run does, its moves lead to
where the run ends, and all of them are fair.
-/
def Tracked (N : Bytes → Prop) (m : Machine) (t : Traced Move α) (p : Run α) : Prop :=
  m.Orderly N →
    (t m).1 = p m ∧ Leads m (t m).2 (p m).machine ∧ ∀ move ∈ (t m).2, move.Fair N

section

variable {N : Bytes → Prop} {m m' : Machine} {act : Act}

namespace Move.Fair

theorem ofSameGlobals (horderly : m'.Orderly N) (hsingle : Scopes.Change m.scopes m'.scopes)
    (hglobals : m'.globals = m.globals) : Fair N ⟨act, m, m'⟩ where
  orderly := horderly
  single := hsingle
  declared _ hx := .inl (hglobals ▸ hx)
  assigned _ _ := hglobals

theorem alike (h : m.Orderly N) (hsame : m.Alike m') : Fair N ⟨act, m, m'⟩ := by
  refine ofSameGlobals (h.alike hsame) ?_ (Machine.globals_congr hsame.scopes)
  rw [hsame.scopes]
  exact .none

theorem defineIn {id : Nat} {name : Bytes} {v : Value} (h : m.Orderly N)
    (hv : v.Sound Token.Any m.scopes)
    (hnames : (m.scopes.define id name v).names Machine.globalScope = m.globals) :
    Fair N ⟨act, m, { m with scopes := m.scopes.define id name v }⟩ := by
  refine ofSameGlobals ⟨h.sound.define id name hv, h.rooted.define id name v, ?_⟩
    (.define id name v) hnames
  intro x hx
  exact h.globals x (hnames ▸ hx)

theorem declare {id : Nat} {name : Bytes} {v : Value} (h : m.Orderly N)
    (hv : v.Sound Token.Any m.scopes) (hname : N name) :
    Fair N ⟨.declares name, m, { m with scopes := m.scopes.define id name v }⟩ := by
  have hnames : ∀ x ∈ (m.scopes.define id name v).names Machine.globalScope,
      x ∈ m.globals ∨ x = name :=
    fun x hx => (Scopes.mem_names_define hx).imp_right And.right
  refine ⟨⟨h.sound.define id name hv, h.rooted.define id name v, ?_⟩, .define id name v, ?_, ?_⟩
  · intro x hx
    rcases hnames x hx with hx | rfl
    · exact h.globals x hx
    · exact hname
  · intro x hx
    rcases hnames x hx with hx | rfl
    · exact .inl hx
    · exact .inr rfl
  · intro target hact
    cases hact

end Move.Fair

/-! ## Runs -/

namespace Tracked

variable {α β : Type} {t : Traced Move α} {p : Run α} {k : Nat}

theorem look (h : (p m).machine = m) : Tracked N m (Traced.silent p) p :=
  fun _ => ⟨rfl, h, by simp [Traced.silent]⟩

theorem pure (v : α) : Tracked N m (Pure.pure v) (Pure.pure v) :=
  fun _ => ⟨rfl, rfl, by simp [Pure.pure, Traced.pure]⟩

theorem stop (cause : Fault) : Tracked N m (Traced.silent (Machine.stop cause : Run α))
    (Machine.stop cause) :=
  look rfl

theorem raise (cause : Cause) (token : Token) :
    Tracked N m (Traced.silent (Machine.raise cause token : Run α)) (Machine.raise cause token) :=
  look rfl

theorem move (h : m.Orderly N → Move.Fair N ⟨act, m, (p m).machine⟩) :
    Tracked N m (Traced.move act p) p := by
  intro hm
  refine ⟨rfl, ⟨rfl, rfl⟩, fun other hother => ?_⟩
  obtain rfl := List.mem_singleton.mp hother
  exact h hm

/-- What is known of a run without its moves says where the second part starts. -/
theorem bind {Q : Scopes → α → Prop} {rest : α → Traced Move β} {f : α → Run β}
    (ht : Tracked N m t p) (hp : Run.Safe Token.Any m p Q)
    (hf : ∀ v m₁, m.Later m₁ → Q m₁.scopes v → Tracked N m₁ (rest v) (f v)) :
    Tracked N m (t >>= rest) (p >>= f) := by
  intro hm
  obtain ⟨hrun, hleads, hfair⟩ := ht hm
  have hsafe := hp hm.sound
  have hfirst := hleads.last hm fun move hmove => (hfair move hmove).orderly
  cases hpm : p m with
  | fault cause m₁ =>
      rw [hpm] at hleads
      rw [Traced.bind_of_fault (hrun.trans hpm), Run.bind_of_fault hpm]
      exact ⟨rfl, hleads, hfair⟩
  | done v m₁ =>
      rw [hpm] at hleads hsafe hfirst
      obtain ⟨hrun', hleads', hfair'⟩ := hf v m₁ hsafe.2.1 hsafe.2.2 hfirst
      rw [Traced.bind_of_done (hrun.trans hpm), Run.bind_of_done hpm]
      refine ⟨hrun', hleads.append hleads', fun move hmove => ?_⟩
      rcases List.mem_append.mp hmove with hmove | hmove
      · exact hfair move hmove
      · exact hfair' move hmove

theorem ite {c : Prop} [Decidable c] {t' : Traced Move α} {p' : Run α}
    (hthen : c → Tracked N m t p) (helse : ¬c → Tracked N m t' p') :
    Tracked N m (if c then t else t') (if c then p else p') := by
  by_cases h : c
  · simpa [h] using hthen h
  · simpa [h] using helse h

theorem noting {note : Recorded.Note} (h : Tracked N m t p) :
    Tracked N m (Traced.noting note t) p := h

theorem asking {t : Machine → Traced Move α} (h : Tracked N m (t m) p) :
    Tracked N m (Traced.asking t) p := h

theorem framed {t' : Traced Move α} {p' : Run α} {inside : Machine} (h : Tracked N inside t p)
    (henter : m.Alike inside) (hleave : (p inside).machine.Alike (p' m).machine)
    (hrun : (t inside).1 = p inside → (t' m).1 = p' m)
    (hmoves : (t' m).2 = [⟨.other, m, inside⟩] ++ (t inside).2 ++
      [⟨.other, (t inside).1.machine, (t' m).1.machine⟩]) : Tracked N m t' p' := by
  intro hm
  obtain ⟨hinside, hleads, hfair⟩ := h (hm.alike henter)
  have hlast := hleads.last (hm.alike henter) fun move hmove => (hfair move hmove).orderly
  have hout := hrun hinside
  rw [hmoves, hout, hinside]
  refine ⟨rfl, ⟨rfl, hleads.append ⟨rfl, rfl⟩⟩, fun move hmove => ?_⟩
  rcases List.mem_cons.mp hmove with rfl | hmove
  · exact .alike hm henter
  · rcases List.mem_append.mp hmove with hmove | hmove
    · exact hfair move hmove
    · obtain rfl := List.mem_singleton.mp hmove
      exact .alike hlast hleave

theorem inScope {id : Nat} (h : Tracked N { m with current := id } t p) :
    Tracked N m (Traced.inScope id t) (Machine.inScope id p) := by
  refine h.framed ⟨rfl, rfl⟩ ?_ ?_ rfl
  · unfold Machine.inScope
    cases p { m with current := id } <;> exact ⟨rfl, rfl⟩
  · intro hrun
    simp only [Traced.inScope, Traced.run, Machine.inScope, hrun]

theorem activation {t : Traced Move Value} {p : Run Value} (callee : Value)
    (arguments : List Value) (h : Tracked N { m with depth := m.depth + 1 } t p) :
    Tracked N m (Traced.activation callee arguments t) (Machine.deeper p) := by
  refine h.framed ⟨rfl, rfl⟩ ?_ ?_ rfl
  · unfold Machine.deeper
    cases p { m with depth := m.depth + 1 } <;> exact ⟨rfl, rfl⟩
  · intro hrun
    simp only [Traced.activation, Traced.run, Machine.deeper, hrun]

/-! ### Names -/

theorem newScope {parent : Nat} {bindings : Bindings Value} (hk : m.scopes.Reaches parent k)
    (hb : bindings.All (Value.Sound Token.Any m.scopes)) :
    Tracked N m (Traced.move .other (Machine.newScope parent bindings))
      (Machine.newScope parent bindings) := by
  refine move fun hm => ?_
  have hsound := (Run.Safe.newScope hk hb hm.sound).1
  obtain ⟨_, hroot⟩ := hm.rooted.root
  have hpositive : 0 < m.scopes.size := (Array.getElem?_eq_some_iff.mp hroot).1
  have hnames : Scopes.names (m.scopes.push { parent := some parent, bindings })
      Machine.globalScope = m.globals := Scopes.names_push hpositive _
  refine .ofSameGlobals ⟨hsound, hm.rooted.push hk.lt bindings, ?_⟩ (.push _) hnames
  intro x hx
  exact hm.globals x (hnames ▸ hx)

theorem define {name : Bytes} {v : Value} (hk : m.scopes.Reaches m.current k)
    (hname : k = 0 → N name) (hv : v.Sound Token.Any m.scopes) :
    Tracked N m (Traced.move (.declares name) (Machine.define name v)) (Machine.define name v) := by
  refine move fun hm => ?_
  by_cases hglobal : m.current = Machine.globalScope
  · have hzero : k = 0 := by
      cases k with
      | zero => rfl
      | succ k => exact absurd hglobal (hm.rooted.ne_zero_of_reaches hk)
    exact .declare hm hv (hname hzero)
  · exact .defineIn hm hv (Scopes.names_define_of_ne hglobal name v)

theorem assign {name : Bytes} {v : Value} (hv : v.Sound Token.Any m.scopes) :
    Tracked N m (Traced.move act (Machine.assign name v)) (Machine.assign name v) := by
  refine move fun hm => ?_
  unfold Machine.assign
  cases howner : m.scopes.owner? m.current name with
  | none => exact .alike hm ⟨rfl, rfl⟩
  | some owner =>
      obtain ⟨scope, hscope, hhas⟩ := Scopes.has_of_owner? howner
      exact .defineIn hm hv (Scopes.names_define_of_has hscope hhas v _)

theorem write {r : Reference} {v : Value} (hr : r.Fit Token.Any k)
    (hk : m.scopes.Reaches m.current k) (hv : v.Sound Token.Any m.scopes) :
    Tracked N m (Traced.move (.assigns r) (Machine.write r v)) (Machine.write r v) := by
  refine move fun hm => ?_
  unfold Machine.write
  cases hhops : r.hops with
  | some hops =>
      simp only
      cases howner : m.scopes.ancestor? m.current hops with
      | none => exact .alike hm ⟨rfl, rfl⟩
      | some owner =>
          have hlocal := hm.rooted.ancestor_ne_zero hk (hr.2 hops hhops) howner
          exact .defineIn hm hv (Scopes.names_define_of_ne hlocal _ v)
  | none =>
      simp only
      cases howner : m.scopes.owner? Machine.globalScope r.name.lexeme with
      | none => exact .alike hm ⟨rfl, rfl⟩
      | some owner =>
          obtain ⟨scope, hscope, hhas⟩ := Scopes.has_of_owner? howner
          exact .defineIn hm hv (Scopes.names_define_of_has hscope hhas v _)

/-! ### Moves outside the scopes -/

theorem newIdentity : Tracked N m (Traced.move .other Machine.newIdentity) Machine.newIdentity :=
  move fun hm => .alike hm ⟨rfl, rfl⟩

theorem printLine (line : Bytes) :
    Tracked N m (Traced.move .other (Machine.printLine line)) (Machine.printLine line) :=
  move fun hm => .alike hm ⟨rfl, rfl⟩

theorem ofSameScopes (hsame : (p m).machine.scopes = m.scopes)
    (hsound : m.Sound Token.Any → (p m).machine.Sound Token.Any) :
    Tracked N m (Traced.move act p) p := by
  refine move fun hm => .ofSameGlobals ⟨hsound hm.sound, ?_, ?_⟩ ?_ (Machine.globals_congr hsame)
  · rw [hsame]
    exact hm.rooted
  · rw [Machine.globals_congr hsame]
    exact hm.globals
  · rw [hsame]
    exact .none

theorem newObject {c : ClassObject} (hc : c.Sound Token.Any m.scopes) :
    Tracked N m (Traced.move .other (Machine.newObject c)) (Machine.newObject c) :=
  ofSameScopes rfl fun hm => (Run.Safe.newObject hc hm).1

theorem setField (id : Nat) (name : Bytes) {v : Value} (hv : v.Sound Token.Any m.scopes) :
    Tracked N m (Traced.move .other (Machine.setField id name v)) (Machine.setField id name v) :=
  ofSameScopes rfl fun hm => (Run.Safe.setField id name hv hm).1

end Tracked

end

end Course

end Lox
