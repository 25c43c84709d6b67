import Lox.Proofs.Termination.Finishing

/-!
Without loops, the limit on calls bounds every evaluation.

Evaluation goes down in the tree until a call leads to a body that stands elsewhere.  Each
such call uses up one of those that the limit still allows, however the function was reached.
So fuel for the height of one body at every level that is left, and for the height of the tree
at hand, is enough.
-/

namespace Lox

/-! ## Trees of bounded height -/

def Stmt.Shallow (H : Nat) (s : Stmt) : Prop := s.hasLoop = false ∧ s.height ≤ H

def Stmt.ShallowList (H : Nat) (body : List Stmt) : Prop :=
  Stmt.hasLoopList body = false ∧ Stmt.heightList body ≤ H

def FunctionDecl.Shallow (H : Nat) (f : FunctionDecl) : Prop := f.hasLoop = false ∧ f.height ≤ H

theorem FunctionDecl.shallow_iff {H : Nat} (f : FunctionDecl) :
    f.Shallow H ↔ Stmt.ShallowList H f.body := by
  unfold FunctionDecl.Shallow Stmt.ShallowList
  rw [FunctionDecl.hasLoop_eq, FunctionDecl.height_eq]

theorem Stmt.ShallowList.cons {H : Nat} {s : Stmt} {rest : List Stmt}
    (h : Stmt.ShallowList H (s :: rest)) : s.Shallow H ∧ Stmt.ShallowList H rest := by
  obtain ⟨hloop, hheight⟩ := h
  rw [Stmt.hasLoopList, Bool.or_eq_false_iff] at hloop
  rw [Stmt.heightList] at hheight
  exact ⟨⟨hloop.1, by omega⟩, hloop.2, by omega⟩

/-! ## Fuel for calls -/

namespace Machine

/-- Fuel for bodies of height `H`, one at every level of calls that is left. -/
def allowance (H : Nat) (m : Machine) : Nat := (m.limit - m.depth) * H

/-- The fuel `n` covers a tree of the given height and all calls to come. -/
structure Affords (H height n : Nat) (m : Machine) : Prop where
  limited : 0 < m.limit
  fuel : m.allowance H + height ≤ n

namespace Affords

variable {H height n : Nat} {m m₁ : Machine}

theorem level (h : m.Affords H height n) (hlevel : m.Level m₁) : m₁.Affords H height n := by
  obtain ⟨hlimited, hfuel⟩ := h
  unfold allowance at hfuel
  rw [← hlevel.limit, ← hlevel.depth] at hfuel
  exact ⟨hlevel.limit ▸ hlimited, hfuel⟩

theorem part (h : m.Affords H height (n + 1)) {smaller : Nat} (hlt : smaller < height) :
    m.Affords H smaller n := by
  have hfuel := h.fuel
  exact ⟨h.limited, by omega⟩

theorem pos (h : m.Affords H height 0) : height = 0 := by
  have hfuel := h.fuel
  omega

theorem enter (h : m.Affords H 1 (n + 1)) (hroom : ¬m.Full) (hheight : height ≤ H) :
    ({ m with depth := m.depth + 1 } : Machine).Affords H height n := by
  refine ⟨h.limited, ?_⟩
  have hlt : m.depth < m.limit := Nat.lt_of_not_le fun hle => hroom ⟨h.limited, hle⟩
  have hlevels : m.limit - m.depth = m.limit - (m.depth + 1) + 1 := by omega
  have hfuel : (m.limit - m.depth) * H + 1 ≤ n + 1 := h.fuel
  rw [hlevels, Nat.succ_mul] at hfuel
  change (m.limit - (m.depth + 1)) * H + height ≤ n
  omega

end Affords

/-! ## Trees and calls -/

open Run (Finishes)

-- The induction is on fuel; what is left of it is compared with levels and heights.
mutual

theorem eval_finishes {H : Nat} {m : Machine} (n : Nat) (e : Expr)
    (h : m.Affords H e.height n) :
    Finishes (FunctionDecl.Shallow H) m (eval n e) (Value.Carries (FunctionDecl.Shallow H)) := by
  match n with
  | 0 => exact absurd h.pos (Nat.ne_of_gt e.height_pos)
  | n + 1 =>
      cases e with
      | absent => exact fun hm => ⟨hm, nofun⟩
      | literal span value => exact .pure (by cases value <;> trivial)
      | grouping span inner =>
          rw [Expr.height] at h
          exact eval_finishes n inner (h.part (by omega))
      | unary span operator operand =>
          rw [Expr.height] at h
          exact (eval_finishes n operand (h.part (by omega))).bind fun v _ _ _ =>
            (applyUnary_settles operator v).finishes
      | binary span operator left right =>
          rw [Expr.height] at h
          refine (eval_finishes n left (h.part (by omega))).bind fun v m₁ h₁ _ => ?_
          refine (eval_finishes n right ((h.level h₁).part (by omega))).bind fun w _ _ _ => ?_
          exact (applyBinary_settles operator v w).finishes
      | logical span operator left right =>
          rw [Expr.height] at h
          refine (eval_finishes n left (h.part (by omega))).bind fun v m₁ h₁ hv => ?_
          exact .ite (fun _ => .pure hv) fun _ =>
            eval_finishes n right ((h.level h₁).part (by omega))
      | var r | thisRef r => exact .read r
      | assign target value =>
          rw [Expr.height] at h
          refine (eval_finishes n value (h.part (by omega))).bind fun v _ _ hv => ?_
          exact (Finishes.write target hv).bind fun _ _ _ _ => .pure hv
      | call span callee paren arguments =>
          rw [Expr.height] at h
          refine (eval_finishes n callee (h.part (by omega))).bind fun f m₁ h₁ hf => ?_
          refine (evalList_finishes n arguments ((h.level h₁).part (by omega))).bind
            fun vs m₂ h₂ hvs => ?_
          exact callValue_finishes n paren hf hvs (((h.level h₁).level h₂).part (by omega))
      | get span object name =>
          rw [Expr.height] at h
          refine (eval_finishes n object (h.part (by omega))).bind fun v _ _ hv => ?_
          cases v with
          | object id c => exact getProperty_finishes id name hv
          | _ => exact .raise
      | set span object name value =>
          rw [Expr.height] at h
          refine (eval_finishes n object (h.part (by omega))).bind fun v m₁ h₁ _ => ?_
          cases v with
          | object id c =>
              refine (eval_finishes n value ((h.level h₁).part (by omega))).bind
                fun w _ _ hw => ?_
              exact (Finishes.setField id name.lexeme hw).bind fun _ _ _ _ => .pure hw
          | _ => exact .raise
      | superRef r method => exact getSuper_finishes r method
termination_by structural n

theorem evalList_finishes {H : Nat} {m : Machine} (n : Nat) (es : List Expr)
    (h : m.Affords H (Expr.heightList es) n) :
    Finishes (FunctionDecl.Shallow H) m (evalList n es)
      fun vs => ∀ v ∈ vs, v.Carries (FunctionDecl.Shallow H) := by
  match n with
  | 0 => exact absurd h.pos (Nat.ne_of_gt (Expr.heightList_pos es))
  | n + 1 =>
      cases es with
      | nil => exact .pure (by simp)
      | cons e rest =>
          rw [Expr.heightList] at h
          refine (eval_finishes n e (h.part (by omega))).bind fun v m₁ h₁ hv => ?_
          refine (evalList_finishes n rest ((h.level h₁).part (by omega))).bind
            fun vs _ _ hvs => ?_
          exact .pure (List.forall_mem_cons.mpr ⟨hv, hvs⟩)
termination_by structural n

theorem callValue_finishes {H : Nat} {m : Machine} (n : Nat) {f : Value} {vs : List Value}
    (paren : Token) (hf : f.Carries (FunctionDecl.Shallow H))
    (hvs : ∀ v ∈ vs, v.Carries (FunctionDecl.Shallow H)) (h : m.Affords H 2 n) :
    Finishes (FunctionDecl.Shallow H) m (callValue n f vs paren)
      (Value.Carries (FunctionDecl.Shallow H)) := by
  match n with
  | 0 => exact absurd h.pos (by decide)
  | n + 1 =>
      have hcall : m.Affords H 1 n := h.part (by decide)
      cases f with
      | native f => exact .ite (fun _ => .raise) fun _ => applyNative_finishes f vs paren
      | function id code =>
          exact .ite (fun _ => .raise) fun _ => callClosure_finishes n paren hf hvs hcall
      | classObject c =>
          refine .ite (fun _ => .raise) fun _ => ?_
          refine (Finishes.newObject hf).bind fun object m₁ h₁ hobject => ?_
          cases hinit : c.initializer? with
          | none => exact .pure hobject
          | some method =>
              refine (bindThis_finishes (hf _ _ hinit) hobject).bind fun code m₂ h₂ hcode => ?_
              refine (callClosure_finishes n paren hcode hvs
                ((hcall.level h₁).level h₂)).bind fun _ _ _ _ => ?_
              exact .pure hobject
      | _ => exact .raise
termination_by structural n

theorem callClosure_finishes {H : Nat} {m : Machine} (n : Nat) {code : Closure}
    {vs : List Value} (paren : Token) (hcode : code.declaration.Shallow H)
    (hvs : ∀ v ∈ vs, v.Carries (FunctionDecl.Shallow H)) (h : m.Affords H 1 n) :
    Finishes (FunctionDecl.Shallow H) m (callClosure n code vs paren)
      (Value.Carries (FunctionDecl.Shallow H)) := by
  match n with
  | 0 => exact absurd h.pos (by decide)
  | n + 1 =>
      have hbody := (FunctionDecl.shallow_iff _).mp hcode
      -- every way into a body passes here, so a level is used up before it
      refine .enter fun hroom => .deeper ?_
      have hinner := h.enter hroom hbody.2
      refine (bindParameters_finishes _ hvs).bind fun bindings m₁ h₁ hbound => ?_
      refine (Finishes.newScope hbound).bind fun scope m₂ h₂ _ => ?_
      have hscope : ({ m₂ with current := scope } : Machine).Affords H _ n :=
        ((hinner.level h₁).level h₂).level ⟨rfl, rfl⟩
      refine (Finishes.inScope (execList_finishes n _ hbody hscope)).bind
        fun signal _ _ hsignal => ?_
      refine .ite (fun _ => .bindingAt _ _ _) fun _ => ?_
      cases signal with
      | returned v => exact .pure hsignal
      | normal => exact .pure trivial
termination_by structural n

theorem exec_finishes {H : Nat} {m : Machine} (n : Nat) (s : Stmt) (hs : s.Shallow H)
    (h : m.Affords H s.height n) :
    Finishes (FunctionDecl.Shallow H) m (exec n s)
      (Signal.Carries (FunctionDecl.Shallow H)) := by
  match n with
  | 0 => exact absurd h.pos (Nat.ne_of_gt s.height_pos)
  | n + 1 =>
      obtain ⟨hloop, hheight⟩ := hs
      cases s with
      | expression span e =>
          rw [Stmt.height] at h
          exact (eval_finishes n e (h.part (by omega))).bind fun _ _ _ _ => .pure trivial
      | print span e =>
          rw [Stmt.height] at h
          refine (eval_finishes n e (h.part (by omega))).bind fun v _ _ _ => ?_
          exact (Finishes.printLine _).bind fun _ _ _ _ => .pure trivial
      | var span name initial =>
          cases initial with
          | none =>
              exact (Finishes.define _ (v := .nil) trivial).bind fun _ _ _ _ => .pure trivial
          | some e =>
              rw [Stmt.height] at h
              refine (eval_finishes n e (h.part (by omega))).bind fun v _ _ hv => ?_
              exact (Finishes.define _ hv).bind fun _ _ _ _ => .pure trivial
      | block span body =>
          rw [Stmt.hasLoop] at hloop
          rw [Stmt.height] at h hheight
          refine Finishes.currentScope.bind fun outer m₁ h₁ _ => ?_
          refine (Finishes.newScope .nil).bind fun scope m₂ h₂ _ => .inScope ?_
          refine execList_finishes n body ⟨hloop, by omega⟩ ?_
          exact (((h.level h₁).level h₂).part (by omega)).level ⟨rfl, rfl⟩
      | branch span condition onTrue onFalse =>
          cases onFalse with
          | none =>
              rw [Stmt.hasLoop] at hloop
              rw [Stmt.height] at h hheight
              refine (eval_finishes n condition (h.part (by omega))).bind fun v m₁ h₁ _ => ?_
              exact .ite (fun _ => exec_finishes n onTrue ⟨hloop, by omega⟩
                ((h.level h₁).part (by omega))) fun _ => .pure trivial
          | some onFalse =>
              rw [Stmt.hasLoop, Bool.or_eq_false_iff] at hloop
              rw [Stmt.height] at h hheight
              refine (eval_finishes n condition (h.part (by omega))).bind fun v m₁ h₁ _ => ?_
              exact .ite (fun _ => exec_finishes n onTrue ⟨hloop.1, by omega⟩
                ((h.level h₁).part (by omega))) fun _ => exec_finishes n onFalse
                  ⟨hloop.2, by omega⟩ ((h.level h₁).part (by omega))
      | loop span condition body => simp [Stmt.hasLoop] at hloop
      | function f =>
          rw [Stmt.hasLoop] at hloop
          rw [Stmt.height] at hheight
          have hf : f.Shallow H := ⟨hloop, by omega⟩
          refine Finishes.currentScope.bind fun scope _ _ _ => ?_
          refine (functionOf_finishes hf).bind fun v _ _ hv => ?_
          exact (Finishes.define _ hv).bind fun _ _ _ _ => .pure trivial
      | ret span keyword value =>
          cases value with
          | none => exact .pure trivial
          | some e =>
              rw [Stmt.height] at h
              exact (eval_finishes n e (h.part (by omega))).bind fun _ _ _ hv => .pure hv
      | classDecl span name parent methods =>
          rw [Stmt.hasLoop] at hloop
          rw [Stmt.height] at hheight
          have hmethods : ∀ f ∈ methods, f.Shallow H := by
            intro f hf
            have hle := FunctionDecl.height_le_of_mem hf
            exact ⟨FunctionDecl.hasLoop_of_mem hloop hf, by omega⟩
          cases parent with
          | none =>
              exact (declareClass_finishes name (by simp) hmethods).bind
                fun _ _ _ _ => .pure trivial
          | some parent =>
              refine (Finishes.read parent).bind fun v _ _ hv => ?_
              cases v with
              | classObject c =>
                  have hparent : ∀ d ∈ some c, d.Carries (FunctionDecl.Shallow H) := by
                    rintro d ⟨⟩
                    exact hv
                  exact (declareClass_finishes name hparent hmethods).bind
                    fun _ _ _ _ => .pure trivial
              | _ => exact .raise
termination_by structural n

theorem execList_finishes {H : Nat} {m : Machine} (n : Nat) (body : List Stmt)
    (hbody : Stmt.ShallowList H body) (h : m.Affords H (Stmt.heightList body) n) :
    Finishes (FunctionDecl.Shallow H) m (execList n body)
      (Signal.Carries (FunctionDecl.Shallow H)) := by
  match n with
  | 0 => exact absurd h.pos (Nat.ne_of_gt (Stmt.heightList_pos body))
  | n + 1 =>
      cases body with
      | nil => exact .pure trivial
      | cons s rest =>
          obtain ⟨hs, hrest⟩ := hbody.cons
          rw [Stmt.heightList] at h
          refine (exec_finishes n s hs (h.part (by omega))).bind fun signal m₁ h₁ hsignal => ?_
          cases signal with
          | returned v => exact .pure hsignal
          | normal => exact execList_finishes n rest hrest ((h.level h₁).part (by omega))
termination_by structural n

end

theorem execProgram_finishes {H n : Nat} {m : Machine} (program : List Stmt)
    (hprogram : Stmt.ShallowList H program) (h : m.Affords H H n) :
    Finishes (FunctionDecl.Shallow H) m (execProgram n program) fun _ => True := by
  induction program generalizing m with
  | nil => exact .pure trivial
  | cons s rest ih =>
      obtain ⟨hs, hrest⟩ := hprogram.cons
      have hfuel : m.allowance H + s.height ≤ n := Nat.le_trans (Nat.add_le_add_left hs.2 _) h.fuel
      refine (exec_finishes n s hs ⟨h.limited, hfuel⟩).bind fun _ m₁ h₁ _ => ?_
      exact ih hrest (h.level h₁)

end Machine

end Lox
