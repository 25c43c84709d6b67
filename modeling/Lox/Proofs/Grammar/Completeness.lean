import Lox.Proofs.Grammar.Soundness
import Lox.Proofs.Parser.Composition
import Lox.Proofs.Parser.Ladder

/-!
What is in the grammar is read, as the tree the grammar gives it.

A derivation says of every token where it belongs, so each parser finds what it expects.
What comes after a phrase must not continue it: after an expression comes a token that no
operator is, after an operand an operator that binds no tighter than its level, and after
a statement that ends in an open `if` no `else`.
-/

namespace Lox.Parser

open Grammar

/-! ## Giving a value -/

/-- With fuel enough, `p` gives the value and ends at the second cursor. -/
def Gives (c : Cursor) (p : Parse α) (v : α) (c' : Cursor) : Prop :=
  (p c).1 ≠ .outOfFuel → p c = (.ok v, c')

namespace Gives

variable {α β : Type} {p q : Parse α} {f : α → Parse β} {v : α} {w : β} {k : Kind} {t : Token}
variable {c c₁ c₂ : Cursor}

theorem outOfFuel : Gives c Parser.outOfFuel v c₁ :=
  fun henough => absurd rfl henough

theorem pure : Gives c (Pure.pure v) v c :=
  fun _ => rfl

theorem bind (hp : Gives c p v c₁) (hf : Gives c₁ (f v) w c₂) : Gives c (p >>= f) w c₂ := by
  intro henough
  have hfirst : (p c).1 ≠ .outOfFuel := by
    intro hout
    apply henough
    change (Parse.bind p f c).1 = _
    rcases hpc : p c with ⟨reply, c'⟩
    rw [hpc] at hout
    cases hout
    simp [Parse.bind, hpc]
  have hrun := bind_of_ok (f := f) (hp hfirst)
  rw [hrun] at henough ⊢
  exact hf henough

theorem step (hp : p c = (.ok v, c₁)) (hf : Gives c₁ (f v) w c₂) : Gives c (p >>= f) w c₂ :=
  bind (fun _ => hp) hf

theorem given (hp : Gives c p v c₁) : Gives c (some <$> p) (some v) c₁ :=
  hp.bind (f := fun v => Pure.pure (some v)) pure

theorem peek {f : Token → Parse β} (hpeek : c.peek = t) (hf : Gives c (f t) w c₂) :
    Gives c (Parser.peek >>= f) w c₂ :=
  step (by rw [← hpeek]; rfl) hf

theorem before {f : Token → Parse β} (hbefore : c.before = t) (hf : Gives c (f t) w c₂) :
    Gives c (Parser.before >>= f) w c₂ :=
  step (by rw [← hbefore]; rfl) hf

theorem next {f : Token → Parse β} (hpeek : c.peek = t) (hf : Gives c.advance (f t) w c₂) :
    Gives c (Parser.next >>= f) w c₂ :=
  step (by rw [← hpeek]; rfl) hf

theorem expect {f : Token → Parse β} {message : String} (hpeek : c.peek = t) (hkind : t.kind = k)
    (hf : Gives c.advance (f t) w c₂) : Gives c (Parser.expect k message >>= f) w c₂ := by
  have hc : c.kind = k := by rw [Cursor.kind, hpeek, hkind]
  apply step _ hf
  simp [Parser.expect, hc, hpeek]

theorem accept {p q : Parse β} (hkind : c.kind = k) (hp : Gives c.advance p w c₂) :
    Gives c (Parser.accept k >>= fun found => if found then p else q) w c₂ := by
  have hrun : Parser.accept k c = (.ok true, c.advance) := by simp [Parser.accept, hkind]
  exact step hrun hp

theorem pass {p q : Parse β} (hkind : c.kind ≠ k) (hq : Gives c q w c₂) :
    Gives c (Parser.accept k >>= fun found => if found then p else q) w c₂ := by
  have hrun : Parser.accept k c = (.ok false, c) := by simp [Parser.accept, hkind]
  exact step hrun hq

theorem look {f : Bool → Parse β} (hf : Gives c (f (decide (c.kind = k))) w c₂) :
    Gives c (Parser.at? k >>= f) w c₂ :=
  step rfl hf

theorem present {p q : Parse β} (hkind : c.kind = k) (hp : Gives c p w c₂) :
    Gives c (Parser.at? k >>= fun found => if found then p else q) w c₂ :=
  look (by simpa [hkind] using hp)

theorem missing {p q : Parse β} (hkind : c.kind ≠ k) (hq : Gives c q w c₂) :
    Gives c (Parser.at? k >>= fun found => if found then p else q) w c₂ :=
  look (by simpa [hkind] using hq)

theorem choice {a : Parse Bool}
    (h : Gives c (a >>= fun found => if found then p else q) v c₁)
    (hf : Gives c₁ (f v) w c₂) :
    Gives c (a >>= fun found => if found then p >>= f else q >>= f) w c₂ := by
  rw [choice_bind]
  exact h.bind hf

end Gives

theorem Took.eq_of_nil {c c' : Cursor} (h : Took c [] c') : c' = c := by
  obtain ⟨hrest, hprevious, hlast, hreported, -⟩ := h
  cases c
  cases c'
  simp_all

theorem Took.kind {c c' : Cursor} {t : Token} {xs : List Token} (h : Took c (t :: xs) c') :
    c.kind = t.kind := by
  rw [Cursor.kind, h.uncons.1]

theorem Took.starts {starts : Kind → Bool} {c c' : Cursor} {xs : List Token}
    (htook : Took c xs c') (h : Begins starts xs) : starts c.kind = true := by
  obtain ⟨t, rest, rfl, ht⟩ := h
  rw [htook.kind]
  exact ht

theorem Took.kind_ne {starts : Kind → Bool} {c c' : Cursor} {xs : List Token} {k : Kind}
    (htook : Took c xs c') (h : Begins starts xs) (hk : starts k = false) : c.kind ≠ k := by
  rintro rfl
  rw [htook.starts h] at hk
  cases hk

/-! ## Expressions -/

def Closes (k : Kind) : Prop := bindingPower k = 0 ∧ k ≠ .equal

instance (k : Kind) : Decidable (Closes k) := inferInstanceAs (Decidable (_ ∧ _))

def AsExpression (xs : List Token) (e : Expr) : Prop :=
  ∀ ⦃c c' : Cursor⦄ (n : Nat), Took c xs c' → Closes c'.kind → Gives c (expression n) e c'

/-- The tokens are read as an operand, and then what follows it. -/
def AsOperand (level : Level) (xs : List Token) (e : Expr) : Prop :=
  ∀ ⦃c c' c'' : Cursor⦄ ⦃power : Nat⦄ ⦃w : Expr⦄, Took c xs c' →
    bindingPower c'.kind ≤ level.power → power ≤ unaryPower → Fits power level →
    (∀ n, Gives c' (operations n power e) w c'') → ∀ n, Gives c (operation n power) w c''

section

variable {c c₁ c₂ : Cursor} {power : Nat} {left e w : Expr} {level : Level} {xs : List Token}

theorem operations_stop (h : bindingPower c.kind ≤ power) (n : Nat) :
    Gives c (operations n power left) left c := by
  cases n with
  | zero => exact .outOfFuel
  | succ n =>
      intro _
      exact operations_of_le h

theorem operations_step (h : power < bindingPower c.kind)
    (hoperator : ∀ n, Gives c (operator n left) e c₁)
    (hrest : ∀ n, Gives c₁ (operations n power e) w c₂) (n : Nat) :
    Gives c (operations n power left) w c₂ := by
  cases n with
  | zero => exact .outOfFuel
  | succ n =>
      have hboth := (hoperator n).bind (hrest n)
      unfold Gives at hboth ⊢
      rw [operations_of_lt h]
      exact hboth

theorem asOperand_of_operand (h : ∀ ⦃c c' : Cursor⦄ (n : Nat), Took c xs c' →
      bindingPower c'.kind ≤ level.power → Gives c (operand n) e c') :
    AsOperand level xs e := by
  intro c c' c'' power w htook hstops _ _ hrest n
  cases n with
  | zero => exact .outOfFuel
  | succ n =>
      unfold operation
      exact (h n htook hstops).bind (hrest n)

theorem AsOperand.tighter {next : Level} (htighter : level.tighter? = some next)
    (h : AsOperand next xs e) : AsOperand level xs e := by
  intro c c' c'' power w htook hstops hpower hfits hrest n
  have hlt := Level.power_lt_of_tighter htighter
  apply h htook (by omega) hpower _ hrest n
  rcases hfits with hfits | hfits
  · exact .inl (by omega)
  · exact .inr (by omega)

theorem AsOperand.asExpression (hlevel : 0 < level.power) (h : AsOperand level xs e) :
    AsExpression xs e := by
  intro c c' n htook hcloses
  cases n with
  | zero => exact .outOfFuel
  | succ n =>
      have hstops : bindingPower c'.kind ≤ 0 := Nat.le_of_eq hcloses.1
      have hleft := h htook (by omega) (Nat.zero_le _) (.inl hlevel) (operations_stop hstops) n
      unfold expression
      apply hleft.bind
      exact .pass hcloses.2 .pure

end

theorem operator_join {t : Token} (left : Expr) {right : Expr} {c c' : Cursor}
    (hpeek : c.peek = t) (hlt : bindingPower t.kind < 80)
    (hright : ∀ n, Gives c.advance (operation n (bindingPower t.kind)) right c') (n : Nat) :
    Gives c (operator n left)
      (joining t.kind ⟨left.span.start, right.span.stop⟩ t left right) c' := by
  cases n with
  | zero => exact .outOfFuel
  | succ n =>
      have hnode : ∀ node, joining t.kind = node →
          Gives c.advance (operation n (bindingPower t.kind) >>= fun right =>
            pure (node ⟨left.span.start, right.span.stop⟩ t left right))
            (joining t.kind ⟨left.span.start, right.span.stop⟩ t left right) c' := by
        rintro _ rfl
        exact (hright n).bind .pure
      unfold operator
      apply Gives.next hpeek
      split
      · next hkind => simp [hkind, bindingPower] at hlt
      · next hkind => simp [hkind, bindingPower] at hlt
      · next hkind => exact hnode _ (by simp [joining, hkind])
      · next hkind => exact hnode _ (by simp [joining, hkind])
      · next hand hor => exact hnode _ (if_neg fun h => h.elim hand hor)

theorem operator_get {dot name : Token} {left : Expr} {c c' : Cursor}
    (htook : Took c [dot, name] c') (hdot : dot.kind = .dot) (hname : name.kind = .identifier)
    (n : Nat) :
    Gives c (operator n left) (.get ⟨left.span.start, name.span.stop⟩ left name) c' := by
  cases n with
  | zero => exact .outOfFuel
  | succ n =>
      obtain ⟨hpeek, -, htook⟩ := htook.uncons
      obtain ⟨hpeek', -, htook⟩ := htook.uncons
      unfold operator
      apply Gives.next hpeek
      rw [hdot]
      apply Gives.expect hpeek' hname
      rw [htook.eq_of_nil]
      exact .pure

def AsItem {α : Type} (item : Nat → Parse α) (xs : List Token) (v : α) : Prop :=
  ∀ ⦃c c' : Cursor⦄ (n : Nat), Took c xs c' → c'.kind = .comma ∨ c'.kind = .rightParen →
    Gives c (item n) v c'

/-- Of a list whose every item is read with less fuel than the items from it on. -/
theorem items_complete {α : Type} {item : Nat → Parse α} {list : Nat → Nat → Parse (List α)}
    {problem : Problem} (hzero : ∀ count, list 0 count = outOfFuel)
    (hsucc : ∀ n count, list (n + 1) count =
      counted problem count (separated (item n) (list n (count + 1))))
    (n count : Nat) {ys : List Token} {pieces : List (List Token × α)} {c c' : Cursor}
    (hne : pieces ≠ []) (hpieces : ∀ piece ∈ pieces, AsItem item piece.1 piece.2)
    (hseparated : Separated (pieces.map Prod.fst) ys) (hlength : count + pieces.length ≤ limit)
    (htook : Took c ys c') (hnext : c'.kind = .rightParen) :
    Gives c (list n count) (pieces.map Prod.snd) c' := by
  induction n generalizing ys pieces count c with
  | zero =>
      rw [hzero]
      exact .outOfFuel
  | succ n ih =>
      obtain ⟨first, pieces, rfl⟩ := List.exists_cons_of_ne_nil hne
      have hroom : count < argumentLimit := by
        simp only [List.length_cons, limit] at hlength
        simp only [argumentLimit]
        omega
      have hfirst := hpieces first (by simp)
      rw [hsucc, counted_of_lt hroom]
      unfold separated
      cases pieces with
      | nil =>
          cases hseparated
          apply (hfirst n htook (.inr hnext)).bind
          exact .pass (by rw [hnext]; decide) .pure
      | cons second pieces =>
          cases hseparated with
          | more hcomma hseparated =>
              obtain ⟨c₁, hpiece, hrest⟩ := htook.split
              have hkind : c₁.kind = .comma := by rw [hrest.kind, hcomma]
              obtain ⟨-, -, hrest⟩ := hrest.uncons
              apply (hfirst n hpiece (.inl hkind)).bind
              apply Gives.accept hkind
              have hroom' : count + 1 + (second :: pieces).length ≤ limit := by
                simp only [List.length_cons] at hlength ⊢
                omega
              have htail := ih (count + 1) (List.cons_ne_nil second pieces)
                (fun piece hmem => hpieces piece (List.mem_cons_of_mem _ hmem)) hseparated
                hroom' hrest
              exact htail.bind .pure

theorem arguments_complete (n : Nat) {ys : List Token} {pieces : List (List Token × Expr)}
    {count : Nat} {c c' : Cursor} (hne : pieces ≠ [])
    (hpieces : ∀ piece ∈ pieces, AsExpression piece.1 piece.2)
    (hseparated : Separated (pieces.map Prod.fst) ys) (hlength : count + pieces.length ≤ limit)
    (htook : Took c ys c') (hnext : c'.kind = .rightParen) :
    Gives c (arguments n count) (pieces.map Prod.snd) c' := by
  refine items_complete (fun _ => rfl) arguments_succ n count hne ?_ hseparated hlength htook hnext
  intro piece hpiece c c' n htook hends
  refine hpieces piece hpiece n htook ?_
  rcases hends with hends | hends <;> rw [hends] <;> decide

theorem operator_call {opening closing : Token} {ys : List Token}
    {pieces : List (List Token × Expr)} {c c' : Cursor}
    (htook : Took c (opening :: (ys ++ [closing])) c') (hopening : opening.kind = .leftParen)
    (hpieces : ∀ piece ∈ pieces, Phrase .assignment piece.1 piece.2 ∧
      AsExpression piece.1 piece.2)
    (hseparated : Separated (pieces.map Prod.fst) ys) (hlength : pieces.length ≤ limit)
    (hclosing : closing.kind = .rightParen) (left : Expr) (n : Nat) :
    Gives c (operator n left)
      (.call ⟨left.span.start, closing.span.stop⟩ left closing (pieces.map Prod.snd)) c' := by
  cases n with
  | zero => exact .outOfFuel
  | succ n =>
      obtain ⟨hpeek, -, htook⟩ := htook.uncons
      obtain ⟨c₁, hys, hlast⟩ := htook.split
      have hnext : c₁.kind = .rightParen := by rw [hlast.kind, hclosing]
      obtain ⟨hpeek', -, hlast⟩ := hlast.uncons
      have hvalues : Gives c.advance (do if ← at? .rightParen then pure [] else arguments n 0)
          (pieces.map Prod.snd) c₁ := by
        cases pieces with
        | nil =>
            cases hseparated
            rw [hys.eq_of_nil] at hnext ⊢
            exact .present hnext .pure
        | cons first pieces =>
            have hbegins := hseparated.begins (hpieces first (by simp)).1.begins
            apply Gives.missing (hys.kind_ne hbegins rfl)
            exact arguments_complete n (by simp) (fun piece hmem => (hpieces piece hmem).2)
              hseparated (by omega) hys hnext
      unfold operator
      apply Gives.next hpeek
      rw [hopening]
      apply hvalues.choice
      apply Gives.expect hpeek' hclosing
      rw [hlast.eq_of_nil]
      exact .pure

theorem asOperand_token {t : Token} {e : Expr}
    (h : ∀ {c : Cursor} (n : Nat), c.peek = t → operand (n + 1) c = (.ok e, c.advance)) :
    AsOperand .primary [t] e := by
  apply asOperand_of_operand
  intro c c' n htook _
  cases n with
  | zero => exact .outOfFuel
  | succ n =>
      obtain ⟨hpeek, -, htook⟩ := htook.uncons
      rw [htook.eq_of_nil]
      exact fun _ => h n hpeek

theorem asOperand_var {t : Token} (hkind : t.kind = .identifier) :
    AsOperand .primary [t] (.var { span := t.span, name := t }) := by
  apply asOperand_token
  intro c n hpeek
  have hfound : peek c = (.ok t, c) := by rw [← hpeek]; rfl
  rw [operand, bind_of_ok hfound, hkind]
  rfl

theorem asOperand_this {t : Token} (hkind : t.kind = .thisKw) :
    AsOperand .primary [t] (.thisRef { span := t.span, name := t }) := by
  apply asOperand_token
  intro c n hpeek
  have hfound : peek c = (.ok t, c) := by rw [← hpeek]; rfl
  rw [operand, bind_of_ok hfound, hkind]
  rfl

theorem asOperand_constant {t : Token} {value : Literal} (hvalue : constant? t = some value) :
    AsOperand .primary [t] (.literal t.span value) := by
  apply asOperand_token
  intro c n hpeek
  have hfound : peek c = (.ok t, c) := by rw [← hpeek]; rfl
  rw [operand, bind_of_ok hfound]
  unfold constant? at hvalue
  split at hvalue
  iterate 5
    next hkind =>
      cases hvalue
      rw [hkind]
      rfl
  · cases hvalue

theorem asOperand_super {t dot method : Token} (hkind : t.kind = .superKw)
    (hdot : dot.kind = .dot) (hmethod : method.kind = .identifier) :
    AsOperand .primary [t, dot, method]
      (.superRef { span := covering [t, dot, method], name := t } method) := by
  apply asOperand_of_operand
  intro c c' n htook _
  cases n with
  | zero => exact .outOfFuel
  | succ n =>
      obtain ⟨hpeek, -, htook⟩ := htook.uncons
      obtain ⟨hpeek₁, -, htook⟩ := htook.uncons
      obtain ⟨hpeek₂, -, htook⟩ := htook.uncons
      unfold operand
      apply Gives.peek hpeek
      rw [hkind]
      apply Gives.next hpeek
      apply Gives.expect hpeek₁ hdot
      apply Gives.expect hpeek₂ hmethod
      rw [htook.eq_of_nil]
      exact .pure

theorem asOperand_grouping {opening closing : Token} {xs : List Token} {inner : Expr}
    (hopening : opening.kind = .leftParen) (hphrase : Phrase .assignment xs inner)
    (hinner : AsExpression xs inner) (hclosing : closing.kind = .rightParen) :
    AsOperand .primary (opening :: (xs ++ [closing]))
      (.grouping (covering (opening :: (xs ++ [closing]))) inner) := by
  apply asOperand_of_operand
  intro c c' n htook _
  cases n with
  | zero => exact .outOfFuel
  | succ n =>
      obtain ⟨hpeek, -, htook⟩ := htook.uncons
      obtain ⟨c₁, hxs, hlast⟩ := htook.split
      have hcloses : Closes c₁.kind := by
        rw [hlast.kind, hclosing]
        decide
      obtain ⟨hpeek₁, -, hlast⟩ := hlast.uncons
      have hspan : covering (opening :: (xs ++ [closing])) =
          ⟨opening.span.start, closing.span.stop⟩ := by simp [hphrase.ne_nil]
      unfold operand
      apply Gives.peek hpeek
      rw [hopening]
      apply Gives.next hpeek
      apply (hinner n hxs hcloses).bind
      apply Gives.expect hpeek₁ hclosing
      rw [hlast.eq_of_nil, hspan]
      exact .pure

theorem asOperand_unary {operator : Token} {xs : List Token} {operand : Expr}
    (hoperator : operator.kind = .bang ∨ operator.kind = .minus)
    (hphrase : Phrase .unary xs operand) (hoperand : AsOperand .unary xs operand) :
    AsOperand .unary (operator :: xs)
      (.unary (covering (operator :: xs)) operator operand) := by
  apply asOperand_of_operand
  intro c c' n htook hstops
  cases n with
  | zero => exact .outOfFuel
  | succ n =>
      obtain ⟨hpeek, -, htook⟩ := htook.uncons
      have hread := hoperand htook hstops (Nat.le_refl unaryPower) (.inr (by decide))
        (operations_stop hstops) n
      have hspan : covering (operator :: xs) = ⟨operator.span.start, operand.span.stop⟩ := by
        simp [hphrase.ne_nil, hphrase.span]
      rw [hspan]
      unfold Parser.operand
      apply Gives.peek hpeek
      rcases hoperator with hkind | hkind
      · rw [hkind]
        exact Gives.next hpeek (hread.bind .pure)
      · rw [hkind]
        exact Gives.next hpeek (hread.bind .pure)

theorem asOperand_call {opening closing : Token} {xs ys : List Token} {callee : Expr}
    {pieces : List (List Token × Expr)} (hphrase : Phrase .call xs callee)
    (hcallee : AsOperand .call xs callee) (hopening : opening.kind = .leftParen)
    (hpieces : ∀ piece ∈ pieces, Phrase .assignment piece.1 piece.2 ∧
      AsExpression piece.1 piece.2)
    (hseparated : Separated (pieces.map Prod.fst) ys) (hlength : pieces.length ≤ limit)
    (hclosing : closing.kind = .rightParen) :
    AsOperand .call (xs ++ opening :: (ys ++ [closing]))
      (.call (covering (xs ++ opening :: (ys ++ [closing]))) callee closing
        (pieces.map Prod.snd)) := by
  intro c c' c'' power w htook _ hpower hfits hrest n
  obtain ⟨c₁, hxs, htook⟩ := htook.split
  have hkind : c₁.kind = .leftParen := by rw [htook.kind, hopening]
  have hspan : covering (xs ++ opening :: (ys ++ [closing])) =
      ⟨callee.span.start, closing.span.stop⟩ := by simp [hphrase.ne_nil, hphrase.span]
  rw [hspan] at hrest
  have hcall := operator_call htook hopening hpieces hseparated hlength hclosing callee
  apply hcallee hxs (by rw [hkind]; decide) hpower hfits
  apply operations_step _ hcall hrest
  rw [hkind]
  exact Nat.lt_of_le_of_lt hpower (by decide)

theorem asOperand_get {dot name : Token} {xs : List Token} {object : Expr}
    (hphrase : Phrase .call xs object) (hobject : AsOperand .call xs object)
    (hdot : dot.kind = .dot) (hname : name.kind = .identifier) :
    AsOperand .call (xs ++ [dot, name])
      (.get (covering (xs ++ [dot, name])) object name) := by
  intro c c' c'' power w htook _ hpower hfits hrest n
  obtain ⟨c₁, hxs, htook⟩ := htook.split
  have hkind : c₁.kind = .dot := by rw [htook.kind, hdot]
  have hspan : covering (xs ++ [dot, name]) = ⟨object.span.start, name.span.stop⟩ := by
    simp [hphrase.ne_nil, hphrase.span]
  rw [hspan] at hrest
  apply hobject hxs (by rw [hkind]; decide) hpower hfits
  apply operations_step _ (operator_get htook hdot hname) hrest
  rw [hkind]
  exact Nat.lt_of_le_of_lt hpower (by decide)

theorem operator_mem {level : Level} {k : Kind} (h : k ∈ level.operators) :
    bindingPower k = level.power ∧ 0 < level.power ∧ level.power ≤ 60 ∧
      level.node = joining k := by
  cases level with
  | assignment | unary | call | primary => cases h
  | disjunction | conjunction =>
      obtain rfl := List.mem_singleton.mp h
      exact ⟨rfl, by decide, by decide, rfl⟩
  | equality | term | factor =>
      simp only [Level.operators, List.mem_cons, List.not_mem_nil, or_false] at h
      rcases h with rfl | rfl <;> exact ⟨rfl, by decide, by decide, rfl⟩
  | comparison =>
      simp only [Level.operators, List.mem_cons, List.not_mem_nil, or_false] at h
      rcases h with rfl | rfl | rfl | rfl <;> exact ⟨rfl, by decide, by decide, rfl⟩

theorem asOperand_join {level next : Level} {operator : Token} {xs ys : List Token}
    {left right : Expr} (hoperator : operator.kind ∈ level.operators)
    (htighter : level.tighter? = some next) (hphrase : Phrase level xs left)
    (hphrase' : Phrase next ys right) (hleft : AsOperand level xs left)
    (hright : AsOperand next ys right) :
    AsOperand level (xs ++ operator :: ys)
      (level.node (covering (xs ++ operator :: ys)) operator left right) := by
  intro c c' c'' power w htook hstops hpower hfits hrest n
  obtain ⟨hbinds, -, hbound, hnode⟩ := operator_mem hoperator
  have hnext := Level.power_lt_of_tighter htighter
  obtain ⟨c₁, hxs, htook⟩ := htook.split
  have hkind : c₁.kind = operator.kind := htook.kind
  obtain ⟨hpeek, -, hys⟩ := htook.uncons
  have hspan : covering (xs ++ operator :: ys) = ⟨left.span.start, right.span.stop⟩ := by
    simp [hphrase.ne_nil, hphrase'.ne_nil, hphrase.span, hphrase'.span]
  rw [hspan, hnode] at hrest
  have hoperand := hright hys (by omega) (by rw [unaryPower]; omega) (.inl hnext)
    (operations_stop hstops)
  rw [← hbinds] at hoperand
  have hjoin := operator_join left hpeek (by omega) hoperand
  apply hleft hxs (Nat.le_of_eq (by rw [hkind, hbinds])) hpower hfits
  apply operations_step _ hjoin hrest
  rw [hkind, hbinds]
  rcases hfits with hfits | hfits <;> omega

theorem asExpression_assign {name equals : Token} {xs : List Token} {value : Expr}
    (hname : name.kind = .identifier) (hequals : equals.kind = .equal)
    (hphrase : Phrase .assignment xs value) (hvalue : AsExpression xs value) :
    AsExpression (name :: equals :: xs)
      (.assign { span := covering (name :: equals :: xs), name } value) := by
  intro c c' n htook hcloses
  cases n with
  | zero => exact .outOfFuel
  | succ n =>
      have hparts : Took c ([name] ++ equals :: xs) c' := htook
      obtain ⟨c₁, htarget, hrest⟩ := hparts.split
      have hkind : c₁.kind = .equal := by rw [hrest.kind, hequals]
      have hleft := asOperand_var hname htarget (by rw [hkind]; decide) (Nat.zero_le _)
        (.inl (by decide)) (operations_stop (by rw [hkind]; decide)) n
      obtain ⟨-, hbefore, hxs⟩ := hrest.uncons
      have hspan : covering (name :: equals :: xs) = ⟨name.span.start, value.span.stop⟩ := by
        simp [hphrase.ne_nil, hphrase.span]
      rw [hspan]
      unfold expression
      apply hleft.bind
      apply Gives.accept hkind
      apply Gives.before hbefore
      exact (hvalue n hxs hcloses).bind .pure

theorem asExpression_set {dot name equals : Token} {xs ys : List Token} {object value : Expr}
    (hphrase : Phrase .call xs object) (hobject : AsOperand .call xs object)
    (hdot : dot.kind = .dot) (hname : name.kind = .identifier) (hequals : equals.kind = .equal)
    (hphrase' : Phrase .assignment ys value) (hvalue : AsExpression ys value) :
    AsExpression (xs ++ dot :: name :: equals :: ys)
      (.set (covering (xs ++ dot :: name :: equals :: ys)) object name value) := by
  intro c c' n htook hcloses
  cases n with
  | zero => exact .outOfFuel
  | succ n =>
      have htarget : xs ++ dot :: name :: equals :: ys = (xs ++ [dot, name]) ++ equals :: ys := by
        simp
      rw [htarget] at htook
      obtain ⟨c₁, htarget, hrest⟩ := htook.split
      have hkind : c₁.kind = .equal := by rw [hrest.kind, hequals]
      have hleft := asOperand_get hphrase hobject hdot hname htarget (by rw [hkind]; decide)
        (Nat.zero_le _) (.inl (by decide)) (operations_stop (by rw [hkind]; decide)) n
      obtain ⟨-, hbefore, hys⟩ := hrest.uncons
      have hspan : covering (xs ++ dot :: name :: equals :: ys) =
          ⟨(covering (xs ++ [dot, name])).start, value.span.stop⟩ := by
        simp [hphrase.ne_nil, hphrase'.ne_nil, hphrase'.span]
      rw [hspan]
      unfold expression
      apply hleft.bind
      apply Gives.accept hkind
      apply Gives.before hbefore
      exact (hvalue n hys hcloses).bind .pure

theorem phrase_complete {level : Level} {xs : List Token} {e : Expr} (h : Phrase level xs e) :
    (level = .assignment → AsExpression xs e) ∧ (level ≠ .assignment → AsOperand level xs e) := by
  induction h with
  | @tighter level next xs e htighter _ ih =>
      have hlt := Level.power_lt_of_tighter htighter
      have hnext : next ≠ .assignment := by
        rintro rfl
        simp [Level.power] at hlt
      have hoperand := ih.2 hnext
      constructor
      · intro _
        exact hoperand.asExpression (by omega)
      · intro _
        exact hoperand.tighter htighter
  | assign hname hequals hvalue ih =>
      exact ⟨fun _ => asExpression_assign hname hequals hvalue (ih.1 rfl), by simp⟩
  | set hobject hdot hname hequals hvalue ih ih' =>
      refine ⟨fun _ => ?_, by simp⟩
      exact asExpression_set hobject (ih.2 (by simp)) hdot hname hequals hvalue (ih'.1 rfl)
  | @join level next _ _ _ _ _ hoperator htighter hleft hright ih ih' =>
      obtain ⟨-, hpos, -, -⟩ := operator_mem hoperator
      have hlt := Level.power_lt_of_tighter htighter
      constructor
      · rintro rfl
        simp [Level.power] at hpos
      · intro hlevel
        have hnext : next ≠ .assignment := by
          rintro rfl
          simp [Level.power] at hlt
        exact asOperand_join hoperator htighter hleft hright (ih.2 hlevel) (ih'.2 hnext)
  | unary hoperator hoperand ih =>
      exact ⟨by simp, fun _ => asOperand_unary hoperator hoperand (ih.2 (by simp))⟩
  | call hcallee hopening hpieces hseparated hlength hclosing ih ih' =>
      refine ⟨by simp, fun _ => ?_⟩
      have hboth := fun piece hmem => And.intro (hpieces piece hmem) ((ih' piece hmem).1 rfl)
      exact asOperand_call hcallee (ih.2 (by simp)) hopening hboth hseparated hlength hclosing
  | get hobject hdot hname ih =>
      exact ⟨by simp, fun _ => asOperand_get hobject (ih.2 (by simp)) hdot hname⟩
  | constant hvalue => exact ⟨by simp, fun _ => asOperand_constant hvalue⟩
  | var hkind => exact ⟨by simp, fun _ => asOperand_var hkind⟩
  | thisRef hkind => exact ⟨by simp, fun _ => asOperand_this hkind⟩
  | superRef hkind hdot hmethod =>
      exact ⟨by simp, fun _ => asOperand_super hkind hdot hmethod⟩
  | grouping hopening hinner hclosing ih =>
      exact ⟨by simp, fun _ => asOperand_grouping hopening hinner (ih.1 rfl) hclosing⟩

theorem expression_complete {xs : List Token} {e : Expr} (h : Phrase .assignment xs e) :
    AsExpression xs e :=
  (phrase_complete h).1 rfl

/-! ## Statements -/

theorem Gives.closing {β : Type} {g : Position → β} {message : String} {k : Kind} {t : Token}
    {c c' : Cursor} (htook : Took c [t] c') (hkind : t.kind = k) :
    Gives c (Parser.expect k message >>= fun _ => Parser.previousEnd >>= fun stop =>
      Pure.pure (g stop)) (g t.span.stop) c' := by
  obtain ⟨hpeek, -, hrest⟩ := htook.uncons
  apply Gives.expect hpeek hkind
  have hstop : Parser.previousEnd c.advance = (.ok t.span.stop, c.advance) := by
    rw [hrest.eq_of_nil] at htook
    unfold Parser.previousEnd
    rw [htook.previousEnd (by simp), covering_singleton]
  apply Gives.step hstop
  rw [hrest.eq_of_nil]
  exact .pure

theorem Gives.previousEnd {β : Type} {f : Position → Parse β} {xs : List Token} {w : β}
    {c₀ c c' : Cursor} (htook : Took c₀ xs c) (hxs : xs ≠ [])
    (hf : Gives c (f (covering xs).stop) w c') : Gives c (Parser.previousEnd >>= f) w c' := by
  apply Gives.step _ hf
  rw [Parser.previousEnd, htook.previousEnd hxs]

section

variable {c c' : Cursor} {xs : List Token} {s : Stmt}

theorem parameters_complete (n : Nat) {ps : List Token} {count : Nat} (hne : ps ≠ [])
    (hnames : ∀ p ∈ ps, p.kind = .identifier) (hseparated : Separated (ps.map fun p => [p]) xs)
    (hlength : count + ps.length ≤ limit) (htook : Took c xs c')
    (hnext : c'.kind = .rightParen) : Gives c (parameters n count) ps c' := by
  have hitems : ∀ piece ∈ ps.map fun p => ([p], p),
      AsItem (fun _ => expect .identifier "Expect parameter name.") piece.1 piece.2 := by
    intro piece hpiece c c' _ htook _
    obtain ⟨p, hp, rfl⟩ := List.mem_map.mp hpiece
    obtain ⟨hpeek, -, hrest⟩ := htook.uncons
    rw [← funext (map_id (p := expect .identifier "Expect parameter name."))]
    apply Gives.expect hpeek (hnames p hp)
    rw [hrest.eq_of_nil]
    exact .pure
  have hgives := items_complete (fun _ => rfl) parameters_succ n count
    (by simpa using hne) hitems (by simpa [Function.comp_def] using hseparated)
    (by simpa using hlength) htook hnext
  simpa [Function.comp_def] using hgives

theorem variableDeclaration_complete (n : Nat) (h : Variable xs s) (htook : Took c xs c') :
    c.kind = .varKw ∧ Gives c.advance (variableDeclaration n) s c' := by
  cases h with
  | plain hkeyword hname hsemicolon =>
      refine ⟨by rw [htook.kind, hkeyword], ?_⟩
      obtain ⟨-, hbefore, htook⟩ := htook.uncons
      obtain ⟨hpeek, -, htook⟩ := htook.uncons
      unfold variableDeclaration
      apply Gives.before hbefore
      apply Gives.expect hpeek hname
      apply Gives.pass (by rw [htook.kind, hsemicolon]; decide)
      apply Gives.pure.bind
      exact .closing htook hsemicolon
  | @initialized keyword name equals semicolon xs e hkeyword hname hequals he hsemicolon =>
      refine ⟨by rw [htook.kind, hkeyword], ?_⟩
      obtain ⟨-, hbefore, htook⟩ := htook.uncons
      obtain ⟨hpeek, -, htook⟩ := htook.uncons
      have hkind := htook.kind
      obtain ⟨-, -, htook⟩ := htook.uncons
      obtain ⟨c₁, hxs, hlast⟩ := htook.split
      have hcloses : Closes c₁.kind := by
        rw [hlast.kind, hsemicolon]
        decide
      unfold variableDeclaration
      apply Gives.before hbefore
      apply Gives.expect hpeek hname
      apply Gives.accept (hkind.trans hequals)
      apply (expression_complete he n hxs hcloses).given.bind
      simpa using Gives.closing (g := fun stop => Stmt.var ⟨keyword.span.start, stop⟩ name (some e))
        hlast hsemicolon

theorem expressionStatement_complete (n : Nat) (h : Effect xs s) (htook : Took c xs c') :
    Gives c (expressionStatement n) s c' := by
  cases h with
  | @mk semicolon xs e he hsemicolon =>
      obtain ⟨c₁, hxs, hlast⟩ := htook.split
      have hcloses : Closes c₁.kind := by
        rw [hlast.kind, hsemicolon]
        decide
      have hspan : covering (xs ++ [semicolon]) = ⟨e.span.start, semicolon.span.stop⟩ := by
        simp [he.ne_nil, he.span]
      rw [hspan]
      unfold expressionStatement
      apply (expression_complete he n hxs hcloses).bind
      exact .closing hlast hsemicolon

theorem forInitial_complete (n : Nat) {initial : Option Stmt} (h : Initial xs initial)
    (htook : Took c xs c') : Gives c (forInitial n) initial c' := by
  unfold forInitial
  cases h with
  | none hsemicolon =>
      apply Gives.accept (by rw [htook.kind, hsemicolon])
      obtain ⟨-, -, htook⟩ := htook.uncons
      rw [htook.eq_of_nil]
      exact .pure
  | var hvariable =>
      obtain ⟨hkind, hgives⟩ := variableDeclaration_complete n hvariable htook
      apply Gives.pass (by rw [hkind]; decide)
      apply Gives.accept hkind
      exact hgives.bind .pure
  | effect heffect =>
      have hbegins := heffect.begins
      apply Gives.pass (htook.kind_ne hbegins rfl)
      apply Gives.pass (htook.kind_ne hbegins rfl)
      exact (expressionStatement_complete n heffect htook).bind .pure

theorem condition_complete {β : Type} {rest : Expr → Parse β} {w : β} {opening closing : Token}
    {ys : List Token} {condition : Expr} {c'' : Cursor} {before after : String} (n : Nat)
    (hopening : opening.kind = .leftParen) (hcondition : Phrase .assignment xs condition)
    (hclosing : closing.kind = .rightParen) (htook : Took c (opening :: (xs ++ closing :: ys)) c')
    (hrest : ∀ c₁, Took c₁ ys c' → Gives c₁ (rest condition) w c'') :
    Gives c (expect .leftParen before >>= fun _ => expression n >>= fun condition =>
      expect .rightParen after >>= fun _ => rest condition) w c'' := by
  obtain ⟨hpeek, -, htook⟩ := htook.uncons
  obtain ⟨c₁, hxs, htook⟩ := htook.split
  have hcloses : Closes c₁.kind := by
    rw [htook.kind, hclosing]
    decide
  obtain ⟨hpeek₁, -, hys⟩ := htook.uncons
  apply Gives.expect hpeek hopening
  apply (expression_complete hcondition n hxs hcloses).bind
  apply Gives.expect hpeek₁ hclosing
  exact hrest _ hys

theorem optional_complete (n : Nat) {value : Option Expr} {k : Kind} (h : Optional xs value)
    (htook : Took c xs c') (hk : c'.kind = k) (hcloses : Closes k)
    (hstarts : startsExpression k = false) :
    Gives c (do if ← at? k then pure none else some <$> expression n) value c' := by
  cases h with
  | none =>
      rw [htook.eq_of_nil] at hk ⊢
      exact .present hk .pure
  | some he =>
      apply Gives.missing (htook.kind_ne he.begins hstarts)
      exact (expression_complete he n htook (hk ▸ hcloses)).given

end

/-- What may come after a statement that ends in an `if` without `else`. -/
def Follows (dangling : Bool) (c : Cursor) : Prop := dangling = true → c.kind ≠ .elseKw

theorem Gives.recovering {p : Parse Stmt} {s : Stmt} {c c' : Cursor} (h : Gives c p s c') :
    Gives c (Parser.recovering p) (some s) c' := by
  unfold Gives Parser.recovering at *
  rcases hpc : p c with ⟨reply, c₁⟩
  rw [hpc] at h
  cases reply with
  | ok v =>
      intro _
      cases h (by simp)
      rfl
  | failed => cases h (by simp)
  | outOfFuel => simp

theorem declarations_kind_ne_else {xs : List Token} {body : List Stmt} {c c' : Cursor}
    (h : Declarations xs body) (htook : Took c xs c') (hend : c'.kind ≠ .elseKw) :
    c.kind ≠ .elseKw := by
  cases h with
  | nil =>
      rw [htook.eq_of_nil] at hend
      exact hend
  | cons hfirst _ => exact htook.kind_ne hfirst.begins.append rfl

mutual

theorem declarations_complete (n : Nat) {inBlock : Bool} {xs : List Token} {body : List Stmt}
    {c c' : Cursor} (h : Declarations xs body) (htook : Took c xs c')
    (hend : c'.kind = .eof ∨ inBlock = true ∧ c'.kind = .rightBrace) :
    Gives c (declarations n inBlock) body c' := by
  match n with
  | 0 => exact .outOfFuel
  | n + 1 =>
      unfold declarations
      apply Gives.look
      apply Gives.look
      cases h with
      | nil =>
          rw [htook.eq_of_nil] at hend ⊢
          rw [if_pos (by rcases hend with h | ⟨rfl, h⟩ <;> simp [h])]
          exact .pure
      | @cons xs ys s rest hfirst hrest =>
          have hbegins : Begins startsDeclaration (xs ++ ys) := hfirst.begins.append
          have heof : c.kind ≠ .eof := htook.kind_ne hbegins rfl
          have hbrace : c.kind ≠ .rightBrace := htook.kind_ne hbegins rfl
          rw [if_neg (by simp [heof, hbrace])]
          obtain ⟨c₁, hxs, hys⟩ := htook.split
          have helse : c'.kind ≠ .elseKw := by
            rcases hend with h | ⟨-, h⟩ <;> rw [h] <;> decide
          have hnext := declarations_kind_ne_else hrest hys helse
          apply (declaration_complete n hfirst hxs hnext).recovering.bind
          exact (declarations_complete n hrest hys hend).bind .pure

theorem block_complete (n : Nat) {xs : List Token} {closing : Token} {body : List Stmt}
    {c c' : Cursor} (h : Declarations xs body) (hclosing : closing.kind = .rightBrace)
    (htook : Took c (xs ++ [closing]) c') : Gives c (block n) body c' := by
  match n with
  | 0 => exact .outOfFuel
  | n + 1 =>
      obtain ⟨c₁, hxs, hlast⟩ := htook.split
      have hkind : c₁.kind = .rightBrace := by rw [hlast.kind, hclosing]
      obtain ⟨hpeek, -, hlast⟩ := hlast.uncons
      unfold block
      apply (declarations_complete n h hxs (.inr ⟨rfl, hkind⟩)).bind
      apply Gives.expect hpeek hclosing
      rw [hlast.eq_of_nil]
      exact .pure

theorem declaration_complete (n : Nat) {xs : List Token} {s : Stmt} {c c' : Cursor}
    (h : Declaration xs s) (htook : Took c xs c') (hnext : c'.kind ≠ .elseKw) :
    Gives c (declaration n) s c' := by
  match n with
  | 0 => exact .outOfFuel
  | n + 1 =>
      unfold declaration
      cases h with
      | statement hstatement =>
          have hbegins := hstatement.begins
          apply Gives.pass (htook.kind_ne hbegins rfl)
          apply Gives.pass (htook.kind_ne hbegins rfl)
          apply Gives.pass (htook.kind_ne hbegins rfl)
          exact statement_complete n hstatement htook fun _ => hnext
      | var hvariable =>
          obtain ⟨hkind, hgives⟩ := variableDeclaration_complete n hvariable htook
          apply Gives.pass (by rw [hkind]; decide)
          apply Gives.pass (by rw [hkind]; decide)
          exact Gives.accept hkind hgives
      | function hkeyword hfunction =>
          have hkind : c.kind = .funKw := by rw [htook.kind, hkeyword]
          obtain ⟨-, hbefore, htook⟩ := htook.uncons
          apply Gives.pass (by rw [hkind]; decide)
          apply Gives.accept hkind
          apply Gives.before hbefore
          rw [covering_cons hfunction.ne_nil]
          exact (function_complete n "function" _ hfunction htook).bind .pure
      | classDecl hkeyword hname hsuper hopening hmethods hclosing =>
          apply Gives.accept (by rw [htook.kind, hkeyword])
          exact classDeclaration_complete n hname hsuper hopening hmethods hclosing htook

theorem classDeclaration_complete (n : Nat) {keyword name opening closing : Token}
    {xs ys : List Token} {superclass : Option Reference} {ds : List FunctionDecl}
    {c c' : Cursor} (hname : name.kind = .identifier) (hsuper : Superclass xs superclass)
    (hopening : opening.kind = .leftBrace) (hmethods : Methods ys ds)
    (hclosing : closing.kind = .rightBrace)
    (htook : Took c (keyword :: name :: (xs ++ opening :: (ys ++ [closing]))) c') :
    Gives c.advance (classDeclaration n)
      (.classDecl (covering (keyword :: name :: (xs ++ opening :: (ys ++ [closing])))) name
        superclass ds) c' := by
  match n with
  | 0 => exact .outOfFuel
  | n + 1 =>
      obtain ⟨-, hbefore, htook⟩ := htook.uncons
      obtain ⟨hpeek, -, htook⟩ := htook.uncons
      obtain ⟨c₁, hxs, htook⟩ := htook.split
      have hkind : c₁.kind = .leftBrace := by rw [htook.kind, hopening]
      obtain ⟨hpeek₁, -, htook⟩ := htook.uncons
      obtain ⟨c₂, hys, hlast⟩ := htook.split
      have hend : c₂.kind = .rightBrace := by rw [hlast.kind, hclosing]
      have hbody : Gives c₁ (do
          let _ ← expect .leftBrace "Expect '\x7b' before class body."
          let methods ← methods n
          let _ ← expect .rightBrace "Expect '\x7d' after class body."
          return Stmt.classDecl ⟨keyword.span.start, ← previousEnd⟩ name superclass methods)
          (.classDecl ⟨keyword.span.start, closing.span.stop⟩ name superclass ds) c' := by
        apply Gives.expect hpeek₁ hopening
        apply (methods_complete n hmethods hys hend).bind
        exact .closing hlast hclosing
      have hspan : covering (keyword :: name :: (xs ++ opening :: (ys ++ [closing]))) =
          ⟨keyword.span.start, closing.span.stop⟩ := by simp
      rw [hspan]
      unfold classDeclaration
      apply Gives.before hbefore
      apply Gives.expect hpeek hname
      cases hsuper with
      | none =>
          rw [hxs.eq_of_nil] at hkind hbody
          exact Gives.pass (by rw [hkind]; decide) hbody
      | some hless hparent =>
          apply Gives.accept (by rw [hxs.kind, hless])
          obtain ⟨-, -, hxs⟩ := hxs.uncons
          obtain ⟨hpeek', -, hxs⟩ := hxs.uncons
          rw [hxs.eq_of_nil] at hbody
          exact Gives.expect hpeek' hparent hbody

theorem methods_complete (n : Nat) {xs : List Token} {ds : List FunctionDecl} {c c' : Cursor}
    (h : Methods xs ds) (htook : Took c xs c') (hend : c'.kind = .rightBrace) :
    Gives c (methods n) ds c' := by
  match n with
  | 0 => exact .outOfFuel
  | n + 1 =>
      unfold methods
      apply Gives.look
      apply Gives.look
      cases h with
      | nil =>
          rw [htook.eq_of_nil] at hend ⊢
          rw [if_pos (by simp [hend])]
          exact .pure
      | @cons xs ys ps name body rest hfunction hrest =>
          obtain ⟨hname, zs, rfl⟩ := hfunction.begins
          obtain ⟨c₁, hxs, hys⟩ := htook.split
          have hkind : c.kind = .identifier := by rw [hxs.kind, hname]
          have hspan : covering (name :: zs) = ⟨name.span.start, (covering (name :: zs)).stop⟩ :=
            rfl
          rw [if_neg (by simp [hkind]), hspan]
          apply Gives.peek hxs.uncons.1
          apply (function_complete n "method" _ hfunction hxs).bind
          exact (methods_complete n hrest hys hend).bind .pure

theorem function_complete (n : Nat) (role : String) (start : Position) {xs ps : List Token}
    {name : Token} {body : List Stmt} {c c' : Cursor} (h : Function xs name ps body)
    (htook : Took c xs c') :
    Gives c (function n role start) (.mk ⟨start, (covering xs).stop⟩ name ps body) c' := by
  match n with
  | 0 => exact .outOfFuel
  | n + 1 =>
      have hwhole := htook
      cases h with
      | @mk _ opening closing brace last xs ys _ _ hname hopening hnames hseparated hlength
          hclosing hbrace hbody hlast =>
          obtain ⟨hpeek, -, htook⟩ := htook.uncons
          obtain ⟨hpeek₁, -, htook⟩ := htook.uncons
          obtain ⟨c₁, hxs, htook⟩ := htook.split
          have hend : c₁.kind = .rightParen := by rw [htook.kind, hclosing]
          obtain ⟨hpeek₂, -, htook⟩ := htook.uncons
          obtain ⟨hpeek₃, -, htook⟩ := htook.uncons
          have hps : Gives c.advance.advance
              (do if ← at? .rightParen then pure [] else parameters n 0) ps c₁ := by
            cases ps with
            | nil =>
                cases hseparated
                rw [hxs.eq_of_nil] at hend ⊢
                exact .present hend .pure
            | cons p ps =>
                have hbegins : Begins startsExpression xs :=
                  hseparated.begins (.cons (by rw [hnames p (by simp)]; rfl))
                apply Gives.missing (hxs.kind_ne hbegins rfl)
                exact parameters_complete n (by simp) hnames hseparated (by omega) hxs hend
          unfold function
          apply Gives.expect hpeek hname
          apply Gives.expect hpeek₁ hopening
          apply hps.choice
          apply Gives.expect hpeek₂ hclosing
          apply Gives.expect hpeek₃ hbrace
          apply (block_complete n hbody hlast htook).bind
          exact .previousEnd hwhole (by simp) .pure

theorem statement_complete (n : Nat) {dangling : Bool} {xs : List Token} {s : Stmt}
    {c c' : Cursor} (h : Statement dangling xs s) (htook : Took c xs c')
    (hnext : Follows dangling c') : Gives c (statement n) s c' := by
  match n with
  | 0 => exact .outOfFuel
  | n + 1 =>
      unfold statement
      have hwhole := htook
      cases h with
      | effect heffect =>
          have hbegins := heffect.begins
          apply Gives.pass (htook.kind_ne hbegins rfl)
          apply Gives.pass (htook.kind_ne hbegins rfl)
          apply Gives.pass (htook.kind_ne hbegins rfl)
          apply Gives.pass (htook.kind_ne hbegins rfl)
          apply Gives.pass (htook.kind_ne hbegins rfl)
          apply Gives.pass (htook.kind_ne hbegins rfl)
          exact expressionStatement_complete n heffect htook
      | @print keyword semicolon xs e hkeyword he hsemicolon =>
          have hkind : c.kind = .printKw := by rw [htook.kind, hkeyword]
          obtain ⟨-, hbefore, htook⟩ := htook.uncons
          obtain ⟨c₁, hxs, hlast⟩ := htook.split
          have hcloses : Closes c₁.kind := by
            rw [hlast.kind, hsemicolon]
            decide
          have hspan : covering (keyword :: (xs ++ [semicolon])) =
              ⟨keyword.span.start, semicolon.span.stop⟩ := by simp
          rw [hspan]
          apply Gives.pass (by rw [hkind]; decide)
          apply Gives.pass (by rw [hkind]; decide)
          apply Gives.accept hkind
          apply Gives.before hbefore
          apply (expression_complete he n hxs hcloses).bind
          exact .closing hlast hsemicolon
      | @ret keyword semicolon xs value hkeyword hvalue hsemicolon =>
          have hkind : c.kind = .returnKw := by rw [htook.kind, hkeyword]
          obtain ⟨-, hbefore, htook⟩ := htook.uncons
          obtain ⟨c₁, hxs, hlast⟩ := htook.split
          have hend : c₁.kind = .semicolon := by rw [hlast.kind, hsemicolon]
          have hspan : covering (keyword :: (xs ++ [semicolon])) =
              ⟨keyword.span.start, semicolon.span.stop⟩ := by simp
          rw [hspan]
          apply Gives.pass (by rw [hkind]; decide)
          apply Gives.pass (by rw [hkind]; decide)
          apply Gives.pass (by rw [hkind]; decide)
          apply Gives.accept hkind
          apply Gives.before hbefore
          apply (optional_complete n hvalue hxs hend (by decide) rfl).choice
          exact .closing hlast hsemicolon
      | @block opening closing xs body hopening hbody hclosing =>
          have hkind : c.kind = .leftBrace := by rw [htook.kind, hopening]
          obtain ⟨-, hbefore, htook⟩ := htook.uncons
          apply Gives.pass (by rw [hkind]; decide)
          apply Gives.pass (by rw [hkind]; decide)
          apply Gives.pass (by rw [hkind]; decide)
          apply Gives.pass (by rw [hkind]; decide)
          apply Gives.pass (by rw [hkind]; decide)
          apply Gives.accept hkind
          apply Gives.before hbefore
          apply (block_complete n hbody hclosing htook).bind
          exact .previousEnd hwhole (by simp) .pure
      | @loop keyword opening closing xs ys condition body _ hkeyword hopening hcondition
          hclosing hbody =>
          have hkind : c.kind = .whileKw := by rw [htook.kind, hkeyword]
          obtain ⟨-, hbefore, htook⟩ := htook.uncons
          apply Gives.pass (by rw [hkind]; decide)
          apply Gives.pass (by rw [hkind]; decide)
          apply Gives.pass (by rw [hkind]; decide)
          apply Gives.pass (by rw [hkind]; decide)
          apply Gives.accept hkind
          apply Gives.before hbefore
          apply condition_complete n hopening hcondition hclosing htook
          intro c₁ hys
          apply (statement_complete n hbody hys hnext).bind
          exact .previousEnd hwhole (by simp) .pure
      | forLoop hkeyword hopening hinitial hcondition hsemicolon hincrement hclosing hbody =>
          apply Gives.accept (by rw [htook.kind, hkeyword])
          exact forStatement_complete n hopening hinitial hcondition hsemicolon hincrement
            hclosing hbody htook hnext
      | branch hkeyword hopening hcondition hclosing honTrue =>
          have hkind : c.kind = .ifKw := by rw [htook.kind, hkeyword]
          apply Gives.pass (by rw [hkind]; decide)
          apply Gives.accept hkind
          exact ifStatement_complete n hopening hcondition hclosing honTrue htook (hnext rfl)
      | branchElse hkeyword hopening hcondition hclosing honTrue hword honFalse =>
          have hkind : c.kind = .ifKw := by rw [htook.kind, hkeyword]
          apply Gives.pass (by rw [hkind]; decide)
          apply Gives.accept hkind
          exact ifStatement_else_complete n hopening hcondition hclosing honTrue hword honFalse
            htook hnext

theorem forStatement_complete (n : Nat) {keyword opening semicolon closing : Token}
    {xs ys zs ws : List Token} {initial : Option Stmt} {condition increment : Option Expr}
    {body : Stmt} {dangling : Bool} {c c' : Cursor} (hopening : opening.kind = .leftParen)
    (hinitial : Initial xs initial) (hcondition : Optional ys condition)
    (hsemicolon : semicolon.kind = .semicolon) (hincrement : Optional zs increment)
    (hclosing : closing.kind = .rightParen) (hbody : Statement dangling ws body)
    (htook : Took c
      (keyword :: opening :: (xs ++ (ys ++ semicolon :: (zs ++ closing :: ws)))) c')
    (hnext : Follows dangling c') :
    Gives c.advance (forStatement n)
      (withInitial initial (.loop (covering
          (keyword :: opening :: (xs ++ (ys ++ semicolon :: (zs ++ closing :: ws)))))
        (conditionOr semicolon condition) (withIncrement body increment))) c' := by
  match n with
  | 0 => exact .outOfFuel
  | n + 1 =>
      obtain ⟨-, hbefore, hafter⟩ := htook.uncons
      obtain ⟨hpeek, -, htook⟩ := hafter.uncons
      obtain ⟨c₁, hxs, htook⟩ := htook.split
      obtain ⟨c₂, hys, htook⟩ := htook.split
      have hkind₂ : c₂.kind = .semicolon := by rw [htook.kind, hsemicolon]
      obtain ⟨hpeek₂, -, htook⟩ := htook.uncons
      obtain ⟨c₃, hzs, htook⟩ := htook.split
      have hkind₃ : c₃.kind = .rightParen := by rw [htook.kind, hclosing]
      obtain ⟨hpeek₃, -, hws⟩ := htook.uncons
      rw [← forLoop_eq (by simp) (by simp [hbody.span, hbody.ne_nil])]
      unfold forStatement
      apply Gives.before hbefore
      apply Gives.expect hpeek hopening
      apply (forInitial_complete n hinitial hxs).bind
      apply (optional_complete n hcondition hys hkind₂ (by decide) rfl).choice
      apply Gives.expect hpeek₂ hsemicolon
      apply (optional_complete n hincrement hzs hkind₃ (by decide) rfl).choice
      apply Gives.expect hpeek₃ hclosing
      apply (statement_complete n hbody hws hnext).bind
      exact .previousEnd hafter (by simp) .pure

theorem ifStatement_complete (n : Nat) {keyword opening closing : Token} {xs ys : List Token}
    {condition : Expr} {onTrue : Stmt} {dangling : Bool} {c c' : Cursor}
    (hopening : opening.kind = .leftParen) (hcondition : Phrase .assignment xs condition)
    (hclosing : closing.kind = .rightParen) (honTrue : Statement dangling ys onTrue)
    (htook : Took c (keyword :: opening :: (xs ++ closing :: ys)) c')
    (hnext : c'.kind ≠ .elseKw) :
    Gives c.advance (ifStatement n)
      (.branch (covering (keyword :: opening :: (xs ++ closing :: ys))) condition onTrue none)
      c' := by
  match n with
  | 0 => exact .outOfFuel
  | n + 1 =>
      obtain ⟨-, hbefore, hafter⟩ := htook.uncons
      have hnone : Gives c' (do if ← accept .elseKw then some <$> statement n else pure none)
          none c' := .pass hnext .pure
      unfold ifStatement
      apply Gives.before hbefore
      apply condition_complete n hopening hcondition hclosing hafter
      intro c₁ hys
      apply (statement_complete n honTrue hys fun _ => hnext).bind
      apply hnone.choice
      exact .previousEnd htook (by simp) .pure

theorem ifStatement_else_complete (n : Nat) {keyword opening closing word : Token}
    {xs ys zs : List Token} {condition : Expr} {onTrue onFalse : Stmt} {dangling : Bool}
    {c c' : Cursor} (hopening : opening.kind = .leftParen)
    (hcondition : Phrase .assignment xs condition) (hclosing : closing.kind = .rightParen)
    (honTrue : Statement false ys onTrue) (hword : word.kind = .elseKw)
    (honFalse : Statement dangling zs onFalse)
    (htook : Took c (keyword :: opening :: (xs ++ closing :: (ys ++ word :: zs))) c')
    (hnext : Follows dangling c') :
    Gives c.advance (ifStatement n)
      (.branch (covering (keyword :: opening :: (xs ++ closing :: (ys ++ word :: zs)))) condition
        onTrue (some onFalse)) c' := by
  match n with
  | 0 => exact .outOfFuel
  | n + 1 =>
      obtain ⟨-, hbefore, hafter⟩ := htook.uncons
      unfold ifStatement
      apply Gives.before hbefore
      apply condition_complete n hopening hcondition hclosing hafter
      intro c₁ hbranches
      obtain ⟨c₂, hys, helse⟩ := hbranches.split
      have hkind : c₂.kind = .elseKw := by rw [helse.kind, hword]
      obtain ⟨-, -, hzs⟩ := helse.uncons
      have hsome : Gives c₂ (do if ← accept .elseKw then some <$> statement n else pure none)
          (some onFalse) c' := .accept hkind (statement_complete n honFalse hzs hnext).given
      apply (statement_complete n honTrue hys (by simp [Follows])).bind
      apply hsome.choice
      exact .previousEnd htook (by simp) .pure

end

/-! ## Programs -/

theorem endIndex_append {xs : List Token} {e : Token} (he : e.kind = .eof)
    (hxs : ∀ t ∈ xs, t.kind ≠ .eof) : endIndex (xs ++ [e]) = xs.length := by
  have hnone : xs.findIdx (fun t => t.kind == .eof) = xs.length :=
    List.findIdx_eq_length_of_false (by simpa using hxs)
  simp [endIndex, List.findIdx_append, hnone, he]

/-- The program is read without problems exactly as the grammar says. -/
theorem program_eq_iff {xs : List Token} {e : Token} {body : List Stmt} (he : e.kind = .eof)
    (hxs : ∀ t ∈ xs, t.kind ≠ .eof) :
    program (xs ++ [e]) = (body, []) ↔ Declarations xs body := by
  have hstart : Cursor.start (xs ++ [e]) = { rest := xs ++ [e], last := e } := by
    simp [Cursor.start]
  have hclosed : ∃ e' ∈ xs ++ [e], e'.kind = .eof := ⟨e, by simp, he⟩
  constructor
  · intro hprogram
    obtain ⟨body', c, hat, hsettles, hrun⟩ := program_settles (.inr hclosed)
    obtain ⟨rfl, hreported⟩ := Prod.mk.inj (hsettles.symm.trans hprogram)
    have hclean : c.Clean := ⟨hreported, by rw [hat.last, hstart]; exact he⟩
    obtain ⟨ys, htook, hbody, -⟩ :=
      declarations_sound _ false _ _ c (hrun _ (Nat.le_refl _)) hclean
    have hrest : c.rest = [e] := by
      rw [hat.rest, endIndex_append he hxs]
      simp
    have hall : xs ++ [e] = ys ++ [e] := by
      rw [← hrest, ← htook.rest, hstart]
      simp [hrest]
    rwa [List.append_cancel_right hall]
  · intro hbody
    let c' : Cursor := { previous := xs.getLast?, rest := [e], last := e }
    have htook : Took (.start (xs ++ [e])) xs c' := by
      rw [hstart]
      exact ⟨rfl, by simp [c'], rfl, rfl, hxs⟩
    have hgives : Gives _ (declarations (fuelFor (xs ++ [e])) false) body c' :=
      declarations_complete _ hbody htook (.inl he)
    have hrun := hgives (declarations_fuelFor hclosed)
    unfold program
    rw [hrun]

/--
The parser accepts exactly the grammar: no problem is reported if and only if the tokens
before the end are a list of declarations, and the statements given are those declarations.
-/
theorem program_clean_iff_derivable {xs : List Token} {e : Token} (he : e.kind = .eof)
    (hxs : ∀ t ∈ xs, t.kind ≠ .eof) :
    ((program (xs ++ [e])).2 = [] ↔ ∃ body, Declarations xs body) ∧
      ∀ body, Declarations xs body → (program (xs ++ [e])).1 = body := by
  refine ⟨⟨fun hclean => ?_, ?_⟩, fun body hbody => ?_⟩
  · exact ⟨_, (program_eq_iff he hxs).mp (Prod.ext rfl hclean)⟩
  · rintro ⟨body, hbody⟩
    rw [(program_eq_iff he hxs).mpr hbody]
  · rw [(program_eq_iff he hxs).mpr hbody]

/-- `for (; a;) if (a) if (a) a.a = a; else return;` -/
def danglingTokens : List Token :=
  let a : Token := { kind := .identifier }
  [{ kind := .forKw }, { kind := .leftParen }, { kind := .semicolon }, a, { kind := .semicolon },
   { kind := .rightParen },
   { kind := .ifKw }, { kind := .leftParen }, a, { kind := .rightParen },
   { kind := .ifKw }, { kind := .leftParen }, a, { kind := .rightParen },
   a, { kind := .dot }, a, { kind := .equal }, a, { kind := .semicolon },
   { kind := .elseKw }, { kind := .returnKw }, { kind := .semicolon }]

theorem program_clean_iff_derivable_dangling :
    (∀ t ∈ danglingTokens, t.kind ≠ .eof) ∧
      ((program (danglingTokens ++ [{ kind := .eof }])).2 = [] ↔
        ∃ body, Declarations danglingTokens body) ∧
      ∀ body, Declarations danglingTokens body →
        (program (danglingTokens ++ [{ kind := .eof }])).1 = body :=
  ⟨by decide, program_clean_iff_derivable rfl (by decide)⟩

example : (program (danglingTokens ++ [{ kind := .eof }])).2 = [] ∧
    (program (danglingTokens ++ [{ kind := .elseKw }, { kind := .eof }])).2 ≠ [] := by decide

end Lox.Parser
