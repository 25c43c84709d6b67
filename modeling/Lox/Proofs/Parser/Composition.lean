import Lox.Proofs.Parser.Locality
import Lox.Proofs.Parser.Progress

/-!
Reading one program after another.

A declaration depends neither on the tokens after it nor on the token before it, and
none begins with `else`.  So the tokens of two programs without problems, one after the
other, are read as the declarations of both.
-/

namespace Lox.Parser

/-! ## The token before -/

/-- A value is given independently of the token before, and not at `else`. -/
def Fresh (p : Parse α) : Prop :=
  ∀ (c : Cursor) (previous : Option Token) v c', c.rest ≠ [] → p c = (.ok v, c') →
    c.kind ≠ .elseKw ∧ p { c with previous } = (.ok v, c')

theorem Cursor.advance_fresh {c : Cursor} (hrest : c.rest ≠ []) (hkind : c.kind ≠ .eof)
    (previous : Option Token) : ({ c with previous } : Cursor).advance = c.advance := by
  obtain ⟨t, rest, hrest⟩ := List.exists_cons_of_ne_nil hrest
  have ht : t.kind ≠ .eof := by simpa [kind, peek, hrest] using hkind
  simp [advance, hrest, ht]

namespace Fresh

variable {α β : Type} {p : Parse α} {f : α → Parse β}

theorem bind (hp : Fresh p) : Fresh (p >>= f) := by
  intro c previous w c₂ hrest hrun
  obtain ⟨v, c₁, hp₁, hf₁⟩ := bind_eq_ok hrun
  obtain ⟨hkind, hsame⟩ := hp c previous v c₁ hrest hp₁
  exact ⟨hkind, (bind_of_ok hsame).trans hf₁⟩

theorem accept {f : Bool → Parse β} {kind : Kind} (heof : kind ≠ .eof) (helse : kind ≠ .elseKw)
    (hf : Fresh (f false)) : Fresh (Parser.accept kind >>= f) := by
  intro c previous w c₂ hrest hrun
  obtain ⟨b, c₁, haccept, hf₁⟩ := bind_eq_ok hrun
  by_cases hkind : c.kind = kind
  · have hsame : Parser.accept kind { c with previous } = Parser.accept kind c := by
      have hadvance := Cursor.advance_fresh hrest (hkind ▸ heof) previous
      have hkind' : ({ c with previous } : Cursor).kind = kind := hkind
      simp [Parser.accept, hkind, hkind', hadvance]
    exact ⟨hkind ▸ helse, (bind_of_ok (hsame.trans haccept)).trans hf₁⟩
  · have hnone : Parser.accept kind c = (.ok false, c) := by simp [Parser.accept, hkind]
    have hnone' : Parser.accept kind { c with previous } = (.ok false, { c with previous }) := by
      have hkind' : ({ c with previous } : Cursor).kind ≠ kind := hkind
      simp [Parser.accept, hkind']
    rw [hnone] at haccept
    cases haccept
    rw [bind_of_ok hnone']
    exact hf c previous w c₂ hrest hf₁

end Fresh

theorem operand_fresh (n : Nat) : Fresh (operand n) := by
  intro c previous v c' hrest hrun
  cases n with
  | zero => cases hrun
  | succ n =>
      have hpeek : peek c = (.ok c.peek, c) := rfl
      have hpeek' : peek { c with previous } = (.ok c.peek, { c with previous }) := rfl
      have hnext (hkind : c.peek.kind ≠ .eof) : next { c with previous } = next c := by
        simp only [next, Cursor.advance_fresh hrest hkind previous]
        rfl
      unfold operand at hrun ⊢
      rw [bind_of_ok hpeek] at hrun
      rw [bind_of_ok hpeek']
      change c.peek.kind ≠ .elseKw ∧ _
      generalize c.peek.kind = kind at hrun hnext
      cases kind with
      | falseKw | trueKw | nilKw | number | string | thisKw | identifier | superKw | leftParen
      | bang | minus =>
          exact ⟨by decide, (bind_congr (hnext (by decide))).trans hrun⟩
      | _ => cases hrun

theorem expression_fresh (n : Nat) : Fresh (expression n) := by
  cases n with
  | zero => exact fun _ _ _ _ _ h => by cases h
  | succ n =>
      unfold expression
      refine Fresh.bind ?_
      cases n with
      | zero => exact fun _ _ _ _ _ h => by cases h
      | succ n => exact (operand_fresh n).bind

theorem statement_fresh (n : Nat) : Fresh (statement n) := by
  cases n with
  | zero => exact fun _ _ _ _ _ h => by cases h
  | succ n =>
      unfold statement
      refine .accept (by decide) (by decide) (.accept (by decide) (by decide) ?_)
      refine .accept (by decide) (by decide) (.accept (by decide) (by decide) ?_)
      refine .accept (by decide) (by decide) (.accept (by decide) (by decide) ?_)
      exact (expression_fresh n).bind

theorem declaration_fresh (n : Nat) : Fresh (declaration n) := by
  cases n with
  | zero => exact fun _ _ _ _ _ h => by cases h
  | succ n =>
      unfold declaration
      refine .accept (by decide) (by decide) (.accept (by decide) (by decide) ?_)
      exact .accept (by decide) (by decide) (statement_fresh n)

theorem recovering_fresh {n : Nat} {c c' : Cursor} {first : Option Stmt} (hrest : c.rest ≠ [])
    (previous : Option Token) (hrun : recovering (declaration n) c = (.ok first, c'))
    (hclean : c'.reported = []) :
    c.kind ≠ .elseKw ∧ recovering (declaration n) { c with previous } = (.ok first, c') := by
  have hfails := (declaration_honest n).fails c
  unfold recovering at hrun ⊢
  rcases hdeclaration : declaration n c with ⟨reply, c₁⟩
  rw [hdeclaration] at hrun hfails
  cases reply with
  | ok s =>
      cases hrun
      obtain ⟨hkind, hsame⟩ := declaration_fresh n c previous s c' hrest hdeclaration
      exact ⟨hkind, by rw [hsame]⟩
  | failed =>
      cases hrun
      exact absurd (by simpa [synchronize] using hclean) (hfails rfl)
  | outOfFuel => cases hrun

theorem declarations_fresh {n : Nat} {c c' : Cursor} {body : List Stmt} (hrest : c.rest ≠ [])
    (previous : Option Token) (hrun : declarations n false c = (.ok body, c'))
    (hclean : c'.reported = []) :
    c.kind ≠ .elseKw ∧ ∃ c'', declarations n false { c with previous } = (.ok body, c'') ∧
      c''.reported = [] := by
  cases n with
  | zero => cases hrun
  | succ n =>
      by_cases hkind : c.kind = .eof
      · rw [declarations_end n hkind] at hrun
        cases hrun
        refine ⟨by rw [hkind]; decide, { c with previous }, ?_, hclean⟩
        exact declarations_end n (c := { c with previous }) hkind
      · have hkind' : ({ c with previous } : Cursor).kind ≠ .eof := hkind
        rw [declarations_succ n hkind] at hrun
        obtain ⟨first, c₁, hfirst, hothers⟩ := bind_eq_ok hrun
        obtain ⟨rest, c₂, hrest₁, ⟨⟩⟩ := bind_eq_ok hothers
        have hclean₁ : c₁.reported = [] :=
          (declarations_honest n false).clean (by rw [hrest₁]; exact hclean)
        obtain ⟨helse, hsame⟩ := recovering_fresh hrest previous hfirst hclean₁
        refine ⟨helse, c', ?_, hclean⟩
        rw [declarations_succ n hkind', bind_of_ok hsame]
        exact hothers

/-! ## Two programs -/

theorem program_eq_of_clean {tokens : List Token} (h : ∃ e ∈ tokens, e.kind = .eof)
    (hclean : (program tokens).2 = []) :
    ∃ c, declarations (fuelFor tokens) false (.start tokens) = (.ok (program tokens).1, c) ∧
      c.reported = [] := by
  have henough := declarations_fuelFor h
  have hfails := (declarations_honest (fuelFor tokens) false).fails (.start tokens)
  unfold program at hclean ⊢
  rcases hrun : declarations (fuelFor tokens) false (.start tokens) with ⟨reply, c⟩
  rw [hrun] at henough hfails hclean
  cases reply with
  | ok body => exact ⟨c, rfl, hclean⟩
  | failed => exact absurd hclean (hfails rfl)
  | outOfFuel => exact absurd rfl henough

theorem declarations_more {n m : Nat} {previous : Option Token} {xs : List Token} {e : Token}
    {body : List Stmt} {c : Cursor} (he : e.kind = .eof) (hxs : ∀ t ∈ xs, t.kind ≠ .eof)
    (hrun : declarations n false { previous, rest := xs ++ [e], last := e } = (.ok body, c))
    (hclean : c.reported = []) (hnm : n ≤ m) (hm : xs.length < m) :
    ∃ c', declarations m false { previous, rest := xs ++ [e], last := e } = (.ok body, c') ∧
      c'.reported = [] := by
  -- the other way to go on is the end as well
  let E : Ending :=
    { stop := e, eof := he, first := e, notElse := by simp [he], others := [], last := e }
  obtain ⟨k, previous', hk, -, hlong⟩ := declarations_reads (E := E) n hxs hrun hclean
  obtain ⟨fuel, hfuel⟩ : ∃ fuel, m = fuel + 1 + k := ⟨m - k - 1, by omega⟩
  have hend : declarations (fuel + 1) false (E.long previous' []) = (.ok [], E.long previous' []) :=
    declarations_end fuel he
  refine ⟨E.long previous' [], ?_, rfl⟩
  rw [hfuel]
  refine (hlong (fuel + 1) (by omega)).trans ?_
  rw [bind_of_ok hend]
  simp [pure, Parse.pure]

/--
Two programs without problems, one after the other, are read as the statements of both.
-/
theorem program_append {xs ys : List Token} {e₁ e₂ : Token} (he₁ : e₁.kind = .eof)
    (he₂ : e₂.kind = .eof) (hxs : ∀ t ∈ xs, t.kind ≠ .eof) (hys : ∀ t ∈ ys, t.kind ≠ .eof)
    (hclean₁ : (program (xs ++ [e₁])).2 = []) (hclean₂ : (program (ys ++ [e₂])).2 = []) :
    program (xs ++ (ys ++ [e₂])) =
      ((program (xs ++ [e₁])).1 ++ (program (ys ++ [e₂])).1, []) := by
  obtain ⟨c₁, hrun₁, hc₁⟩ := program_eq_of_clean ⟨e₁, by simp, he₁⟩ hclean₁
  obtain ⟨c₂, hrun₂, hc₂⟩ := program_eq_of_clean ⟨e₂, by simp, he₂⟩ hclean₂
  generalize (program (xs ++ [e₁])).1 = body₁ at hrun₁ ⊢
  generalize (program (ys ++ [e₂])).1 = body₂ at hrun₂ ⊢
  have hstart : ∀ tokens (e : Token),
      Cursor.start (tokens ++ [e]) = { rest := tokens ++ [e], last := e } := by
    intro tokens e
    simp [Cursor.start]
  rw [hstart] at hrun₁ hrun₂
  obtain ⟨first, others, hothers⟩ := List.exists_cons_of_ne_nil (l := ys ++ [e₂]) (by simp)
  have hrest : ({ rest := ys ++ [e₂], last := e₂ } : Cursor).rest ≠ [] := by simp
  have hfirst : first.kind ≠ .elseKw := by
    have helse := (declarations_fresh hrest none hrun₂ hc₂).1
    simpa [Cursor.kind, Cursor.peek, hothers] using helse
  let E : Ending := { stop := e₁, eof := he₁, first, notElse := hfirst, others, last := e₂ }
  obtain ⟨k, previous, hk, -, hlong⟩ := declarations_reads (E := E) _ hxs hrun₁ hc₁
  obtain ⟨fuel, hfuel⟩ : ∃ fuel, fuelFor (xs ++ (ys ++ [e₂])) = fuel + k :=
    ⟨fuelFor (xs ++ (ys ++ [e₂])) - k, by simp only [fuelFor, List.length_append]; omega⟩
  simp only [fuelFor, List.length_append, List.length_singleton] at hfuel hrun₁ hrun₂ hlong
  -- the second program is read after the last token of the first, with more fuel
  obtain ⟨-, c₃, hrun₃, hc₃⟩ := declarations_fresh hrest previous hrun₂ hc₂
  obtain ⟨c₄, hrun₄, hc₄⟩ := declarations_more he₂ hys hrun₃ hc₃ (m := fuel) (by omega) (by omega)
  have hnext : E.long previous [] = { previous, rest := ys ++ [e₂], last := e₂ } := by
    simp [E, Ending.long, hothers]
  have hwhole : Cursor.start (xs ++ (ys ++ [e₂])) = E.long none xs := by
    rw [← List.append_assoc, hstart]
    simp [E, Ending.long, ← hothers]
  have hrun : declarations (fuelFor (xs ++ (ys ++ [e₂]))) false
      (.start (xs ++ (ys ++ [e₂]))) = (.ok (body₁ ++ body₂), c₄) := by
    rw [hwhole]
    simp only [fuelFor, List.length_append, List.length_singleton, hfuel]
    rw [hlong fuel (by omega), hnext, bind_of_ok hrun₄]
    rfl
  unfold program
  rw [hrun]
  simp [hc₄]

end Lox.Parser
