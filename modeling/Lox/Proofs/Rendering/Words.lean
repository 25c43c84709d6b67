import Lox.Proofs.Layout.Respelled
import Lox.Proofs.Ranges.Nesting
import Lox.Proofs.Safety.Parsing

/-!
The words of a tree.

Every token that a tree carries is a lexeme with the kind and the literal that belong to it,
of a kind that its node allows.  So the lexeme says all of a token but its place, and of a token
that can only be one word not even the lexeme is needed.  This holds of whatever is read from a
source, also where other declarations were dropped.
-/

namespace Lox

@[simp] theorem utf8_inj {s t : String} : utf8 s = utf8 t ↔ s = t := by
  simp [utf8, ← String.toByteArray_inj, ByteArray.ext_iff]

/-! ## Tokens as they are scanned -/

structure Token.Genuine (t : Token) : Prop where
  lexeme : Scan.IsLexeme t.lexeme
  content : t.content = Scan.contentOf t.lexeme

structure Token.Is (k : Kind) (t : Token) : Prop extends t.Genuine where
  kind : t.kind = k

theorem Scan.IsLexeme.mem_of_kindOf {s : Bytes} {k : Kind} (hs : IsLexeme s) (h : kindOf s = k)
    (hk : k.isLiteral = false) : (s, k) ∈ operators ++ Kind.reserved := by
  unfold kindOf at h
  cases hlookup : (operators ++ Kind.reserved).lookup s with
  | some other =>
      rw [hlookup] at h
      obtain ⟨before, after, hsplit, -⟩ := List.lookup_eq_some_iff.mp hlookup
      simp [hsplit, show other = k from h]
  | none =>
      rw [hlookup] at h
      cases s with
      | nil => exact absurd rfl hs.ne_nil
      | cons b tail =>
          dsimp only at h
          split at h
          · subst h; cases hk
          · split at h <;> subst h <;> cases hk

theorem Scan.eq_of_mem_fixed {s t : Bytes} {k : Kind} (hs : (s, k) ∈ operators ++ Kind.reserved)
    (ht : (t, k) ∈ operators ++ Kind.reserved) : s = t := by
  have hunique : ∀ entry ∈ operators ++ Kind.reserved, ∀ other ∈ operators ++ Kind.reserved,
      entry.2 = other.2 → entry.1 = other.1 := by
    decide +kernel
  exact hunique _ hs _ ht rfl

namespace Token

variable {t u : Token} {k : Kind}

theorem unplace_eq_of_content (h : t.content = u.content) : t.unplace = u.unplace := by
  simp only [content, Prod.mk.injEq] at h
  obtain ⟨hkind, hlexeme, hliteral⟩ := h
  simp [unplace, hkind, hlexeme, hliteral]

theorem Genuine.kind_eq (h : t.Genuine) : t.kind = Scan.kindOf t.lexeme :=
  congrArg Prod.fst h.content

theorem Genuine.literal_eq (h : t.Genuine) : t.literal = Scan.literalOf t.kind t.lexeme := by
  rw [h.kind_eq]
  exact congrArg (fun content => content.2.2) h.content

theorem Genuine.unplace_eq (ht : t.Genuine) (hu : u.Genuine) (h : t.lexeme = u.lexeme) :
    t.unplace = u.unplace := by
  apply unplace_eq_of_content
  rw [ht.content, hu.content, h]

theorem Is.mem_fixed (h : t.Is k) (hk : k.isLiteral = false) :
    (t.lexeme, k) ∈ Scan.operators ++ Kind.reserved :=
  h.lexeme.mem_of_kindOf (h.kind_eq.symm.trans h.kind) hk

theorem Is.unplace_eq (ht : t.Is k) (hu : u.Is k) (hk : k.isLiteral = false) :
    t.unplace = u.unplace :=
  ht.toGenuine.unplace_eq hu.toGenuine (Scan.eq_of_mem_fixed (ht.mem_fixed hk) (hu.mem_fixed hk))

end Token

theorem genuine_of_mem_scan {source : Bytes} {t : Token} (h : t ∈ (scan source).1)
    (hkind : t.kind ≠ .eof) : t.Genuine := by
  rcases List.mem_append.mp h with h | h
  · obtain ⟨s, hs, ht⟩ := List.mem_filterMap.mp h
    obtain ⟨hlexeme, hcontent⟩ := Scan.content_of_token? hs ht
    exact ⟨hlexeme, hcontent⟩
  · obtain rfl := List.mem_singleton.mp h
    exact absurd rfl hkind

/-! ## Properties of all nodes -/

inductive Expr.Every (P : Expr → Prop) : Expr → Prop where
  | intro {e : Expr} : P e → (∀ x ∈ e.operands, Expr.Every P x) → Expr.Every P e

inductive Stmt.Every (P : Expr → Prop) (Q : Stmt → Prop) : Stmt → Prop where
  | intro {s : Stmt} : Q s → (∀ e ∈ s.expressions, e.Every P) →
      (∀ t ∈ s.statements, Stmt.Every P Q t) → Stmt.Every P Q s

section

variable {P P' : Expr → Prop} {Q Q' : Stmt → Prop}

theorem Expr.Every.here {e : Expr} (h : e.Every P) : P e := by
  cases h
  assumption

theorem Expr.Every.operands {e : Expr} (h : e.Every P) : ∀ x ∈ e.operands, x.Every P := by
  cases h
  assumption

theorem Stmt.Every.here {s : Stmt} (h : s.Every P Q) : Q s := by
  cases h
  assumption

theorem Stmt.Every.expressions {s : Stmt} (h : s.Every P Q) : ∀ e ∈ s.expressions, e.Every P := by
  cases h
  assumption

theorem Stmt.Every.statements {s : Stmt} (h : s.Every P Q) :
    ∀ t ∈ s.statements, t.Every P Q := by
  cases h
  assumption

theorem Expr.Every.and {e : Expr} (h : e.Every P) (h' : e.Every P') :
    e.Every fun e => P e ∧ P' e := by
  induction h with
  | intro hhere _ ih => exact .intro ⟨hhere, h'.here⟩ fun x hx => ih x hx (h'.operands x hx)

theorem Stmt.Every.and {s : Stmt} (h : s.Every P Q) (h' : s.Every P' Q') :
    s.Every (fun e => P e ∧ P' e) fun s => Q s ∧ Q' s := by
  induction h with
  | intro hhere hexpressions _ ih =>
      refine .intro ⟨hhere, h'.here⟩ ?_ fun t ht => ih t ht (h'.statements t ht)
      exact fun e he => (hexpressions e he).and (h'.expressions e he)

end

/-! ## The words of a node -/

structure Reference.Uses (k : Kind) (r : Reference) : Prop where
  name : r.name.Is k
  hops : r.hops = none

def Literal.Written (value : Literal) : Prop :=
  ∀ x, value = .number x → ∃ t : Token, t.Is .number ∧ t.literal = .number x

def Expr.Worded : Expr → Prop
  | .absent => False
  | .literal _ value => value.Written
  | .grouping _ _ => True
  | .unary _ operator _ => operator.Genuine ∧ operator.kind.signs = true
  | .binary _ operator _ _ => operator.Genuine ∧ operator.kind.joins = true
  | .logical _ operator _ _ =>
      operator.Genuine ∧ (operator.kind = .andKw ∨ operator.kind = .orKw)
  | .var r | .assign r _ => r.Uses .identifier
  | .call _ _ paren _ => paren.Is .rightParen
  | .get _ _ name | .set _ _ name _ => name.Is .identifier
  | .thisRef r => r.Uses .thisKw
  | .superRef r method => r.Uses .superKw ∧ method.Is .identifier

def Stmt.Worded : Stmt → Prop
  | .var _ name _ | .classDecl _ name _ _ => name.Is .identifier
  | .function f => f.name.Is .identifier ∧ ∀ p ∈ f.parameters, p.Is .identifier
  | .ret _ keyword _ => keyword.Is .returnKw
  | _ => True

abbrev Expr.AllWorded (e : Expr) : Prop := e.Every Expr.Worded

abbrev Stmt.AllWorded (s : Stmt) : Prop := s.Every Expr.Worded Stmt.Worded

theorem Token.Genuine.written {t : Token} (h : t.Genuine)
    (hkind : t.kind = .number ∨ t.kind = .string) : t.literal.Written := by
  intro x hx
  rcases hkind with hkind | hkind
  · exact ⟨t, ⟨h, hkind⟩, hx⟩
  · simp [h.literal_eq, hkind, Scan.literalOf] at hx

namespace Parser

/-! ## Reading genuine tokens -/

/-- The tokens to come are genuine, and after the last one there is only the end. -/
structure Cursor.Genuine (c : Cursor) : Prop where
  rest : ∀ t ∈ c.rest, t.kind ≠ .eof → t.Genuine
  last : c.last.kind = .eof

namespace Cursor.Genuine

variable {c : Cursor}

theorem rest_eq (h : c.Genuine) (hkind : c.kind ≠ .eof) : ∃ rest, c.rest = c.peek :: rest := by
  cases hrest : c.rest with
  | nil => exact absurd (by simpa [Cursor.kind, Cursor.peek, hrest] using h.last) hkind
  | cons t rest => exact ⟨rest, by simp [Cursor.peek, hrest]⟩

theorem peek (h : c.Genuine) (hkind : c.kind ≠ .eof) : c.peek.Genuine := by
  obtain ⟨rest, hrest⟩ := h.rest_eq hkind
  exact h.rest c.peek (by simp [hrest]) hkind

theorem is (h : c.Genuine) {k : Kind} (hkind : c.kind = k) (hk : k ≠ .eof) : c.peek.Is k :=
  ⟨h.peek (hkind ▸ hk), hkind⟩

theorem before_advance (h : c.Genuine) (hkind : c.kind ≠ .eof) : c.advance.before = c.peek := by
  obtain ⟨rest, hrest⟩ := h.rest_eq hkind
  simp [Cursor.advance, hrest, Cursor.before, show c.peek.kind ≠ .eof from hkind]

theorem advance (h : c.Genuine) : c.advance.Genuine := by
  unfold Cursor.advance
  split
  · exact h
  · next t rest hrest =>
      split
      · exact h
      · exact ⟨fun u hu => h.rest u (by simp [hrest, hu]), h.last⟩

theorem synchronize (h : c.Genuine) : (synchronize c).Genuine :=
  ⟨fun t ht => h.advance.rest t (skip_subset _ _ ht), h.advance.last⟩

theorem start (source : Bytes) : (Cursor.start (scan source).1).Genuine where
  rest := fun _ ht => genuine_of_mem_scan ht
  last := by simp [Cursor.start, scan, Scan.endToken]

end Cursor.Genuine

instance : Kept Cursor.Genuine where
  advance h := h.advance
  report _ _ h := ⟨h.rest, h.last⟩
  synchronize h := h.synchronize

namespace Genuine

variable {α : Type} {Q : α → Prop} {k : Kind}

theorem peek : Yields Cursor.Genuine Parser.peek fun t => t.kind ≠ .eof → t.Genuine :=
  .peek Cursor.Genuine.peek

theorem acceptBefore {f : Token → Parse α} {q : Parse α} (hk : k ≠ .eof)
    (hf : ∀ t, t.Is k → Yields Cursor.Genuine (f t) Q) (hq : Yields Cursor.Genuine q Q) :
    Yields Cursor.Genuine
      (Parser.accept k >>= fun found => if found then Parser.before >>= f else q) Q := by
  intro c hc
  by_cases hkind : c.kind = k
  · have haccept : Parser.accept k c = (.ok true, c.advance) := by
      simp [Parser.accept, hkind]
    rw [bind_of_ok haccept]
    have hbefore : Parser.before c.advance = (.ok c.peek, c.advance) := by
      simp [Parser.before, hc.before_advance (hkind ▸ hk)]
    rw [if_pos rfl, bind_of_ok hbefore]
    exact hf c.peek (hc.is hkind hk) c.advance hc.advance
  · have haccept : Parser.accept k c = (.ok false, c) := by simp [Parser.accept, hkind]
    rw [bind_of_ok haccept]
    exact hq c hc

theorem expect (message : String) (hk : k ≠ .eof) :
    Yields Cursor.Genuine (Parser.expect k message) (Token.Is k) :=
  .expect message fun h hkind => h.is hkind hk

end Genuine

/-! ## Expressions -/

open Lox.Expr (AllWorded)

mutual

theorem expression_worded (n : Nat) : Yields Cursor.Genuine (expression n) AllWorded := by
  match n with
  | 0 => exact .outOfFuel
  | n + 1 =>
      unfold expression
      apply (operation_worded n 0).bind
      intro left hleft
      apply (Yields.accept _).bind
      intro found _
      apply Yields.ite
      · intro _
        apply Yields.before.bind
        intro equals _
        apply (expression_worded n).bind
        intro value hvalue
        cases left with
        | var r => exact .pure (.intro ⟨hleft.here.name, rfl⟩ (by simpa [Expr.operands]))
        | get span object name =>
            have hobject := hleft.operands object (by simp [Expr.operands])
            exact .pure (.intro hleft.here (by simpa [Expr.operands] using ⟨hobject, hvalue⟩))
        | _ =>
            apply (Yields.report _ _).bind
            intro _ _
            exact .pure hleft
      · intro _
        exact .pure hleft

theorem operation_worded (n power : Nat) :
    Yields Cursor.Genuine (operation n power) AllWorded := by
  match n with
  | 0 => exact .outOfFuel
  | n + 1 =>
      unfold operation
      apply (operand_worded n).bind
      intro left hleft
      exact operations_worded n power left hleft

theorem operations_worded (n power : Nat) (left : Expr) (hleft : left.AllWorded) :
    Yields Cursor.Genuine (operations n power left) AllWorded := by
  match n with
  | 0 => exact .outOfFuel
  | n + 1 =>
      intro c hc
      by_cases hpower : power < bindingPower c.kind
      · -- the operator is read at the very cursor that was looked at
        rw [operations_of_lt hpower]
        obtain ⟨hkept, hvalue⟩ := operator_worded n left hleft c hc (by omega)
        exact bind_yields hkept hvalue fun left' hleft' => operations_worded n power left' hleft'
      · rw [operations_of_le (by omega)]
        exact Yields.pure hleft c hc

theorem operand_worded (n : Nat) : Yields Cursor.Genuine (operand n) AllWorded := by
  match n with
  | 0 => exact .outOfFuel
  | n + 1 =>
      have constant (span : Span) {value : Literal} (hvalue : value.Written) :
          Yields Cursor.Genuine (Parser.next >>= fun _ => pure (.literal span value))
            AllWorded := by
        apply Yields.next.bind
        intro _ _
        exact .pure (.intro hvalue (by simp [Expr.operands]))
      unfold operand
      apply Genuine.peek.bind
      intro t ht
      split
      iterate 3 exact constant t.span (by simp [Literal.Written])
      · next hkind =>
          exact constant t.span ((ht (by simp [hkind])).written (.inl hkind))
      · next hkind =>
          exact constant t.span ((ht (by simp [hkind])).written (.inr hkind))
      · next hkind =>
          apply Yields.next.bind
          intro _ _
          exact .pure (.intro ⟨⟨ht (by simp [hkind]), hkind⟩, rfl⟩ (by simp [Expr.operands]))
      · next hkind =>
          apply Yields.next.bind
          intro _ _
          apply (Genuine.expect _ (by decide)).bind
          intro _ _
          apply (Genuine.expect _ (by decide)).bind
          intro method hmethod
          have hname : t.Is .superKw := ⟨ht (by simp [hkind]), hkind⟩
          exact .pure (.intro ⟨⟨hname, rfl⟩, hmethod⟩ (by simp [Expr.operands]))
      · next hkind =>
          apply Yields.next.bind
          intro _ _
          exact .pure (.intro ⟨⟨ht (by simp [hkind]), hkind⟩, rfl⟩ (by simp [Expr.operands]))
      · apply Yields.next.bind
        intro _ _
        apply (expression_worded n).bind
        intro inner hinner
        apply (Genuine.expect _ (by decide)).bind
        intro _ _
        exact .pure (.intro trivial (by simpa [Expr.operands]))
      iterate 2
        next hkind =>
          apply Yields.next.bind
          intro _ _
          apply (operation_worded n unaryPower).bind
          intro operand hoperand
          have hsign : t.kind.signs = true := by rw [hkind]; rfl
          exact .pure (.intro ⟨ht (by simp [hkind]), hsign⟩ (by simpa [Expr.operands]))
      · exact Yields.fail _ _

theorem operator_worded (n : Nat) (left : Expr) (hleft : left.AllWorded) (c : Cursor)
    (hc : c.Genuine) (hpos : 0 < bindingPower c.kind) :
    (operator n left c).2.Genuine ∧ ∀ e, (operator n left c).1 = .ok e → e.AllWorded := by
  match n with
  | 0 => exact Yields.outOfFuel c hc
  | n + 1 =>
      unfold operator
      apply bind_yields (p := next) (Q := fun t => t = c.peek) hc.advance
      · rintro t ⟨⟩
        rfl
      rintro t rfl
      have hgenuine : c.peek.Genuine := by
        apply hc.peek
        intro hend
        simp [hend, bindingPower] at hpos
      split
      · apply (Yields.at? _).bind
        intro _ _
        apply Yields.iteBind (Q := fun es => ∀ e ∈ es, e.AllWorded)
        · intro _
          exact .pure (by simp)
        · intro _
          exact arguments_worded n 0
        intro arguments harguments
        apply (Genuine.expect _ (by decide)).bind
        intro paren hparen
        exact .pure (.intro hparen (by simpa [Expr.operands] using ⟨hleft, harguments⟩))
      · apply (Genuine.expect _ (by decide)).bind
        intro name hname
        exact .pure (.intro hname (by simpa [Expr.operands]))
      iterate 2
        next hkind =>
          apply (operation_worded n _).bind
          intro right hright
          exact .pure (.intro ⟨hgenuine, by simp [hkind]⟩
            (by simpa [Expr.operands] using ⟨hleft, hright⟩))
      · next hparen hdot hand hor =>
          apply (operation_worded n _).bind
          intro right hright
          have hjoins := joins_of_bindingPower hpos hparen hdot hand hor
          exact .pure (.intro ⟨hgenuine, hjoins⟩
            (by simpa [Expr.operands] using ⟨hleft, hright⟩))

theorem arguments_worded (n count : Nat) : Yields Cursor.Genuine (arguments n count)
    fun es => ∀ e ∈ es, e.AllWorded := by
  match n with
  | 0 => exact .outOfFuel
  | n + 1 =>
      rw [arguments_succ]
      exact .counted ((expression_worded n).separated (arguments_worded n (count + 1)))

end

/-! ## Statements -/

theorem optional_worded (n : Nat) : Yields Cursor.Genuine (some <$> expression n)
    fun value => ∀ e ∈ value.toList, e.AllWorded :=
  (expression_worded n).map fun e he => by simpa using he

theorem missing_worded : Yields Cursor.Genuine (pure none)
    fun value : Option Expr => ∀ e ∈ value.toList, e.AllWorded :=
  .pure (by simp)

theorem parameters_worded (n count : Nat) : Yields Cursor.Genuine (parameters n count)
    fun ps => ∀ p ∈ ps, p.Is .identifier := by
  induction n generalizing count with
  | zero => exact .outOfFuel
  | succ n ih =>
      rw [parameters_succ]
      exact .counted ((Genuine.expect _ (by decide)).separated (ih (count + 1)))

theorem variableDeclaration_worded (n : Nat) :
    Yields Cursor.Genuine (variableDeclaration n) Stmt.AllWorded := by
  unfold variableDeclaration
  apply Yields.before.bind
  intro keyword _
  apply (Genuine.expect _ (by decide)).bind
  intro name hname
  apply (Yields.accept _).bind
  intro found _
  apply Yields.iteBind (fun _ => optional_worded n) (fun _ => missing_worded)
  intro initial hinitial
  apply (Genuine.expect _ (by decide)).bind
  intro _ _
  apply Yields.previousEnd.bind
  intro _ _
  exact .pure (.intro hname hinitial (by simp [Stmt.statements]))

theorem expressionStatement_worded (n : Nat) :
    Yields Cursor.Genuine (expressionStatement n) Stmt.AllWorded := by
  unfold expressionStatement
  apply (expression_worded n).bind
  intro e he
  apply (Genuine.expect _ (by decide)).bind
  intro _ _
  apply Yields.previousEnd.bind
  intro _ _
  exact .pure (.intro trivial (by simpa [Stmt.expressions]) (by simp [Stmt.statements]))

theorem forInitial_worded (n : Nat) : Yields Cursor.Genuine (forInitial n)
    fun initial => ∀ s ∈ initial, s.AllWorded := by
  unfold forInitial
  apply (Yields.accept _).bind
  intro found _
  apply Yields.ite
  · intro _
    exact .pure (by simp)
  · intro _
    apply (Yields.accept _).bind
    intro found _
    apply Yields.ite
    · intro _
      exact (variableDeclaration_worded n).bind fun s hs => .pure (by simpa using hs)
    · intro _
      exact (expressionStatement_worded n).bind fun s hs => .pure (by simpa using hs)

theorem forLoop_worded {start stop conditionEnd : Position} {initial : Option Stmt}
    {condition increment : Option Expr} {body : Stmt}
    (hinitial : ∀ s ∈ initial, s.AllWorded) (hcondition : ∀ e ∈ condition.toList, e.AllWorded)
    (hincrement : ∀ e ∈ increment.toList, e.AllWorded) (hbody : body.AllWorded) :
    (forLoop start stop initial condition conditionEnd increment body).AllWorded := by
  have htest : (condition.getD (.literal ⟨conditionEnd, conditionEnd⟩ (.bool true))).AllWorded := by
    cases condition with
    | none => exact .intro (by simp [Expr.Worded, Literal.Written]) (by simp [Expr.operands])
    | some e => exact hcondition e (by simp)
  unfold forLoop
  generalize condition.getD (.literal ⟨conditionEnd, conditionEnd⟩ (.bool true)) = test
    at htest ⊢
  have hloop {contents : Stmt} (hcontents : contents.AllWorded) :
      (Stmt.loop ⟨start, stop⟩ test contents).AllWorded :=
    .intro trivial (by simpa [Stmt.expressions]) (by simpa [Stmt.statements])
  have around {s loop : Stmt} (hs : s.AllWorded) (hloop : loop.AllWorded) :
      (Stmt.block ⟨start, stop⟩ [s, loop]).AllWorded :=
    .intro trivial (by simp [Stmt.expressions]) (by simpa [Stmt.statements] using ⟨hs, hloop⟩)
  cases increment with
  | none =>
      cases initial with
      | none => exact hloop hbody
      | some s => exact around (hinitial s rfl) (hloop hbody)
  | some e =>
      have heffect : (Stmt.expression e.span e).AllWorded :=
        .intro trivial (by simpa [Stmt.expressions] using hincrement) (by simp [Stmt.statements])
      have hboth : (Stmt.block ⟨body.span.start, stop⟩ [body, .expression e.span e]).AllWorded :=
        .intro trivial (by simp [Stmt.expressions])
          (by simpa [Stmt.statements] using ⟨hbody, heffect⟩)
      cases initial with
      | none => exact hloop hboth
      | some s => exact around (hinitial s rfl) (hloop hboth)

mutual

theorem declarations_worded (n : Nat) (inBlock : Bool) :
    Yields Cursor.Genuine (declarations n inBlock) fun body => ∀ s ∈ body, s.AllWorded := by
  match n with
  | 0 => exact .outOfFuel
  | n + 1 =>
      unfold declarations
      apply (Yields.at? _).bind
      intro atEnd _
      apply (Yields.at? _).bind
      intro atBrace _
      apply Yields.ite
      · intro _
        exact .pure (by simp)
      · intro _
        apply (Yields.recovering (declaration_worded n)).bind
        intro first hfirst
        apply (declarations_worded n inBlock).bind
        intro rest hrest
        apply Yields.pure
        cases first with
        | none => exact hrest
        | some s => exact List.forall_mem_cons.mpr ⟨hfirst s rfl, hrest⟩

theorem block_worded (n : Nat) :
    Yields Cursor.Genuine (block n) fun body => ∀ s ∈ body, s.AllWorded := by
  match n with
  | 0 => exact .outOfFuel
  | n + 1 =>
      unfold block
      apply (declarations_worded n true).bind
      intro body hbody
      apply (Genuine.expect _ (by decide)).bind
      intro _ _
      exact .pure hbody

theorem declaration_worded (n : Nat) : Yields Cursor.Genuine (declaration n) Stmt.AllWorded := by
  match n with
  | 0 => exact .outOfFuel
  | n + 1 =>
      unfold declaration
      apply (Yields.accept _).bind
      intro found _
      apply Yields.ite (fun _ => classDeclaration_worded n)
      intro _
      apply (Yields.accept _).bind
      intro found _
      apply Yields.ite
      · intro _
        apply Yields.before.bind
        intro keyword _
        apply (function_worded n _ _).bind
        intro f hf
        exact .pure hf
      intro _
      apply (Yields.accept _).bind
      intro found _
      exact .ite (fun _ => variableDeclaration_worded n) fun _ => statement_worded n

theorem classDeclaration_worded (n : Nat) :
    Yields Cursor.Genuine (classDeclaration n) Stmt.AllWorded := by
  match n with
  | 0 => exact .outOfFuel
  | n + 1 =>
      unfold classDeclaration
      apply Yields.before.bind
      intro keyword _
      apply (Genuine.expect _ (by decide)).bind
      intro name hname
      have hbody (parent : Option Reference)
          (hparent : ∀ r ∈ parent.toList, r.Uses .identifier) :
          Yields Cursor.Genuine (do
            let _ ← expect .leftBrace "Expect '\x7b' before class body."
            let methods ← methods n
            let _ ← expect .rightBrace "Expect '\x7d' after class body."
            return Stmt.classDecl ⟨keyword.span.start, ← previousEnd⟩ name parent methods)
          Stmt.AllWorded := by
        apply (Genuine.expect _ (by decide)).bind
        intro _ _
        apply (methods_worded n).bind
        intro methods hmethods
        apply (Genuine.expect _ (by decide)).bind
        intro _ _
        apply Yields.previousEnd.bind
        intro _ _
        refine .pure (.intro hname ?_ ?_)
        · intro e he
          obtain ⟨r, hr, rfl⟩ := List.mem_map.mp he
          exact .intro (hparent r hr) (by simp [Expr.operands])
        · intro t ht
          obtain ⟨f, hf, rfl⟩ := List.mem_map.mp ht
          exact hmethods f hf
      apply (Yields.accept _).bind
      intro found _
      apply Yields.ite
      · intro _
        apply (Genuine.expect _ (by decide)).bind
        intro parent hparent
        apply hbody (some { span := parent.span, name := parent })
        simpa using ⟨hparent, rfl⟩
      · intro _
        exact hbody none (by simp)

theorem methods_worded (n : Nat) : Yields Cursor.Genuine (methods n)
    fun fs => ∀ f ∈ fs, (Stmt.function f).AllWorded := by
  match n with
  | 0 => exact .outOfFuel
  | n + 1 =>
      unfold methods
      apply (Yields.at? _).bind
      intro atBrace _
      apply (Yields.at? _).bind
      intro atEnd _
      apply Yields.ite
      · intro _
        exact .pure (by simp)
      · intro _
        apply Genuine.peek.bind
        intro t _
        apply (function_worded n _ _).bind
        intro first hfirst
        apply (methods_worded n).bind
        intro rest hrest
        exact .pure (List.forall_mem_cons.mpr ⟨hfirst, hrest⟩)

theorem function_worded (n : Nat) (role : String) (start : Position) :
    Yields Cursor.Genuine (function n role start) fun f => (Stmt.function f).AllWorded := by
  match n with
  | 0 => exact .outOfFuel
  | n + 1 =>
      unfold function
      apply (Genuine.expect _ (by decide)).bind
      intro name hname
      apply (Genuine.expect _ (by decide)).bind
      intro _ _
      apply (Yields.at? _).bind
      intro _ _
      apply Yields.iteBind (fun _ => .pure (by simp)) (fun _ => parameters_worded n 0)
      intro ps hps
      apply (Genuine.expect _ (by decide)).bind
      intro _ _
      apply (Genuine.expect _ (by decide)).bind
      intro _ _
      apply (block_worded n).bind
      intro body hbody
      apply Yields.previousEnd.bind
      intro _ _
      exact .pure (.intro ⟨hname, hps⟩ (by simp [Stmt.expressions]) hbody)

theorem statement_worded (n : Nat) : Yields Cursor.Genuine (statement n) Stmt.AllWorded := by
  match n with
  | 0 => exact .outOfFuel
  | n + 1 =>
      unfold statement
      apply (Yields.accept _).bind
      intro found _
      apply Yields.ite (fun _ => forStatement_worded n)
      intro _
      apply (Yields.accept _).bind
      intro found _
      apply Yields.ite (fun _ => ifStatement_worded n)
      intro _
      apply (Yields.accept _).bind
      intro found _
      apply Yields.ite
      · intro _
        apply Yields.before.bind
        intro keyword _
        apply (expression_worded n).bind
        intro e he
        apply (Genuine.expect _ (by decide)).bind
        intro _ _
        apply Yields.previousEnd.bind
        intro _ _
        exact .pure (.intro trivial (by simpa [Stmt.expressions]) (by simp [Stmt.statements]))
      intro _
      apply Genuine.acceptBefore (by decide)
      · intro keyword hkeyword
        apply (Yields.at? _).bind
        intro _ _
        apply Yields.iteBind (fun _ => missing_worded) (fun _ => optional_worded n)
        intro value hvalue
        apply (Genuine.expect _ (by decide)).bind
        intro _ _
        apply Yields.previousEnd.bind
        intro _ _
        exact .pure (.intro hkeyword hvalue (by simp [Stmt.statements]))
      apply (Yields.accept _).bind
      intro found _
      apply Yields.ite
      · intro _
        apply Yields.before.bind
        intro keyword _
        apply (Genuine.expect _ (by decide)).bind
        intro _ _
        apply (expression_worded n).bind
        intro condition hcondition
        apply (Genuine.expect _ (by decide)).bind
        intro _ _
        apply (statement_worded n).bind
        intro body hbody
        apply Yields.previousEnd.bind
        intro _ _
        exact .pure (.intro trivial (by simpa [Stmt.expressions]) (by simpa [Stmt.statements]))
      intro _
      apply (Yields.accept _).bind
      intro found _
      apply Yields.ite
      · intro _
        apply Yields.before.bind
        intro brace _
        apply (block_worded n).bind
        intro body hbody
        apply Yields.previousEnd.bind
        intro _ _
        exact .pure (.intro trivial (by simp [Stmt.expressions]) hbody)
      · intro _
        exact expressionStatement_worded n

theorem forStatement_worded (n : Nat) :
    Yields Cursor.Genuine (forStatement n) Stmt.AllWorded := by
  match n with
  | 0 => exact .outOfFuel
  | n + 1 =>
      unfold forStatement
      apply Yields.before.bind
      intro keyword _
      apply (Genuine.expect _ (by decide)).bind
      intro _ _
      apply (forInitial_worded n).bind
      intro initial hinitial
      apply (Yields.at? _).bind
      intro _ _
      apply Yields.iteBind (fun _ => missing_worded) (fun _ => optional_worded n)
      intro condition hcondition
      apply (Genuine.expect _ (by decide)).bind
      intro _ _
      apply (Yields.at? _).bind
      intro _ _
      apply Yields.iteBind (fun _ => missing_worded) (fun _ => optional_worded n)
      intro increment hincrement
      apply (Genuine.expect _ (by decide)).bind
      intro _ _
      apply (statement_worded n).bind
      intro body hbody
      apply Yields.previousEnd.bind
      intro _ _
      exact .pure (forLoop_worded hinitial hcondition hincrement hbody)

theorem ifStatement_worded (n : Nat) : Yields Cursor.Genuine (ifStatement n) Stmt.AllWorded := by
  match n with
  | 0 => exact .outOfFuel
  | n + 1 =>
      unfold ifStatement
      apply Yields.before.bind
      intro keyword _
      apply (Genuine.expect _ (by decide)).bind
      intro _ _
      apply (expression_worded n).bind
      intro condition hcondition
      apply (Genuine.expect _ (by decide)).bind
      intro _ _
      apply (statement_worded n).bind
      intro onTrue honTrue
      apply (Yields.accept _).bind
      intro found _
      apply Yields.iteBind (Q := fun s : Option Stmt => ∀ x ∈ s.toList, x.AllWorded)
      · intro _
        exact (statement_worded n).map fun s hs => by simpa using hs
      · intro _
        exact .pure (by simp)
      intro onFalse honFalse
      apply Yields.previousEnd.bind
      intro _ _
      exact .pure (.intro trivial (by simpa [Stmt.expressions])
        (List.forall_mem_cons.mpr ⟨honTrue, honFalse⟩))

end

end Parser

/-! ## Whole inputs -/

theorem parse_worded (source : Bytes) : ∀ s ∈ (parse source).1, s.AllWorded := by
  have hvalue := (Parser.declarations_worded (Parser.fuelFor (scan source).1) false _
    (Parser.Cursor.Genuine.start source)).2
  change ∀ s ∈ (Parser.program (scan source).1).1, s.AllWorded
  unfold Parser.program
  rcases hrun : Parser.declarations (Parser.fuelFor (scan source).1) false
    (.start (scan source).1) with ⟨reply, c⟩
  rw [hrun] at hvalue
  cases reply with
  | ok body => exact hvalue body rfl
  | failed | outOfFuel => simp

theorem parseExpression_worded (source : Bytes) :
    ∀ e ∈ (parseExpression source).1, e.AllWorded := by
  have hvalue := (Parser.expression_worded (Parser.fuelFor (scan source).1) _
    (Parser.Cursor.Genuine.start source)).2
  change ∀ e ∈ (Parser.soleExpression (scan source).1).1, e.AllWorded
  unfold Parser.soleExpression
  split
  · next e c hrun =>
      rw [hrun] at hvalue
      rintro _ ⟨⟩
      exact hvalue e rfl
  · simp

/-! ## Trees of a source -/

inductive Tree where
  | expr (e : Expr)
  | stmt (s : Stmt)

namespace Tree

def children : Tree → List Tree
  | .expr e => e.operands.map .expr
  | .stmt s => s.expressions.map .expr ++ s.statements.map .stmt

/-- What is read from the source, as a program or as one expression, with every node in it. -/
inductive OfSource (source : Bytes) : Tree → Prop where
  | statement {s : Stmt} : s ∈ (parse source).1 → OfSource source (.stmt s)
  | expression {e : Expr} : (parseExpression source).1 = some e → OfSource source (.expr e)
  | child {tree node : Tree} : OfSource source tree → node ∈ tree.children → OfSource source node

def Every (P : Expr → Prop) (Q : Stmt → Prop) : Tree → Prop
  | .expr e => e.Every P
  | .stmt s => s.Every P Q

theorem Every.child {P : Expr → Prop} {Q : Stmt → Prop} {tree node : Tree} (h : tree.Every P Q)
    (hnode : node ∈ tree.children) : node.Every P Q := by
  cases tree with
  | expr e =>
      obtain ⟨x, hx, rfl⟩ := List.mem_map.mp hnode
      exact Expr.Every.operands h x hx
  | stmt s =>
      rcases List.mem_append.mp hnode with hnode | hnode
      · obtain ⟨e, he, rfl⟩ := List.mem_map.mp hnode
        exact Stmt.Every.expressions h e he
      · obtain ⟨t, ht, rfl⟩ := List.mem_map.mp hnode
        exact Stmt.Every.statements h t ht

theorem OfSource.worded {source : Bytes} {tree : Tree} (h : tree.OfSource source) :
    tree.Every Expr.Worded Stmt.Worded := by
  induction h with
  | statement hs => exact parse_worded source _ hs
  | expression he => exact parseExpression_worded source _ he
  | child _ hnode ih => exact ih.child hnode

end Tree

end Lox
