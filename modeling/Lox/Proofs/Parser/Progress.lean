import Lox.Proofs.Parser.Lists

/-!
Reading comes to an end.

A closed cursor has an `eof` token before it, which it never passes.  How far away that
token is bounds the fuel that a parser needs: a step into a part costs one unit, and at
most a few parts are entered before a token is taken.
-/

namespace Lox.Parser

namespace Cursor

def Closed (c : Cursor) : Prop := ∃ e ∈ c.rest, e.kind = .eof

def remaining (c : Cursor) : Nat := (c.rest.takeWhile fun t => t.kind != .eof).length

theorem remaining_of_eof {c : Cursor} (hc : c.Closed) (h : c.kind = .eof) :
    c.remaining = 0 ∧ c.advance = c := by
  obtain ⟨previous, rest, last, reported⟩ := c
  cases rest with
  | nil => simp [Closed] at hc
  | cons t rest =>
      have ht : t.kind = .eof := h
      simp [remaining, advance, ht]

theorem remaining_advance {c : Cursor} (hc : c.Closed) (h : c.kind ≠ .eof) :
    c.advance.Closed ∧ c.advance.remaining + 1 = c.remaining := by
  obtain ⟨previous, rest, last, reported⟩ := c
  cases rest with
  | nil => simp [Closed] at hc
  | cons t rest =>
      have ht : t.kind ≠ .eof := h
      simpa [Closed, remaining, advance, ht] using hc

theorem advance_le {c : Cursor} (hc : c.Closed) :
    c.advance.Closed ∧ c.advance.remaining ≤ c.remaining := by
  by_cases h : c.kind = .eof
  · rw [(remaining_of_eof hc h).2]
    exact ⟨hc, Nat.le_refl _⟩
  · obtain ⟨hclosed, hremaining⟩ := remaining_advance hc h
    exact ⟨hclosed, by omega⟩

end Cursor

theorem skip_closed (previous : Option Token) {tokens : List Token}
    (h : ∃ e ∈ tokens, e.kind = .eof) :
    (∃ e ∈ (skip previous tokens).2, e.kind = .eof) ∧
      ((skip previous tokens).2.takeWhile fun t => t.kind != .eof).length ≤
        (tokens.takeWhile fun t => t.kind != .eof).length := by
  induction tokens generalizing previous with
  | nil => simp at h
  | cons t rest ih =>
      unfold skip
      split
      · exact ⟨h, Nat.le_refl _⟩
      · rename_i hstop
        have ht : t.kind ≠ .eof := by
          intro ht
          simp [ht] at hstop
        have hrest : ∃ e ∈ rest, e.kind = .eof := by simpa [ht] using h
        obtain ⟨hclosed, hle⟩ := ih (some t) hrest
        refine ⟨hclosed, ?_⟩
        simp only [List.takeWhile_cons, ht, bne_iff_ne, ne_eq, not_false_eq_true, if_true,
          List.length_cons]
        omega

theorem Cursor.remaining_synchronize {c : Cursor} (hc : c.Closed) :
    (synchronize c).Closed ∧ (synchronize c).remaining ≤ c.remaining - 1 := by
  obtain ⟨hclosed, hle⟩ := skip_closed c.advance.previous (advance_le hc).1
  refine ⟨hclosed, Nat.le_trans hle ?_⟩
  change c.advance.remaining ≤ c.remaining - 1
  by_cases h : c.kind = .eof
  · obtain ⟨hzero, hsame⟩ := remaining_of_eof hc h
    rw [hsame]
    omega
  · have hadvance := remaining_advance hc h
    omega

/--
From this cursor the end is never passed.  A value is given only after `least` tokens
were taken, and the fuel is enough if fewer than `limit` tokens are before the end.
-/
structure Advances (c : Cursor) (least limit : Nat) (p : Parse α) : Prop where
  closed : (p c).2.Closed
  le : (p c).2.remaining ≤ c.remaining
  taken : ∀ v, (p c).1 = .ok v → (p c).2.remaining + least ≤ c.remaining
  enough : c.remaining < limit → (p c).1 ≠ .outOfFuel

def Progress (least limit : Nat) (p : Parse α) : Prop :=
  ∀ c : Cursor, c.Closed → Advances c least limit p

namespace Advances

variable {α β : Type} {c : Cursor} {least limit k : Nat} {p : Parse α} {f : α → Parse β}

theorem bind (hp : Advances c k limit p)
    (hf : ∀ v, Progress (least - k) (limit - k) (f v)) : Advances c least limit (p >>= f) := by
  obtain ⟨hclosed, hle, htaken, henough⟩ := hp
  have hrun : (p >>= f) c = Parse.bind p f c := rfl
  unfold Parse.bind at hrun
  rcases hp : p c with ⟨reply, c'⟩
  rw [hp] at hclosed hle htaken henough hrun
  cases reply with
  | ok v =>
      have htaken := htaken v rfl
      have hnext := hf v c' hclosed
      have hle' := hnext.le
      dsimp only at hrun hle htaken
      refine ⟨hrun ▸ hnext.closed, ?_, fun w hw => ?_, fun hlt => ?_⟩
      · rw [hrun]
        omega
      · rw [hrun] at hw ⊢
        have htaken' := hnext.taken w hw
        omega
      · rw [hrun]
        exact hnext.enough (by omega)
  | failed => exact ⟨hrun ▸ hclosed, hrun ▸ hle, by simp [hrun], by simp [hrun]⟩
  | outOfFuel =>
      refine ⟨hrun ▸ hclosed, hrun ▸ hle, by simp [hrun], fun hlt => ?_⟩
      exact absurd rfl (henough hlt)

theorem ite {b : Prop} [Decidable b] {q : Parse α} (hp : b → Advances c least limit p)
    (hq : ¬b → Advances c least limit q) : Advances c least limit (if b then p else q) := by
  by_cases h : b
  · simpa [h] using hp h
  · simpa [h] using hq h

theorem peek {f : Token → Parse β} (h : Advances c least limit (f c.peek)) :
    Advances c least limit (Parser.peek >>= f) :=
  ⟨h.closed, h.le, h.taken, h.enough⟩

theorem at? {f : Bool → Parse β} (kind : Kind)
    (h : Advances c least limit (f (c.kind = kind))) :
    Advances c least limit (Parser.at? kind >>= f) :=
  ⟨h.closed, h.le, h.taken, h.enough⟩

theorem next (hc : c.Closed) (hkind : c.kind ≠ .eof) : Advances c 1 limit Parser.next := by
  obtain ⟨hclosed, hremaining⟩ := Cursor.remaining_advance hc hkind
  refine ⟨hclosed, ?_, fun _ _ => Nat.le_of_eq hremaining, fun _ h => by cases h⟩
  change c.advance.remaining ≤ c.remaining
  omega

theorem nextAtEnd {f : Token → Parse β} (hc : c.Closed) (hkind : c.kind = .eof)
    (h : Advances c least limit (f c.peek)) : Advances c least limit (Parser.next >>= f) := by
  have hrun : (Parser.next >>= f) c = f c.peek c := by
    change f c.peek c.advance = f c.peek c
    rw [(Cursor.remaining_of_eof hc hkind).2]
  obtain ⟨hclosed, hle, htaken, henough⟩ := h
  exact ⟨hrun ▸ hclosed, hrun ▸ hle, hrun ▸ htaken, hrun ▸ henough⟩

theorem recovering {p : Parse Stmt} (hkind : c.kind ≠ .eof) (hc : c.Closed)
    (h : Advances c 1 limit p) : Advances c 1 limit (Parser.recovering p) := by
  have hpos : 0 < c.remaining := by
    have hadvance := Cursor.remaining_advance hc hkind
    omega
  obtain ⟨hclosed, hle, htaken, henough⟩ := h
  rcases hp : p c with ⟨reply, c'⟩
  rw [hp] at hclosed hle htaken henough
  cases reply with
  | ok s =>
      have hrun : Parser.recovering p c = (.ok (some s), c') := by simp [Parser.recovering, hp]
      have htaken := htaken s rfl
      exact ⟨hrun ▸ hclosed, hrun ▸ hle, fun _ _ => by rwa [hrun], by simp [hrun]⟩
  | failed =>
      have hrun : Parser.recovering p c = (.ok none, synchronize c') := by
        simp [Parser.recovering, hp]
      obtain ⟨hclosed', hle'⟩ := Cursor.remaining_synchronize hclosed
      dsimp only at hle hle'
      refine ⟨hrun ▸ hclosed', ?_, fun _ _ => ?_, by simp [hrun]⟩
      · rw [hrun]
        dsimp only
        omega
      · rw [hrun]
        dsimp only
        omega
  | outOfFuel =>
      have hrun : Parser.recovering p c = (.outOfFuel, c') := by simp [Parser.recovering, hp]
      exact ⟨hrun ▸ hclosed, hrun ▸ hle, by simp [hrun], fun hlt => absurd rfl (henough hlt)⟩

end Advances

namespace Progress

variable {α β : Type} {least limit k : Nat} {p : Parse α} {f : α → Parse β}

theorem mono (h : Progress k limit p) (hleast : least ≤ k) : Progress least limit p := by
  intro c hc
  obtain ⟨hclosed, hle, htaken, henough⟩ := h c hc
  refine ⟨hclosed, hle, fun v hv => ?_, henough⟩
  have htaken := htaken v hv
  omega

theorem pure (v : α) : Progress 0 limit (Pure.pure v : Parse α) :=
  fun _ hc => ⟨hc, Nat.le_refl _, fun _ _ => Nat.le_refl _, fun _ h => by cases h⟩

theorem bind (hp : Progress k limit p)
    (hf : ∀ v, Progress (least - k) (limit - k) (f v)) : Progress least limit (p >>= f) :=
  fun c hc => (hp c hc).bind hf

theorem map {f : α → β} (hp : Progress k limit p) : Progress k limit (f <$> p) :=
  hp.bind fun v => (pure (f v)).mono (by omega)

theorem ite {b : Prop} [Decidable b] {q : Parse α} (hp : Progress least limit p)
    (hq : Progress least limit q) : Progress least limit (if b then p else q) :=
  fun c hc => .ite (fun _ => hp c hc) fun _ => hq c hc

theorem iteBind {b : Prop} [Decidable b] {q : Parse α} (hp : Progress k limit p)
    (hq : Progress k limit q) (hf : ∀ v, Progress (least - k) (limit - k) (f v)) :
    Progress least limit (if b then p >>= f else q >>= f) :=
  .ite (hp.bind hf) (hq.bind hf)

theorem outOfFuel (h : limit = 0) : Progress least limit (Parser.outOfFuel : Parse α) :=
  fun _ hc => ⟨hc, Nat.le_refl _, by simp [Parser.outOfFuel], by omega⟩

theorem fail (problem : Problem) (t : Token) :
    Progress least limit (Parser.fail problem t : Parse α) :=
  fun _ hc => ⟨hc, Nat.le_refl _, by simp [Parser.fail], by simp [Parser.fail]⟩

theorem report (problem : Problem) (t : Token) : Progress 0 limit (Parser.report problem t) :=
  fun _ hc => ⟨hc, Nat.le_refl _, fun _ _ => Nat.le_refl _, fun _ h => by cases h⟩

theorem peek : Progress 0 limit Parser.peek :=
  fun _ hc => ⟨hc, Nat.le_refl _, fun _ _ => Nat.le_refl _, fun _ h => by cases h⟩

theorem before : Progress 0 limit Parser.before :=
  fun _ hc => ⟨hc, Nat.le_refl _, fun _ _ => Nat.le_refl _, fun _ h => by cases h⟩

theorem previousEnd : Progress 0 limit Parser.previousEnd :=
  fun _ hc => ⟨hc, Nat.le_refl _, fun _ _ => Nat.le_refl _, fun _ h => by cases h⟩

theorem at? (kind : Kind) : Progress 0 limit (Parser.at? kind) :=
  fun _ hc => ⟨hc, Nat.le_refl _, fun _ _ => Nat.le_refl _, fun _ h => by cases h⟩

theorem expect {kind : Kind} (h : kind ≠ .eof) (message : String) :
    Progress 1 limit (Parser.expect kind message) := by
  intro c hc
  by_cases hkind : c.kind = kind
  · have hrun : Parser.expect kind message c = Parser.next c := by
      simp [Parser.expect, Parser.next, hkind]
    obtain ⟨hclosed, hle, htaken, henough⟩ := Advances.next hc (hkind ▸ h)
    exact ⟨hrun ▸ hclosed, hrun ▸ hle, hrun ▸ htaken, hrun ▸ henough⟩
  · have hrun : Parser.expect kind message c =
        (Parser.fail (.expect message) c.peek : Parse Token) c := by
      simp [Parser.expect, Parser.fail, hkind]
    obtain ⟨hclosed, hle, htaken, henough⟩ := fail (α := Token) (.expect message) c.peek c hc
    exact ⟨hrun ▸ hclosed, hrun ▸ hle, hrun ▸ htaken, hrun ▸ henough⟩

theorem accept {f : Bool → Parse β} {kind : Kind} (h : kind ≠ .eof)
    (hthen : Progress (least - 1) (limit - 1) (f true)) (helse : Progress least limit (f false)) :
    Progress least limit (Parser.accept kind >>= f) := by
  intro c hc
  by_cases hkind : c.kind = kind
  · have hrun : (Parser.accept kind >>= f) c = (Parser.next >>= fun _ => f true) c := by
      change Parse.bind _ _ c = Parse.bind _ _ c
      simp [Parse.bind, Parser.accept, Parser.next, hkind]
    have hnext : Advances c 1 limit Parser.next := .next hc (hkind ▸ h)
    obtain ⟨hclosed, hle, htaken, henough⟩ := hnext.bind fun _ => hthen
    exact ⟨hrun ▸ hclosed, hrun ▸ hle, hrun ▸ htaken, hrun ▸ henough⟩
  · have hrun : (Parser.accept kind >>= f) c = f false c := by
      change Parse.bind _ _ c = _
      simp [Parse.bind, Parser.accept, hkind]
    obtain ⟨hclosed, hle, htaken, henough⟩ := helse c hc
    exact ⟨hrun ▸ hclosed, hrun ▸ hle, hrun ▸ htaken, hrun ▸ henough⟩

theorem counted {problem : Problem} {count : Nat} {items : Parse (List α)}
    (h : Progress least limit items) :
    Progress least limit (Parser.counted problem count items) := by
  unfold Parser.counted
  refine .ite ?_ h
  exact Progress.peek.bind fun _ => (Progress.report _ _).bind fun _ => h

theorem separated {item : Parse α} {more : Parse (List α)} (hitem : Progress 1 limit item)
    (hmore : Progress 1 (limit - 1 - 1) more) :
    Progress 1 limit (Parser.separated item more) := by
  unfold Parser.separated
  refine hitem.bind fun first => .accept (by decide) ?_ (.pure _)
  exact hmore.bind fun rest => .pure _

end Progress

/-! ## Expressions -/

mutual

theorem expression_progress (n : Nat) {limit : Nat} (h : limit ≤ (n + 13) / 16) :
    Progress 1 limit (expression n) := by
  match n with
  | 0 => exact .outOfFuel (by omega)
  | n + 1 =>
      unfold expression
      refine (operation_progress n 0 (by omega)).bind fun left => ?_
      refine .accept (by decide) ?_ (.pure _)
      refine Progress.before.bind fun equals => ?_
      refine (expression_progress n (by omega)).bind fun value => ?_
      cases left with
      | var | get => exact .pure _
      | _ => exact (Progress.report _ _).bind fun _ => .pure _

theorem operation_progress (n power : Nat) {limit : Nat} (h : limit ≤ (n + 14) / 16) :
    Progress 1 limit (operation n power) := by
  match n with
  | 0 => exact .outOfFuel (by omega)
  | n + 1 =>
      unfold operation
      exact (operand_progress n (by omega)).bind fun left =>
        operations_progress n power left (by omega)

theorem operations_progress (n power : Nat) (left : Expr) {limit : Nat}
    (h : limit ≤ (n + 12) / 16) : Progress 0 limit (operations n power left) := by
  match n with
  | 0 => exact .outOfFuel (by omega)
  | n + 1 =>
      unfold operations
      refine Progress.peek.bind fun t => ?_
      refine .ite ?_ (.pure _)
      exact (operator_progress n left (by omega)).bind fun left' =>
        operations_progress n power left' (by omega)

theorem operand_progress (n : Nat) {limit : Nat} (h : limit ≤ (n + 15) / 16) :
    Progress 1 limit (operand n) := by
  match n with
  | 0 => exact .outOfFuel (by omega)
  | n + 1 =>
      intro c hc
      unfold operand
      refine .peek ?_
      have taken {f : Token → Parse Expr} (hkind : c.peek.kind ≠ .eof)
          (hf : ∀ t, Progress 0 (limit - 1) (f t)) : Advances c 1 limit (next >>= f) :=
        (Advances.next hc hkind).bind hf
      split
      case h_12 => exact Progress.fail _ _ c hc
      case h_7 hkind =>
          refine taken (by simp [hkind]) fun _ => ?_
          refine (Progress.expect (by decide) _).bind fun _ => ?_
          refine (Progress.expect (by decide) _).bind fun _ => ?_
          exact .pure _
      case h_9 hkind =>
          refine taken (by simp [hkind]) fun _ => ?_
          refine (expression_progress n (by omega)).bind fun _ => ?_
          refine (Progress.expect (by decide) _).bind fun _ => ?_
          exact .pure _
      case h_10 hkind | h_11 hkind =>
          refine taken (by simp [hkind]) fun _ => ?_
          refine (operation_progress n unaryPower (by omega)).bind
            fun _ => ?_
          exact .pure _
      all_goals
        rename_i hkind
        exact taken (by simp [hkind]) fun _ => .pure _

theorem operator_progress (n : Nat) (left : Expr) {limit : Nat} (h : limit ≤ (n + 13) / 16) :
    Progress 1 limit (operator n left) := by
  match n with
  | 0 => exact .outOfFuel (by omega)
  | n + 1 =>
      intro c hc
      unfold operator
      by_cases hkind : c.kind = .eof
      · refine .nextAtEnd hc hkind ?_
        have hpeek : c.peek.kind = .eof := hkind
        simp only [hpeek]
        exact ((operation_progress n _ (by omega)).bind fun _ => .pure _) c hc
      · refine (Advances.next hc hkind).bind fun t => ?_
        split
        case h_1 =>
            refine (Progress.at? _).bind fun _ => ?_
            refine .iteBind (.pure _) ((arguments_progress n 0 (by omega)).mono (by omega))
              fun _ => ?_
            exact (Progress.expect (by decide) _).bind fun _ => .pure _
        case h_2 => exact (Progress.expect (by decide) _).bind fun _ => .pure _
        all_goals exact (operation_progress n _ (by omega)).bind fun _ => .pure _

theorem arguments_progress (n count : Nat) {limit : Nat} (h : limit ≤ (n + 12) / 16) :
    Progress 1 limit (arguments n count) := by
  match n with
  | 0 => exact .outOfFuel (by omega)
  | n + 1 =>
      rw [arguments_succ]
      exact .counted (.separated (expression_progress n (by omega))
        (arguments_progress n (count + 1) (by omega)))

end

/-! ## Statements -/

theorem parameters_progress (n count : Nat) {limit : Nat} (h : limit ≤ (n + 15) / 16) :
    Progress 1 limit (parameters n count) := by
  induction n generalizing count limit with
  | zero => exact .outOfFuel (by omega)
  | succ n ih =>
      rw [parameters_succ]
      exact .counted (.separated (Progress.expect (by decide) _) (ih (count + 1) (by omega)))

section

variable {n limit : Nat} (h : limit ≤ (n + 13) / 16)

include h

theorem variableDeclaration_progress : Progress 1 limit (variableDeclaration n) := by
  unfold variableDeclaration
  refine Progress.before.bind fun keyword => ?_
  refine (Progress.expect (by decide) _).bind fun name => ?_
  apply Progress.accept (by decide)
  · refine (expression_progress n (by omega)).map.bind fun _ => ?_
    exact (Progress.expect (by decide) _).bind fun _ => Progress.previousEnd.bind fun _ => .pure _
  · refine (Progress.pure _).bind fun _ => ?_
    exact (Progress.expect (by decide) _).bind fun _ => Progress.previousEnd.bind fun _ => .pure _

theorem expressionStatement_progress : Progress 1 limit (expressionStatement n) := by
  unfold expressionStatement
  refine (expression_progress n (by omega)).bind fun _ => ?_
  exact (Progress.expect (by decide) _).bind fun _ => Progress.previousEnd.bind fun _ => .pure _

theorem forInitial_progress : Progress 1 limit (forInitial n) := by
  unfold forInitial
  refine .accept (by decide) (.pure _) ?_
  apply Progress.accept (by decide)
  · exact (variableDeclaration_progress (by omega)).bind fun _ => .pure _
  · exact (expressionStatement_progress (by omega)).bind fun _ => .pure _

theorem optionalExpression_progress {b : Prop} [Decidable b] {f : Option Expr → Parse β}
    (hf : ∀ e, Progress 0 limit (f e)) :
    Progress 0 limit
      (if b then (pure none : Parse (Option Expr)) >>= f else some <$> expression n >>= f) := by
  refine .iteBind (.pure _) ((expression_progress n h).map.mono (Nat.zero_le _)) hf

end

mutual

theorem declarations_progress (n : Nat) (inBlock : Bool) {limit : Nat}
    (h : limit ≤ (n + 10) / 16) : Progress 0 limit (declarations n inBlock) := by
  match n with
  | 0 => exact .outOfFuel (by omega)
  | n + 1 =>
      intro c hc
      unfold declarations
      refine .at? _ (.at? _ ?_)
      refine .ite (fun _ => Progress.pure _ c hc) fun hmore => ?_
      have hkind : c.kind ≠ .eof := by
        intro heof
        simp [heof] at hmore
      refine (Advances.recovering hkind hc (declaration_progress n (by omega) c hc)).bind
        fun first => ?_
      exact (declarations_progress n inBlock (by omega)).bind fun _ => .pure _

theorem block_progress (n : Nat) {limit : Nat} (h : limit ≤ (n + 9) / 16) :
    Progress 1 limit (block n) := by
  match n with
  | 0 => exact .outOfFuel (by omega)
  | n + 1 =>
      unfold block
      refine (declarations_progress n true (by omega)).bind fun _ => ?_
      exact (Progress.expect (by decide) _).bind fun _ => .pure _

theorem declaration_progress (n : Nat) {limit : Nat} (h : limit ≤ (n + 11) / 16) :
    Progress 1 limit (declaration n) := by
  match n with
  | 0 => exact .outOfFuel (by omega)
  | n + 1 =>
      unfold declaration
      refine .accept (by decide) ((classDeclaration_progress n (by omega)).mono (by omega)) ?_
      apply Progress.accept (by decide)
      · refine Progress.before.bind fun keyword => ?_
        exact (function_progress n _ _ (by omega)).bind fun _ => .pure _
      · exact .accept (by decide) ((variableDeclaration_progress (by omega)).mono (by omega))
          (statement_progress n (by omega))

theorem classDeclaration_progress (n : Nat) {limit : Nat} (h : limit ≤ (n + 13) / 16) :
    Progress 1 limit (classDeclaration n) := by
  match n with
  | 0 => exact .outOfFuel (by omega)
  | n + 1 =>
      unfold classDeclaration
      refine Progress.before.bind fun keyword => ?_
      refine (Progress.expect (by decide) _).bind fun name => ?_
      have rest (parent : Option Reference) (limit' : Nat) (h' : limit' ≤ limit) :
          Progress 0 limit' (do
            let _ ← expect .leftBrace "Expect '\x7b' before class body."
            let methods ← methods n
            let _ ← expect .rightBrace "Expect '\x7d' after class body."
            return Stmt.classDecl ⟨keyword.span.start, ← previousEnd⟩ name parent methods) := by
        refine (Progress.expect (by decide) _).bind fun _ => ?_
        refine (methods_progress n (by omega)).bind fun _ => ?_
        refine (Progress.expect (by decide) _).bind fun _ => ?_
        exact Progress.previousEnd.bind fun _ => .pure _
      refine .accept (by decide) ?_ ((Progress.pure _).bind fun _ => rest _ _ (by omega))
      exact (Progress.expect (by decide) _).bind fun _ =>
        (Progress.pure _).bind fun _ => rest _ _ (by omega)

theorem methods_progress (n : Nat) {limit : Nat} (h : limit ≤ (n + 14) / 16) :
    Progress 0 limit (methods n) := by
  match n with
  | 0 => exact .outOfFuel (by omega)
  | n + 1 =>
      unfold methods
      refine (Progress.at? _).bind fun _ => (Progress.at? _).bind fun _ => .ite (.pure _) ?_
      refine Progress.peek.bind fun t => (function_progress n _ _ (by omega)).bind fun _ => ?_
      exact (methods_progress n (by omega)).bind fun _ => .pure _

theorem function_progress (n : Nat) (role : String) (start : Position) {limit : Nat}
    (h : limit ≤ (n + 15) / 16) : Progress 1 limit (function n role start) := by
  match n with
  | 0 => exact .outOfFuel (by omega)
  | n + 1 =>
      unfold function
      refine (Progress.expect (by decide) _).bind fun name => ?_
      refine (Progress.expect (by decide) _).bind fun _ => (Progress.at? _).bind fun _ => ?_
      refine .iteBind (.pure _) ((parameters_progress n 0 (by omega)).mono (by omega))
        fun _ => ?_
      refine (Progress.expect (by decide) _).bind fun _ => ?_
      refine (Progress.expect (by decide) _).bind fun _ => ?_
      exact (block_progress n (by omega)).bind fun _ => Progress.previousEnd.bind fun _ => .pure _

theorem statement_progress (n : Nat) {limit : Nat} (h : limit ≤ (n + 12) / 16) :
    Progress 1 limit (statement n) := by
  match n with
  | 0 => exact .outOfFuel (by omega)
  | n + 1 =>
      unfold statement
      refine .accept (by decide) ((forStatement_progress n (by omega)).mono (by omega)) ?_
      refine .accept (by decide) ((ifStatement_progress n (by omega)).mono (by omega)) ?_
      apply Progress.accept (by decide)
      · refine Progress.before.bind fun keyword => ?_
        refine (expression_progress n (by omega)).bind fun _ => ?_
        refine (Progress.expect (by decide) _).bind fun _ => ?_
        exact Progress.previousEnd.bind fun _ => .pure _
      apply Progress.accept (by decide)
      · refine Progress.before.bind fun keyword => (Progress.at? _).bind fun _ => ?_
        refine optionalExpression_progress (by omega) fun _ => ?_
        refine (Progress.expect (by decide) _).bind fun _ => ?_
        exact Progress.previousEnd.bind fun _ => .pure _
      apply Progress.accept (by decide)
      · refine Progress.before.bind fun keyword => ?_
        refine (Progress.expect (by decide) _).bind fun _ => ?_
        refine (expression_progress n (by omega)).bind fun _ => ?_
        refine (Progress.expect (by decide) _).bind fun _ => ?_
        refine (statement_progress n (by omega)).bind fun _ => ?_
        exact Progress.previousEnd.bind fun _ => .pure _
      refine .accept (by decide) ?_ (expressionStatement_progress (by omega))
      refine Progress.before.bind fun brace => ?_
      exact (block_progress n (by omega)).bind fun _ => Progress.previousEnd.bind fun _ => .pure _

theorem forStatement_progress (n : Nat) {limit : Nat} (h : limit ≤ (n + 15) / 16) :
    Progress 1 limit (forStatement n) := by
  match n with
  | 0 => exact .outOfFuel (by omega)
  | n + 1 =>
      unfold forStatement
      refine Progress.before.bind fun keyword => ?_
      refine (Progress.expect (by decide) _).bind fun _ => ?_
      refine (forInitial_progress (by omega)).bind fun initial => (Progress.at? _).bind fun _ => ?_
      refine optionalExpression_progress (by omega) fun condition => ?_
      refine (Progress.expect (by decide) _).bind fun _ => (Progress.at? _).bind fun _ => ?_
      refine optionalExpression_progress (by omega) fun increment => ?_
      refine (Progress.expect (by decide) _).bind fun _ => ?_
      refine (statement_progress n (by omega)).bind fun _ => ?_
      exact Progress.previousEnd.bind fun _ => .pure _

theorem ifStatement_progress (n : Nat) {limit : Nat} (h : limit ≤ (n + 15) / 16) :
    Progress 1 limit (ifStatement n) := by
  match n with
  | 0 => exact .outOfFuel (by omega)
  | n + 1 =>
      unfold ifStatement
      refine Progress.before.bind fun keyword => ?_
      refine (Progress.expect (by decide) _).bind fun _ => ?_
      refine (expression_progress n (by omega)).bind fun _ => ?_
      refine (Progress.expect (by decide) _).bind fun _ => ?_
      refine (statement_progress n (by omega)).bind fun _ => ?_
      apply Progress.accept (by decide)
      · refine (statement_progress n (by omega)).map.bind fun _ => ?_
        exact Progress.previousEnd.bind fun _ => .pure _
      · refine (Progress.pure _).bind fun _ => ?_
        exact Progress.previousEnd.bind fun _ => .pure _

end

/-! ## Whole inputs -/

/-- The fuel for a list of tokens with an end is enough. -/
theorem declarations_fuelFor {tokens : List Token} (h : ∃ e ∈ tokens, e.kind = .eof) :
    (declarations (fuelFor tokens) false (.start tokens)).1 ≠ .outOfFuel := by
  have hle : (Cursor.start tokens).remaining ≤ tokens.length :=
    (tokens.takeWhile_prefix _).length_le
  refine (declarations_progress (fuelFor tokens) false (Nat.le_refl _) (.start tokens) h).enough ?_
  unfold fuelFor
  omega

end Lox.Parser
