import Lox.Proofs.Parser.Agreement
import Lox.Proofs.Parser.Progress

/-!
Reading ends, and at the first `eof`.

The parsers run on fuel, but the fuel for a list of tokens is never used up, and more of
it changes nothing.  On the way the position of the cursor grows, by one token at least
with every declaration, and it never passes the first `eof`.  What stands behind that
token is not seen.
-/

namespace Lox.Parser

/-! ## More fuel -/

theorem lockstep_eq : Lockstep (fun c d => d = c) where
  empty := by rintro c d rfl; rfl
  peek := by rintro c d rfl; rfl
  previous := by rintro c d rfl; rfl
  advance := by rintro c d rfl; rfl
  report := by rintro c d problem t rfl; rfl

theorem Agree.eq {p q : Parse α} (h : Agree (fun c d => d = c) p q) {c : Cursor}
    (henough : (p c).1 ≠ .outOfFuel) : q c = p c := by
  obtain ⟨hreply, hcursor⟩ := h c c rfl henough
  exact Prod.ext hreply hcursor

/-! ## Positions -/

/-- The index of the first `eof`; a list without one ends at its length. -/
def endIndex (tokens : List Token) : Nat := tokens.findIdx fun t => t.kind == .eof

structure Cursor.At (tokens : List Token) (k : Nat) (c : Cursor) : Prop where
  rest : c.rest = tokens.drop k
  previous : c.previous = (tokens.take k).getLast?
  last : c.last = (start tokens).last

namespace Cursor.At

variable {tokens : List Token} {k : Nat} {c : Cursor}

theorem start (tokens : List Token) : (Cursor.start tokens).At tokens 0 :=
  ⟨by simp [Cursor.start], by simp [Cursor.start], rfl⟩

theorem report (h : c.At tokens k) (problem : Problem) (t : Token) :
    (c.report problem t).At tokens k :=
  ⟨h.rest, h.previous, h.last⟩

theorem rest_of_lt (h : c.At tokens k) (hk : k < endIndex tokens) :
    ∃ t, tokens[k]? = some t ∧ t.kind ≠ .eof ∧ c.rest = t :: tokens.drop (k + 1) := by
  have hlength : k < tokens.length := Nat.lt_of_lt_of_le hk List.findIdx_le_length
  refine ⟨tokens[k], by simp [hlength], ?_, ?_⟩
  · simpa using List.not_of_lt_findIdx hk
  · rw [h.rest, List.drop_eq_getElem_cons hlength]

theorem kind_of_lt (h : c.At tokens k) (hk : k < endIndex tokens) : c.kind ≠ .eof := by
  obtain ⟨t, -, ht, hrest⟩ := h.rest_of_lt hk
  simpa [Cursor.kind, Cursor.peek, hrest] using ht

theorem advance_of_lt (h : c.At tokens k) (hk : k < endIndex tokens) :
    c.advance.At tokens (k + 1) := by
  obtain ⟨t, htoken, ht, hrest⟩ := h.rest_of_lt hk
  have hadvance : c.advance = { c with previous := some t, rest := tokens.drop (k + 1) } := by
    simp [Cursor.advance, hrest, ht]
  rw [hadvance]
  exact ⟨rfl, by simp [List.take_add_one, htoken], h.last⟩

theorem advance_of_eq (h : c.At tokens (endIndex tokens)) : c.advance = c := by
  unfold Cursor.advance
  split
  · rfl
  · rename_i t rest hrest
    have hlength : endIndex tokens < tokens.length := by
      rcases Nat.lt_or_ge (endIndex tokens) tokens.length with hlt | hge
      · exact hlt
      · rw [h.rest, List.drop_eq_nil_of_le hge] at hrest
        cases hrest
    have ht : t.kind = .eof := by
      rw [h.rest, List.drop_eq_getElem_cons hlength] at hrest
      cases hrest
      exact beq_iff_eq.mp (List.findIdx_getElem (w := hlength))
    simp [ht]

end Cursor.At

def Between (tokens : List Token) (k : Nat) (c d : Cursor) : Prop :=
  d = c ∧ ∃ k', k ≤ k' ∧ k' ≤ endIndex tokens ∧ c.At tokens k'

theorem lockstep_between (tokens : List Token) (k : Nat) : Lockstep (Between tokens k) where
  empty := by rintro c d ⟨rfl, -⟩; rfl
  peek := by rintro c d ⟨rfl, -⟩; rfl
  previous := by rintro c d ⟨rfl, -⟩; rfl
  advance := by
    rintro c d ⟨rfl, k', hle, hend, hat⟩
    refine ⟨rfl, ?_⟩
    rcases Nat.lt_or_eq_of_le hend with hlt | rfl
    · exact ⟨k' + 1, by omega, hlt, hat.advance_of_lt hlt⟩
    · rw [hat.advance_of_eq]
      exact ⟨_, hle, Nat.le_refl _, hat⟩
  report := by
    rintro c d problem t ⟨rfl, k', hle, hend, hat⟩
    exact ⟨rfl, k', hle, hend, hat.report problem t⟩

theorem Agree.between {tokens : List Token} {k : Nat} {p : Parse α} {c : Cursor}
    (h : Agree (Between tokens k) p p) (hat : c.At tokens k) (hk : k ≤ endIndex tokens)
    (henough : (p c).1 ≠ .outOfFuel) :
    ∃ k', k ≤ k' ∧ k' ≤ endIndex tokens ∧ (p c).2.At tokens k' :=
  (h c c ⟨rfl, k, Nat.le_refl k, hk, hat⟩ henough).2.2

/-! ## Parsers by name -/

/-- The parsers, with what they depend on besides the tokens. -/
inductive Production where
  | expression | operation (power : Nat) | operations (power : Nat) (left : Expr)
  | operand | operator (left : Expr) | arguments (count : Nat)
  | parameters (count : Nat) | variableDeclaration | expressionStatement | forInitial
  | declarations (inBlock : Bool) | block | declaration | classDeclaration | methods
  | function (role : String) (start : Position)
  | statement | forStatement | ifStatement

namespace Production

def Value : Production → Type
  | .arguments _ => List Expr
  | .parameters _ => List Token
  | .variableDeclaration | .expressionStatement | .declaration | .classDeclaration
  | .statement | .forStatement | .ifStatement => Stmt
  | .forInitial => Option Stmt
  | .declarations _ | .block => List Stmt
  | .methods => List FunctionDecl
  | .function _ _ => FunctionDecl
  | _ => Expr

def parse : (production : Production) → (fuel : Nat) → Parse production.Value
  | .expression, n => Parser.expression n
  | .operation power, n => Parser.operation n power
  | .operations power left, n => Parser.operations n power left
  | .operand, n => Parser.operand n
  | .operator left, n => Parser.operator n left
  | .arguments count, n => Parser.arguments n count
  | .parameters count, n => Parser.parameters n count
  | .variableDeclaration, n => Parser.variableDeclaration n
  | .expressionStatement, n => Parser.expressionStatement n
  | .forInitial, n => Parser.forInitial n
  | .declarations inBlock, n => Parser.declarations n inBlock
  | .block, n => Parser.block n
  | .declaration, n => Parser.declaration n
  | .classDeclaration, n => Parser.classDeclaration n
  | .methods, n => Parser.methods n
  | .function role start, n => Parser.function n role start
  | .statement, n => Parser.statement n
  | .forStatement, n => Parser.forStatement n
  | .ifStatement, n => Parser.ifStatement n

theorem agree {R : Cursor → Cursor → Prop} (hR : Lockstep R) {n m : Nat} (h : n ≤ m)
    (production : Production) : Agree R (production.parse n) (production.parse m) := by
  cases production with
  | expression => exact expression_agree hR h
  | operation power => exact operation_agree hR h power
  | operations power left => exact operations_agree hR h power left
  | operand => exact operand_agree hR h
  | operator left => exact operator_agree hR h left
  | arguments count => exact arguments_agree hR h count
  | parameters count => exact parameters_agree hR h count
  | variableDeclaration => exact variableDeclaration_agree hR h
  | expressionStatement => exact expressionStatement_agree hR h
  | forInitial => exact forInitial_agree hR h
  | declarations inBlock => exact declarations_agree hR h inBlock
  | block => exact block_agree hR h
  | declaration => exact declaration_agree hR h
  | classDeclaration => exact classDeclaration_agree hR h
  | methods => exact methods_agree hR h
  | function role start => exact function_agree hR h role start
  | statement => exact statement_agree hR h
  | forStatement => exact forStatement_agree hR h
  | ifStatement => exact ifStatement_agree hR h

end Production

/-! ## Enough fuel -/

section

variable {tokens : List Token} {n : Nat}

theorem Cursor.remaining_start_le (tokens : List Token) :
    (Cursor.start tokens).remaining ≤ tokens.length :=
  (tokens.takeWhile_prefix _).length_le

theorem declarations_enough (h : tokens = [] ∨ ∃ e ∈ tokens, e.kind = .eof) :
    (declarations (fuelFor tokens) false (.start tokens)).1 ≠ .outOfFuel := by
  rcases h with rfl | h
  · intro hrun
    cases hrun
  · exact declarations_fuelFor h

theorem expression_enough (h : tokens = [] ∨ ∃ e ∈ tokens, e.kind = .eof) :
    (expression (fuelFor tokens) (.start tokens)).1 ≠ .outOfFuel := by
  rcases h with rfl | h
  · intro hrun
    cases hrun
  · have hle := Cursor.remaining_start_le tokens
    refine (expression_progress (fuelFor tokens) (Nat.le_refl _) (.start tokens) h).enough ?_
    unfold fuelFor
    omega

end

/-! ## What is not seen -/

/-- The same tokens up to an `eof`, whatever stands behind it. -/
structure SeenAlike (c d : Cursor) : Prop where
  previous : d.previous = c.previous
  reported : d.reported = c.reported
  rest : ∃ xs e r r', e.kind = .eof ∧ c.rest = xs ++ e :: r ∧ d.rest = xs ++ e :: r'

theorem lockstep_seenAlike : Lockstep SeenAlike where
  empty := by
    rintro c d ⟨-, -, xs, e, r, r', -, hc, hd⟩
    simp [hc, hd]
  peek := by
    rintro c d ⟨-, -, xs, e, r, r', -, hc, hd⟩
    cases xs <;> simp [Cursor.peek, hc, hd]
  previous := fun h => h.previous
  advance := by
    rintro c d ⟨hprevious, hreported, xs, e, r, r', he, hc, hd⟩
    cases xs with
    | nil =>
        have hc' : c.advance = c := by simp [Cursor.advance, hc, he]
        have hd' : d.advance = d := by simp [Cursor.advance, hd, he]
        rw [hc', hd']
        exact ⟨hprevious, hreported, [], e, r, r', he, hc, hd⟩
    | cons t xs =>
        by_cases ht : t.kind = .eof
        · have hc' : c.advance = c := by simp [Cursor.advance, hc, ht]
          have hd' : d.advance = d := by simp [Cursor.advance, hd, ht]
          rw [hc', hd']
          exact ⟨hprevious, hreported, t :: xs, e, r, r', he, hc, hd⟩
        · have hc' : c.advance = { c with previous := some t, rest := xs ++ e :: r } := by
            simp [Cursor.advance, hc, ht]
          have hd' : d.advance = { d with previous := some t, rest := xs ++ e :: r' } := by
            simp [Cursor.advance, hd, ht]
          rw [hc', hd']
          exact ⟨rfl, hreported, xs, e, r, r', he, rfl, rfl⟩
  report := by
    rintro c d problem t ⟨hprevious, hreported, hrest⟩
    exact ⟨hprevious, by simp [Cursor.report, hreported], hrest⟩

/-- Runs on enough fuel each, from cursors that see the same. -/
theorem Production.seenAlike (production : Production) {n m : Nat} {c d : Cursor}
    (h : SeenAlike c d) (hc : (production.parse n c).1 ≠ .outOfFuel)
    (hd : (production.parse m d).1 ≠ .outOfFuel) :
    (production.parse m d).1 = (production.parse n c).1 ∧
      (production.parse m d).2.reported = (production.parse n c).2.reported := by
  have hmore := (production.agree lockstep_eq (Nat.le_max_right n m)).eq hd
  have hseen := production.agree lockstep_seenAlike (Nat.le_max_left n m) c d h hc
  rw [hmore] at hseen
  exact ⟨hseen.1, hseen.2.reported⟩

theorem seenAlike_start {tokens tokens' : List Token} (h : ∃ e ∈ tokens, e.kind = .eof)
    (hsame : tokens'.take (endIndex tokens' + 1) = tokens.take (endIndex tokens + 1)) :
    (∃ e ∈ tokens', e.kind = .eof) ∧ SeenAlike (.start tokens) (.start tokens') := by
  obtain ⟨e, hmem, he⟩ := h
  have hlt : endIndex tokens < tokens.length :=
    List.findIdx_lt_length_of_exists ⟨e, hmem, by simp [he]⟩
  have hend : tokens[endIndex tokens].kind = .eof :=
    beq_iff_eq.mp (List.findIdx_getElem (w := hlt))
  -- both lists are the tokens before the end, the end, and what nobody sees
  have hsplit : tokens.take (endIndex tokens + 1) =
      tokens.take (endIndex tokens) ++ [tokens[endIndex tokens]] :=
    (List.take_append_getElem hlt).symm
  have htokens := List.take_append_drop (endIndex tokens + 1) tokens
  have htokens' := List.take_append_drop (endIndex tokens' + 1) tokens'
  rw [hsplit, List.append_assoc, List.singleton_append] at htokens
  rw [hsame, hsplit, List.append_assoc, List.singleton_append] at htokens'
  constructor
  · refine ⟨tokens[endIndex tokens], ?_, hend⟩
    rw [← htokens']
    simp
  · exact ⟨rfl, rfl, _, _, _, _, hend, htokens.symm, htokens'.symm⟩

theorem program_eq_of_seen {tokens tokens' : List Token}
    (h : tokens = [] ∨ ∃ e ∈ tokens, e.kind = .eof)
    (hsame : tokens'.take (endIndex tokens' + 1) = tokens.take (endIndex tokens + 1)) :
    program tokens' = program tokens ∧ soleExpression tokens' = soleExpression tokens := by
  rcases h with rfl | h
  · have hnil : tokens' = [] := by simpa using hsame
    simp [hnil]
  · obtain ⟨h', hseen⟩ := seenAlike_start h hsame
    have hbody := (Production.declarations false).seenAlike hseen
      (declarations_enough (.inr h)) (declarations_enough (.inr h'))
    have hvalue := Production.expression.seenAlike hseen
      (expression_enough (.inr h)) (expression_enough (.inr h'))
    simp only [Production.parse] at hbody hvalue
    constructor
    · unfold program
      rcases hrun : declarations (fuelFor tokens) false (.start tokens) with ⟨reply, c⟩
      rcases hrun' : declarations (fuelFor tokens') false (.start tokens') with ⟨reply', c'⟩
      rw [hrun, hrun'] at hbody
      dsimp only at hbody
      obtain ⟨rfl, hreported⟩ := hbody
      cases reply' <;> simp [hreported]
    · unfold soleExpression
      rcases hrun : expression (fuelFor tokens) (.start tokens) with ⟨reply, c⟩
      rcases hrun' : expression (fuelFor tokens') (.start tokens') with ⟨reply', c'⟩
      rw [hrun, hrun'] at hvalue
      dsimp only at hvalue
      obtain ⟨rfl, hreported⟩ := hvalue
      cases reply' <;> simp [hreported]

/-! ## Whole inputs -/

theorem declarations_kind {n : Nat} {c c' : Cursor} {body : List Stmt}
    (hrun : declarations n false c = (.ok body, c')) : c'.kind = .eof := by
  induction n generalizing c body with
  | zero => cases hrun
  | succ n ih =>
      by_cases hkind : c.kind = .eof
      · rw [declarations_end n hkind] at hrun
        cases hrun
        exact hkind
      · rw [declarations_succ n hkind] at hrun
        obtain ⟨first, c₁, -, hothers⟩ := bind_eq_ok hrun
        obtain ⟨rest, c₂, hrest, ⟨⟩⟩ := bind_eq_ok hothers
        exact ih hrest

theorem recovering_ne_failed (p : Parse Stmt) (c : Cursor) : (recovering p c).1 ≠ .failed := by
  unfold recovering
  split <;> exact nofun

theorem declarations_ne_failed (n : Nat) (c : Cursor) :
    (declarations n false c).1 ≠ .failed := by
  induction n generalizing c with
  | zero => exact nofun
  | succ n ih =>
      by_cases hkind : c.kind = .eof
      · rw [declarations_end n hkind]
        exact nofun
      · have hfirst := recovering_ne_failed (declaration n) c
        rw [declarations_succ n hkind]
        rcases hrun : recovering (declaration n) c with ⟨reply, c₁⟩
        rw [hrun] at hfirst
        cases reply with
        | ok first =>
            have hothers := ih c₁
            rw [bind_of_ok hrun]
            rcases hrest : declarations n false c₁ with ⟨reply, c₂⟩
            rw [hrest] at hothers
            cases reply with
            | ok rest =>
                rw [bind_of_ok hrest]
                exact nofun
            | failed => exact absurd rfl hothers
            | outOfFuel =>
                change (Parse.bind _ _ c₁).1 ≠ _
                simp [Parse.bind, hrest]
        | failed => exact absurd rfl hfirst
        | outOfFuel =>
            change (Parse.bind _ _ c).1 ≠ _
            simp [Parse.bind, hrun]

theorem program_settles {tokens : List Token} (h : tokens = [] ∨ ∃ e ∈ tokens, e.kind = .eof) :
    ∃ body c, c.At tokens (endIndex tokens) ∧ program tokens = (body, c.reported) ∧
      ∀ n, fuelFor tokens ≤ n → declarations n false (.start tokens) = (.ok body, c) := by
  have henough := declarations_enough h
  have hfailed := declarations_ne_failed (fuelFor tokens) (.start tokens)
  rcases hrun : declarations (fuelFor tokens) false (.start tokens) with ⟨reply, c⟩
  cases reply with
  | ok body =>
      have hR := lockstep_between tokens 0
      obtain ⟨k, -, hk, hat⟩ := (declarations_agree hR (Nat.le_refl _) false).between
        (.start tokens) (Nat.zero_le _) henough
      rw [hrun] at hat
      have hend : k = endIndex tokens := by
        rcases Nat.lt_or_eq_of_le hk with hlt | heq
        · exact absurd (declarations_kind hrun) (hat.kind_of_lt hlt)
        · exact heq
      refine ⟨body, c, hend ▸ hat, by simp [program, hrun], fun n hn => ?_⟩
      rw [(declarations_agree lockstep_eq hn false).eq henough, hrun]
  | failed => exact absurd (congrArg Prod.fst hrun) hfailed
  | outOfFuel => exact absurd (congrArg Prod.fst hrun) henough

theorem Cursor.At.closed {tokens : List Token} {k : Nat} {c : Cursor}
    (h : ∃ e ∈ tokens, e.kind = .eof) (hat : c.At tokens k) (hk : k ≤ endIndex tokens) :
    c.Closed := by
  obtain ⟨e, hmem, he⟩ := h
  have hlt : endIndex tokens < tokens.length :=
    List.findIdx_lt_length_of_exists ⟨e, hmem, by simp [he]⟩
  refine ⟨tokens[endIndex tokens], ?_, beq_iff_eq.mp (List.findIdx_getElem (w := hlt))⟩
  rw [hat.rest]
  refine List.mem_iff_getElem?.mpr ⟨endIndex tokens - k, ?_⟩
  rw [List.getElem?_drop, Nat.add_sub_cancel' hk]
  exact List.getElem?_eq_getElem hlt

theorem Cursor.At.remaining_le {tokens : List Token} {k : Nat} {c : Cursor}
    (hat : c.At tokens k) : c.remaining ≤ tokens.length := by
  have hlength := (c.rest.takeWhile_prefix fun t => t.kind != .eof).length_le
  rw [hat.rest, List.length_drop] at hlength
  simp only [Cursor.remaining, hat.rest]
  omega

theorem recovering_enough {tokens : List Token} {n k : Nat} {c : Cursor}
    (h : ∃ e ∈ tokens, e.kind = .eof) (hat : c.At tokens k) (hk : k < endIndex tokens)
    (hn : fuelFor tokens ≤ n) : (recovering (declaration n) c).1 ≠ .outOfFuel := by
  have hclosed := hat.closed h (Nat.le_of_lt hk)
  have hdeclaration := declaration_progress n (Nat.le_refl _) c hclosed
  apply (Advances.recovering (hat.kind_of_lt hk) hclosed hdeclaration).enough
  have hremaining := hat.remaining_le
  unfold fuelFor at hn
  omega

theorem recovering_advances {tokens : List Token} {n k : Nat} {c : Cursor}
    (h : ∃ e ∈ tokens, e.kind = .eof) (hat : c.At tokens k) (hk : k < endIndex tokens)
    (henough : (recovering (declaration n) c).1 ≠ .outOfFuel) :
    ∃ first c' k', recovering (declaration n) c = (.ok first, c') ∧ c'.At tokens k' ∧
      k < k' ∧ k' ≤ endIndex tokens := by
  have hclosed := hat.closed h (Nat.le_of_lt hk)
  have hdeclaration := declaration_progress n (Nat.zero_le _) c hclosed
  have hadvances := Advances.recovering (hat.kind_of_lt hk) hclosed hdeclaration
  have hR := lockstep_between tokens k
  have hagree := Agree.recovering hR (declaration_agree hR (Nat.le_refl n))
  obtain ⟨k', hle, hend, hat'⟩ := hagree.between hat (Nat.le_of_lt hk) henough
  have hfailed := recovering_ne_failed (declaration n) c
  rcases hrun : recovering (declaration n) c with ⟨reply, c'⟩
  rw [hrun] at henough hfailed hat'
  cases reply with
  | ok first =>
      refine ⟨first, c', k', rfl, hat', ?_, hend⟩
      have htaken := hadvances.taken first (by rw [hrun])
      rcases Nat.lt_or_eq_of_le hle with hlt | rfl
      · exact hlt
      · -- at the same place the same tokens remain
        have hsame : c'.rest = c.rest := hat'.rest.trans hat.rest.symm
        rw [hrun] at htaken
        simp only [Cursor.remaining, hsame] at htaken
        omega
  | failed => exact absurd rfl hfailed
  | outOfFuel => exact absurd rfl henough

/-- Reading comes to an end, goes forward and does not pass the first `eof`. -/
structure ReadsToEnd (tokens : List Token) : Prop where
  /-- The statements are read up to the first `eof`, and more fuel changes nothing. -/
  program : ∃ body c, c.At tokens (endIndex tokens) ∧ program tokens = (body, c.reported) ∧
    ∀ n, fuelFor tokens ≤ n → declarations n false (.start tokens) = (.ok body, c)
  expression : ∃ reply c, reply ≠ .outOfFuel ∧
    ∀ n, fuelFor tokens ≤ n → expression n (.start tokens) = (reply, c)
  /-- From every place before the end a declaration is read or dropped. -/
  settles : ∀ n k c, c.At tokens k → k < endIndex tokens → fuelFor tokens ≤ n →
    (recovering (declaration n) c).1 ≠ .outOfFuel
  /-- Either way it takes a token. -/
  advances : ∀ n k c, c.At tokens k → k < endIndex tokens →
    (recovering (declaration n) c).1 ≠ .outOfFuel →
    ∃ first c' k', recovering (declaration n) c = (.ok first, c') ∧ c'.At tokens k' ∧
      k < k' ∧ k' ≤ endIndex tokens
  /-- No parser goes back or past the end, whether it succeeds or gives up. -/
  bounded : ∀ (production : Production) n k c, c.At tokens k → k ≤ endIndex tokens →
    (production.parse n c).1 ≠ .outOfFuel →
    ∃ k', k ≤ k' ∧ k' ≤ endIndex tokens ∧ (production.parse n c).2.At tokens k'
  /-- A list that agrees through the first `eof` is read alike. -/
  unseen : ∀ tokens' : List Token,
    tokens'.take (endIndex tokens' + 1) = tokens.take (endIndex tokens + 1) →
    Parser.program tokens' = Parser.program tokens ∧
      soleExpression tokens' = soleExpression tokens

theorem reading_ends_at_first_eof (tokens : List Token)
    (h : tokens = [] ∨ ∃ e ∈ tokens, e.kind = .eof) : ReadsToEnd tokens where
  program := program_settles h
  expression := by
    have henough := expression_enough h
    exact ⟨_, _, henough, fun n hn => (expression_agree lockstep_eq hn).eq henough⟩
  settles := by
    intro n k c hat hk hn
    rcases h with rfl | h
    · simp [endIndex] at hk
    · exact recovering_enough h hat hk hn
  advances := by
    intro n k c hat hk henough
    rcases h with rfl | h
    · simp [endIndex] at hk
    · exact recovering_advances h hat hk henough
  bounded := by
    intro production n k c hat hk henough
    exact (production.agree (lockstep_between tokens k) (Nat.le_refl n)).between hat hk henough
  unseen := fun _ hsame => program_eq_of_seen h hsame

/-- A brace that closes nothing, a statement cut short, and a token behind the end. -/
def strayTokens : List Token :=
  [{ kind := .rightBrace }, { kind := .printKw }, { kind := .eof }, { kind := .semicolon }]

theorem reading_ends_at_first_eof_stray :
    (∃ e ∈ strayTokens, e.kind = .eof) ∧ ReadsToEnd strayTokens :=
  ⟨by decide, reading_ends_at_first_eof strayTokens (.inr (by decide))⟩

example : (program strayTokens).2.length = 2 ∧ endIndex strayTokens = 2 := by decide

end Lox.Parser
