import Lox.Proofs.Parser.Termination

/-!
Expressions level by level.

The ladder has one function for every level of precedence.  Operators of one level are
read in a loop, from the left, between operands of the next tighter level; `!` and `-`
come before their operand, calls and properties after theirs.  Reading by binding power
gives the same tree or failure, the same problems in the same order and the same place.
-/

namespace Lox.Parser

namespace Ladder

/-- Joins operands of the tighter level, from the left, while there are operators. -/
def leftward (operators : List Kind) (node : Span → Token → Expr → Expr → Expr)
    (tighter : Parse Expr) : Nat → (left : Expr) → Parse Expr
  | 0, _ => outOfFuel
  | n + 1, left => do
      if (← peek).kind ∈ operators then
        let t ← next
        let right ← tighter
        leftward operators node tighter n (node ⟨left.span.start, right.span.stop⟩ t left right)
      else return left

mutual

def expression : Nat → Parse Expr
  | 0 => outOfFuel
  | n + 1 => do
      let left ← disjunction n
      if ← accept .equal then
        let equals ← before
        let value ← expression n
        let span : Span := ⟨left.span.start, value.span.stop⟩
        match left with
        | .var reference => return .assign { span, name := reference.name } value
        | .get _ object name => return .set span object name value
        | _ =>
            report .invalidTarget equals
            return left
      else return left

def disjunction : Nat → Parse Expr
  | 0 => outOfFuel
  | n + 1 => do
      let left ← conjunction n
      leftward [.orKw] .logical (conjunction n) n left

def conjunction : Nat → Parse Expr
  | 0 => outOfFuel
  | n + 1 => do
      let left ← equality n
      leftward [.andKw] .logical (equality n) n left

def equality : Nat → Parse Expr
  | 0 => outOfFuel
  | n + 1 => do
      let left ← comparison n
      leftward [.equalEqual, .bangEqual] .binary (comparison n) n left

def comparison : Nat → Parse Expr
  | 0 => outOfFuel
  | n + 1 => do
      let left ← term n
      leftward [.less, .lessEqual, .greater, .greaterEqual] .binary (term n) n left

def term : Nat → Parse Expr
  | 0 => outOfFuel
  | n + 1 => do
      let left ← factor n
      leftward [.plus, .minus] .binary (factor n) n left

def factor : Nat → Parse Expr
  | 0 => outOfFuel
  | n + 1 => do
      let left ← unary n
      leftward [.star, .slash] .binary (unary n) n left

def unary : Nat → Parse Expr
  | 0 => outOfFuel
  | n + 1 => do
      let t ← peek
      if t.kind = .bang ∨ t.kind = .minus then
        let _ ← next
        let operand ← unary n
        return .unary ⟨t.span.start, operand.span.stop⟩ t operand
      else call n

def call : Nat → Parse Expr
  | 0 => outOfFuel
  | n + 1 => do
      let callee ← primary n
      calls n callee

def calls : Nat → (callee : Expr) → Parse Expr
  | 0, _ => outOfFuel
  | n + 1, callee => do
      if ← accept .leftParen then
        let arguments ← if ← at? .rightParen then pure [] else arguments n 0
        let paren ← expect .rightParen "Expect ')' after arguments."
        calls n (.call ⟨callee.span.start, paren.span.stop⟩ callee paren arguments)
      else if ← accept .dot then
        let name ← expect .identifier "Expect property name after '.'."
        calls n (.get ⟨callee.span.start, name.span.stop⟩ callee name)
      else return callee

def arguments : Nat → (count : Nat) → Parse (List Expr)
  | 0, _ => outOfFuel
  | n + 1, count => do
      if argumentLimit ≤ count then report .tooManyArguments (← peek)
      let argument ← expression n
      if ← accept .comma then
        let rest ← arguments n (count + 1)
        return argument :: rest
      else return [argument]

def primary : Nat → Parse Expr
  | 0 => outOfFuel
  | n + 1 => do
      let t ← peek
      match t.kind with
      | .falseKw =>
          let _ ← next
          return .literal t.span (.bool false)
      | .trueKw =>
          let _ ← next
          return .literal t.span (.bool true)
      | .nilKw =>
          let _ ← next
          return .literal t.span .nil
      | .number | .string =>
          let _ ← next
          return .literal t.span t.literal
      | .thisKw =>
          let _ ← next
          return .thisRef { span := t.span, name := t }
      | .superKw =>
          let _ ← next
          let _ ← expect .dot "Expect '.' after 'super'."
          let method ← expect .identifier "Expect superclass method name."
          return .superRef { span := ⟨t.span.start, method.span.stop⟩, name := t } method
      | .identifier =>
          let _ ← next
          return .var { span := t.span, name := t }
      | .leftParen =>
          let _ ← next
          let inner ← expression n
          let close ← expect .rightParen "Expect ')' after expression."
          return .grouping ⟨t.span.start, close.span.stop⟩ inner
      | _ => fail .expectExpression t

end

end Ladder

/-! ## Refinement -/

/-- Here the second parser does what the first does, unless the first lacks fuel. -/
def Refines (c : Cursor) (p q : Parse α) : Prop := (p c).1 ≠ .outOfFuel → q c = p c

namespace Refines

variable {α β : Type} {c : Cursor} {p q r : Parse α} {f g : α → Parse β}

theorem refl : Refines c p p := fun _ => rfl

theorem outOfFuel : Refines c (Parser.outOfFuel : Parse α) q := fun henough => absurd rfl henough

theorem trans (hpq : Refines c p q) (hqr : Refines c q r) : Refines c p r := by
  intro henough
  have hq := hpq henough
  rw [hqr (by rwa [hq]), hq]

theorem congr {d : Cursor} {p' q' : Parse α} (hp : p c = p' d) (hq : q c = q' d)
    (h : Refines d p' q') : Refines c p q := by
  unfold Refines
  rw [hp, hq]
  exact h

theorem bind (hp : Refines c p q) (hf : ∀ v c', p c = (.ok v, c') → Refines c' (f v) (g v)) :
    Refines c (p >>= f) (q >>= g) := by
  intro henough
  change (Parse.bind p f c).1 ≠ .outOfFuel at henough
  change Parse.bind q g c = Parse.bind p f c
  unfold Parse.bind at henough ⊢
  rcases hpc : p c with ⟨reply, c'⟩
  have hsame := hp
  unfold Refines at hsame
  rw [hpc] at henough hsame
  cases reply with
  | ok v =>
      rw [hsame nofun]
      exact hf v c' hpc henough
  | failed => rw [hsame nofun]
  | outOfFuel => exact absurd rfl henough

theorem ite {b : Prop} [Decidable b] {p' q' : Parse α} (hp : b → Refines c p q)
    (hq : ¬b → Refines c p' q') : Refines c (if b then p else p') (if b then q else q') := by
  by_cases h : b
  · simpa [h] using hp h
  · simpa [h] using hq h

theorem ofAgree (h : Agree (fun c d => d = c) p q) : Refines c p q := fun henough => h.eq henough

end Refines

/-! ## One level -/

theorem operations_stops {n power : Nat} {left e : Expr} {c c' : Cursor}
    (hrun : operations n power left c = (.ok e, c')) : bindingPower c'.kind ≤ power := by
  induction n generalizing left c with
  | zero => cases hrun
  | succ n ih =>
      unfold operations at hrun
      obtain ⟨t, c₁, ⟨⟩, hrest⟩ := bind_eq_ok hrun
      by_cases hmore : power < bindingPower c.peek.kind
      · rw [if_pos hmore] at hrest
        obtain ⟨left', c₂, -, hothers⟩ := bind_eq_ok hrest
        exact ih hothers
      · rw [if_neg hmore] at hrest
        cases hrest
        exact Nat.le_of_not_lt hmore

theorem operation_stops {n power : Nat} {e : Expr} {c c' : Cursor}
    (hrun : operation n power c = (.ok e, c')) : bindingPower c'.kind ≤ power := by
  cases n with
  | zero => cases hrun
  | succ n =>
      unfold operation at hrun
      obtain ⟨left, c₁, -, hrest⟩ := bind_eq_ok hrun
      exact operations_stops hrest

theorem operations_of_le {n power : Nat} {left : Expr} {c : Cursor}
    (h : bindingPower c.kind ≤ power) : operations (n + 1) power left c = (.ok left, c) := by
  have hpeek : peek c = (.ok c.peek, c) := rfl
  have hstop : ¬power < bindingPower c.peek.kind := Nat.not_lt.mpr h
  rw [operations, bind_of_ok hpeek, if_neg hstop]
  rfl

theorem operations_of_lt {n power : Nat} {left : Expr} {c : Cursor}
    (h : power < bindingPower c.kind) :
    operations (n + 1) power left c =
      (operator n left >>= fun left => operations n power left) c := by
  have hpeek : peek c = (.ok c.peek, c) := rfl
  have hmore : power < bindingPower c.peek.kind := h
  rw [operations, bind_of_ok hpeek, if_pos hmore]

namespace Ladder

/--
The operators of power `q` join their operands by `node`, and `q` is the next power
after `p`.
-/
structure IsLevel (p q : Nat) (operators : List Kind)
    (node : Span → Token → Expr → Expr → Expr) : Prop where
  above : ∀ k, p < bindingPower k ↔ q ≤ bindingPower k
  exactly : ∀ k, k ∈ operators ↔ bindingPower k = q
  joins : ∀ n left c, c.kind ∈ operators →
    operator (n + 1) left c =
      (next >>= fun t => operation n q >>= fun right =>
        pure (node ⟨left.span.start, right.span.stop⟩ t left right)) c

theorem operator_logical {q n : Nat} {left : Expr} {c : Cursor}
    (hkind : c.kind = .orKw ∨ c.kind = .andKw) (hq : bindingPower c.kind = q) :
    operator (n + 1) left c =
      (next >>= fun t => operation n q >>= fun right =>
        pure (.logical ⟨left.span.start, right.span.stop⟩ t left right)) c := by
  have hnext : next c = (.ok c.peek, c.advance) := rfl
  change c.peek.kind = _ ∨ c.peek.kind = _ at hkind
  change bindingPower c.peek.kind = q at hq
  rw [operator, bind_of_ok hnext, bind_of_ok hnext]
  rcases hkind with hkind | hkind <;> simp only [hkind] at hq ⊢ <;> rw [hq]

theorem operator_binary {q n : Nat} {left : Expr} {c : Cursor}
    (hkind : 20 < bindingPower c.kind ∧ bindingPower c.kind < 80)
    (hq : bindingPower c.kind = q) :
    operator (n + 1) left c =
      (next >>= fun t => operation n q >>= fun right =>
        pure (.binary ⟨left.span.start, right.span.stop⟩ t left right)) c := by
  have hnext : next c = (.ok c.peek, c.advance) := rfl
  change 20 < bindingPower c.peek.kind ∧ bindingPower c.peek.kind < 80 at hkind
  change bindingPower c.peek.kind = q at hq
  rw [operator, bind_of_ok hnext, bind_of_ok hnext, ← hq]
  generalize c.peek.kind = kind at hkind
  cases kind with
  | leftParen | dot | andKw | orKw => simp [bindingPower] at hkind
  | _ => rfl

theorem isLevel_disjunction : IsLevel 0 10 [.orKw] .logical where
  above k := by cases k <;> decide
  exactly k := by cases k <;> decide
  joins n left c h := by
    have hkind : c.kind = .orKw := by simpa using h
    exact operator_logical (.inl hkind) (by rw [hkind]; rfl)

theorem isLevel_conjunction : IsLevel 10 20 [.andKw] .logical where
  above k := by cases k <;> decide
  exactly k := by cases k <;> decide
  joins n left c h := by
    have hkind : c.kind = .andKw := by simpa using h
    exact operator_logical (.inr hkind) (by rw [hkind]; rfl)

theorem isLevel_binary {p q : Nat} {operators : List Kind}
    (above : ∀ k, p < bindingPower k ↔ q ≤ bindingPower k)
    (exactly : ∀ k, k ∈ operators ↔ bindingPower k = q) (hq : 20 < q ∧ q < 80) :
    IsLevel p q operators .binary where
  above := above
  exactly := exactly
  joins n left c h := by
    have hpower := (exactly c.kind).mp h
    exact operator_binary (by omega) hpower

theorem isLevel_equality : IsLevel 20 30 [.equalEqual, .bangEqual] .binary :=
  isLevel_binary (fun k => by cases k <;> decide) (fun k => by cases k <;> decide) (by decide)

theorem isLevel_comparison :
    IsLevel 30 40 [.less, .lessEqual, .greater, .greaterEqual] .binary :=
  isLevel_binary (fun k => by cases k <;> decide) (fun k => by cases k <;> decide) (by decide)

theorem isLevel_term : IsLevel 40 50 [.plus, .minus] .binary :=
  isLevel_binary (fun k => by cases k <;> decide) (fun k => by cases k <;> decide) (by decide)

theorem isLevel_factor : IsLevel 50 60 [.star, .slash] .binary :=
  isLevel_binary (fun k => by cases k <;> decide) (fun k => by cases k <;> decide) (by decide)

section

variable {p q : Nat} {operators : List Kind} {node : Span → Token → Expr → Expr → Expr}
  {tighter : Parse Expr}

theorem leftward_of_mem {n : Nat} {left : Expr} {c : Cursor} (h : c.kind ∈ operators) :
    leftward operators node tighter (n + 1) left c =
      (next >>= fun t => tighter >>= fun right =>
        leftward operators node tighter n
          (node ⟨left.span.start, right.span.stop⟩ t left right)) c := by
  have hpeek : peek c = (.ok c.peek, c) := rfl
  have hmem : c.peek.kind ∈ operators := h
  rw [leftward, bind_of_ok hpeek, if_pos hmem]

theorem leftward_of_not_mem {n : Nat} {left : Expr} {c : Cursor} (h : c.kind ∉ operators) :
    leftward operators node tighter (n + 1) left c = (.ok left, c) := by
  have hpeek : peek c = (.ok c.peek, c) := rfl
  have hmem : c.peek.kind ∉ operators := h
  rw [leftward, bind_of_ok hpeek, if_neg hmem]
  rfl

/--
Operators tighter than `p` are read as those tighter than `q`, then those of power `q`
with their operands.
-/
theorem operations_split (hlevel : IsLevel p q operators node) {n m : Nat} (hm : n ≤ m)
    (htighter : ∀ k ≤ n, ∀ c, Refines c (operation k q) tighter) (left : Expr) (c : Cursor) :
    Refines c (operations n p left)
      (operations n q left >>= leftward operators node tighter m) := by
  induction n generalizing m left c with
  | zero => exact .outOfFuel
  | succ n ih =>
      obtain ⟨m, rfl⟩ : ∃ k, m = k + 1 := ⟨m - 1, by omega⟩
      have ih {m : Nat} (hm : n ≤ m) := ih hm fun k hk => htighter k (by omega)
      by_cases hp : p < bindingPower c.kind
      · rcases Nat.lt_or_eq_of_le ((hlevel.above c.kind).mp hp) with hq | hq
        · -- a tighter operator is read first by both
          refine .congr (operations_of_lt hp)
            ((bind_congr (operations_of_lt hq)).trans (bind_assoc _ c)) ?_
          exact Refines.refl.bind fun left' c' _ => ih (by omega) left' c'
        · -- an operator of this level: what follows its operand is no tighter
          have hmem : c.kind ∈ operators := (hlevel.exactly c.kind).mpr hq.symm
          have hstay : operations (n + 1) q left c = (.ok left, c) :=
            operations_of_le (Nat.le_of_eq hq.symm)
          cases n with
          | zero => exact .congr (operations_of_lt hp) rfl .outOfFuel
          | succ n =>
              refine .congr ((operations_of_lt hp).trans (bind_congr (hlevel.joins n left c hmem)))
                ((bind_of_ok hstay).trans (leftward_of_mem hmem)) ?_
              refine .congr (bind_assoc _ c) rfl (Refines.refl.bind fun t c₁ _ => ?_)
              refine .congr (bind_assoc _ c₁) rfl ?_
              refine (htighter n (by omega) c₁).bind fun right c₂ hright => ?_
              have hstay' (left' : Expr) : operations (n + 1) q left' c₂ = (.ok left', c₂) :=
                operations_of_le (operation_stops hright)
              have hrest := ih (by omega : n + 1 ≤ m)
                (node ⟨left.span.start, right.span.stop⟩ t left right) c₂
              exact .congr rfl (bind_of_ok (hstay' _)).symm hrest
      · -- nothing is read by either
        have hq : bindingPower c.kind ≤ q := by
          have habove := hlevel.above c.kind
          omega
        have hmem : c.kind ∉ operators := by
          have habove := hlevel.above c.kind
          rw [hlevel.exactly]
          omega
        refine .congr (operations_of_le (Nat.le_of_not_lt hp))
          ((bind_of_ok (operations_of_le hq)).trans (leftward_of_not_mem hmem)) .refl

theorem level_refines (hlevel : IsLevel p q operators node) {n m : Nat} (hm : n ≤ m)
    (htighter : ∀ c, Refines c (operation n q) tighter) (c : Cursor) :
    Refines c (operation n p) (tighter >>= leftward operators node tighter m) := by
  cases n with
  | zero => exact .outOfFuel
  | succ n =>
      have hless : ∀ k ≤ n, ∀ c, Refines c (operation k q) tighter := fun k hk c =>
        (Refines.ofAgree (operation_agree lockstep_eq (by omega : k ≤ n + 1) q)).trans
          (htighter c)
      have hsplit : Refines c (operation (n + 1) p)
          (operation (n + 1) q >>= leftward operators node tighter m) := by
        unfold operation
        refine .congr rfl (bind_assoc _ c) (Refines.refl.bind fun left c₁ _ => ?_)
        exact operations_split hlevel (by omega) hless left c₁
      exact hsplit.trans ((htighter c).bind fun _ _ _ => .refl)

end

/-! ## Operands -/

def Tight (power : Nat) : Prop := power = 60 ∨ power = 70

theorem tight_lt_iff {power : Nat} (h : Tight power) (k : Kind) :
    power < bindingPower k ↔ k = .leftParen ∨ k = .dot := by
  rcases h with rfl | rfl <;> cases k <;> decide

theorem tight_le {power : Nat} (h : Tight power) {k : Kind} (hk : bindingPower k ≤ unaryPower) :
    bindingPower k ≤ power := by
  rcases h with rfl | rfl
  · cases k <;> revert hk <;> decide
  · exact hk

theorem operand_of_unary {n : Nat} {c : Cursor} (hkind : c.kind = .bang ∨ c.kind = .minus) :
    operand (n + 1) c =
      (next >>= fun _ => operation n unaryPower >>= fun operand =>
        pure (.unary ⟨c.peek.span.start, operand.span.stop⟩ c.peek operand)) c := by
  have hpeek : peek c = (.ok c.peek, c) := rfl
  change c.peek.kind = .bang ∨ c.peek.kind = .minus at hkind
  rw [operand, bind_of_ok hpeek]
  rcases hkind with hkind | hkind <;> rw [hkind]

theorem unary_of_unary {n : Nat} {c : Cursor} (hkind : c.kind = .bang ∨ c.kind = .minus) :
    unary (n + 1) c =
      (next >>= fun _ => unary n >>= fun operand =>
        pure (.unary ⟨c.peek.span.start, operand.span.stop⟩ c.peek operand)) c := by
  have hpeek : peek c = (.ok c.peek, c) := rfl
  change c.peek.kind = .bang ∨ c.peek.kind = .minus at hkind
  rw [unary, bind_of_ok hpeek, if_pos hkind]

theorem unary_call {n : Nat} {c : Cursor} (hkind : ¬(c.kind = .bang ∨ c.kind = .minus)) :
    unary (n + 1) c = call n c := by
  have hpeek : peek c = (.ok c.peek, c) := rfl
  change ¬(c.peek.kind = .bang ∨ c.peek.kind = .minus) at hkind
  rw [unary, bind_of_ok hpeek, if_neg hkind]

theorem operator_leftParen {n : Nat} {left : Expr} {c : Cursor} (hkind : c.kind = .leftParen) :
    operator (n + 1) left c =
      (do
        let arguments ← if ← at? .rightParen then pure [] else Parser.arguments n 0
        let paren ← expect .rightParen "Expect ')' after arguments."
        return Expr.call ⟨left.span.start, paren.span.stop⟩ left paren arguments) c.advance := by
  have hnext : next c = (.ok c.peek, c.advance) := rfl
  change c.peek.kind = .leftParen at hkind
  rw [operator, bind_of_ok hnext, hkind]

theorem operator_dot {n : Nat} {left : Expr} {c : Cursor} (hkind : c.kind = .dot) :
    operator (n + 1) left c =
      (do
        let name ← expect .identifier "Expect property name after '.'."
        return Expr.get ⟨left.span.start, name.span.stop⟩ left name) c.advance := by
  have hnext : next c = (.ok c.peek, c.advance) := rfl
  change c.peek.kind = .dot at hkind
  rw [operator, bind_of_ok hnext, hkind]

theorem calls_leftParen {n : Nat} {callee : Expr} {c : Cursor} (hkind : c.kind = .leftParen) :
    calls (n + 1) callee c =
      (do
        let arguments ← if ← at? .rightParen then pure [] else arguments n 0
        let paren ← expect .rightParen "Expect ')' after arguments."
        calls n (.call ⟨callee.span.start, paren.span.stop⟩ callee paren arguments))
        c.advance := by
  have hparen : accept .leftParen c = (.ok true, c.advance) := by simp [accept, hkind]
  rw [calls, bind_of_ok hparen]
  rfl

theorem calls_dot {n : Nat} {callee : Expr} {c : Cursor} (hkind : c.kind = .dot) :
    calls (n + 1) callee c =
      (do
        let name ← expect .identifier "Expect property name after '.'."
        calls n (.get ⟨callee.span.start, name.span.stop⟩ callee name)) c.advance := by
  have hparen : accept .leftParen c = (.ok false, c) := by simp [accept, hkind]
  have hdot : accept .dot c = (.ok true, c.advance) := by simp [accept, hkind]
  rw [calls, bind_of_ok hparen, if_neg Bool.false_ne_true, bind_of_ok hdot]
  rfl

theorem calls_stop {n : Nat} {callee : Expr} {c : Cursor}
    (hkind : ¬(c.kind = .leftParen ∨ c.kind = .dot)) :
    calls (n + 1) callee c = (.ok callee, c) := by
  rw [not_or] at hkind
  have hparen : accept .leftParen c = (.ok false, c) := by simp [accept, hkind.1]
  have hdot : accept .dot c = (.ok false, c) := by simp [accept, hkind.2]
  rw [calls, bind_of_ok hparen, if_neg Bool.false_ne_true, bind_of_ok hdot]
  rfl

theorem disjunction_of_unary {n m : Nat} (h : 10 * n ≤ m)
    (hunary : ∀ m, 10 * n ≤ m + 6 → ∀ c, Refines c (operation n 60) (unary m)) (c : Cursor) :
    Refines c (operation n 0) (disjunction m) := by
  cases n with
  | zero => exact .outOfFuel
  | succ n =>
      obtain ⟨m, rfl⟩ : ∃ k, m = k + 6 := ⟨m - 6, by omega⟩
      have hfactor : ∀ c, Refines c (operation (n + 1) 50) (factor (m + 1)) :=
        level_refines isLevel_factor (by omega) (hunary m (by omega))
      have hterm : ∀ c, Refines c (operation (n + 1) 40) (term (m + 2)) :=
        level_refines isLevel_term (by omega) hfactor
      have hcomparison : ∀ c, Refines c (operation (n + 1) 30) (comparison (m + 3)) :=
        level_refines isLevel_comparison (by omega) hterm
      have hequality : ∀ c, Refines c (operation (n + 1) 20) (equality (m + 4)) :=
        level_refines isLevel_equality (by omega) hcomparison
      have hconjunction : ∀ c, Refines c (operation (n + 1) 10) (conjunction (m + 5)) :=
        level_refines isLevel_conjunction (by omega) hequality
      exact level_refines isLevel_disjunction (by omega) hconjunction c

mutual

theorem expression_refines {n m : Nat} (h : 10 * n ≤ m) (c : Cursor) :
    Refines c (Parser.expression n) (expression m) := by
  match n, m, h with
  | 0, _, _ => exact .outOfFuel
  | n + 1, m + 1, h =>
      have hleft := disjunction_of_unary (by omega : 10 * n ≤ m)
        (fun m hm => unary_refines (.inl rfl) hm) c
      unfold Parser.expression expression
      refine hleft.bind fun left c₁ _ => Refines.refl.bind fun found c₂ _ => ?_
      refine .ite (fun _ => ?_) fun _ => .refl
      refine Refines.refl.bind fun equals c₃ _ => ?_
      exact (expression_refines (by omega) c₃).bind fun value c₄ _ => .refl

theorem arguments_refines {n m : Nat} (h : 10 * n ≤ m) (count : Nat) (c : Cursor) :
    Refines c (Parser.arguments n count) (arguments m count) := by
  match n, m, h with
  | 0, _, _ => exact .outOfFuel
  | n + 1, m + 1, h =>
      have first (c : Cursor) : Refines c
          (Parser.expression n >>= fun argument => accept .comma >>= fun more =>
            if more then (do return argument :: (← Parser.arguments n (count + 1)))
            else pure [argument])
          (expression m >>= fun argument => accept .comma >>= fun more =>
            if more then (do return argument :: (← arguments m (count + 1)))
            else pure [argument]) := by
        refine (expression_refines (by omega) c).bind fun argument c₁ _ => ?_
        refine Refines.refl.bind fun more c₂ _ => .ite (fun _ => ?_) fun _ => .refl
        exact (arguments_refines (by omega) (count + 1) c₂).bind fun _ _ _ => .refl
      unfold Parser.arguments arguments
      refine .ite (fun _ => ?_) fun _ => first c
      exact Refines.refl.bind fun t c₁ _ => Refines.refl.bind fun _ c₂ _ => first c₂

theorem unary_refines {n m power : Nat} (htight : Tight power) (h : 10 * n ≤ m + 6)
    (c : Cursor) : Refines c (operation n power) (unary m) := by
  match n, h with
  | 0, _ => exact .outOfFuel
  | 1, _ => exact .outOfFuel
  | n + 2, h =>
      obtain ⟨m, rfl⟩ : ∃ k, m = k + 2 := ⟨m - 2, by omega⟩
      by_cases hkind : c.kind = .bang ∨ c.kind = .minus
      · refine .congr ((bind_congr (operand_of_unary hkind)).trans (bind_assoc _ c))
          (unary_of_unary hkind) (Refines.refl.bind fun _ c₁ _ => ?_)
        refine .congr (bind_assoc _ c₁) rfl ?_
        refine (unary_refines (.inr rfl) (by omega) c₁).bind fun operand c₂ hoperand => ?_
        have hstop := tight_le htight (operation_stops hoperand)
        exact .congr (operations_of_le hstop) rfl .refl
      · refine .congr rfl (unary_call hkind) ?_
        refine (operand_refines (by omega) hkind).bind fun callee c₁ _ => ?_
        exact calls_refines htight (by omega) callee c₁

theorem operand_refines {n m : Nat} (h : 10 * n ≤ m) {c : Cursor}
    (hkind : ¬(c.kind = .bang ∨ c.kind = .minus)) : Refines c (operand n) (primary m) := by
  match n, m, h with
  | 0, _, _ => exact .outOfFuel
  | n + 1, m + 1, h =>
      have hpeek : peek c = (.ok c.peek, c) := rfl
      change ¬(c.peek.kind = .bang ∨ c.peek.kind = .minus) at hkind
      unfold operand primary
      refine .congr (bind_of_ok hpeek) (bind_of_ok hpeek) ?_
      generalize c.peek.kind = kind at hkind
      cases kind with
      | bang | minus => simp at hkind
      | leftParen =>
          refine Refines.refl.bind fun _ c₁ _ => ?_
          exact (expression_refines (by omega) c₁).bind fun _ _ _ => .refl
      | _ => exact .refl

theorem calls_refines {n m power : Nat} (htight : Tight power) (h : 10 * n ≤ m)
    (left : Expr) (c : Cursor) : Refines c (operations n power left) (calls m left) := by
  match n, m, h with
  | 0, _, _ => exact .outOfFuel
  | n + 1, m + 1, h =>
      by_cases hkind : c.kind = .leftParen ∨ c.kind = .dot
      · have hread : operations (n + 1) power left c =
            (operator n left >>= fun left => operations n power left) c :=
          operations_of_lt ((tight_lt_iff htight c.kind).mpr hkind)
        match n, h with
        | 0, _ => exact .congr hread rfl .outOfFuel
        | n + 1, h =>
            have go (e : Expr) (c : Cursor) :
                Refines c (operations (n + 1) power e) (calls m e) :=
              calls_refines htight (by omega) e c
            rcases hkind with hkind | hkind
            · have close (arguments : List Expr) (c : Cursor) : Refines c
                  ((expect .rightParen "Expect ')' after arguments." >>= fun paren =>
                    pure (.call ⟨left.span.start, paren.span.stop⟩ left paren arguments)) >>=
                    fun e => operations (n + 1) power e)
                  (expect .rightParen "Expect ')' after arguments." >>= fun paren =>
                    calls m (.call ⟨left.span.start, paren.span.stop⟩ left paren arguments)) :=
                .congr (bind_assoc _ c) rfl (Refines.refl.bind fun paren c₁ _ => go _ c₁)
              refine .congr (hread.trans (bind_congr (operator_leftParen hkind)))
                (calls_leftParen hkind) ?_
              refine .congr (bind_assoc _ _) rfl (Refines.refl.bind fun none c₁ _ => ?_)
              cases none with
              | true => exact close [] c₁
              | false =>
                  refine .congr (bind_assoc _ c₁) rfl ?_
                  exact (arguments_refines (by omega) 0 c₁).bind fun arguments c₂ _ =>
                    close arguments c₂
            · refine .congr (hread.trans (bind_congr (operator_dot hkind))) (calls_dot hkind) ?_
              exact .congr (bind_assoc _ _) rfl (Refines.refl.bind fun name c₁ _ => go _ c₁)
      · have hstop := mt (tight_lt_iff htight c.kind).mp hkind
        exact .congr (operations_of_le (Nat.le_of_not_lt hstop)) (calls_stop hkind) .refl

end

end Ladder

/-! ## Whole inputs -/

/--
From every place before the first `eof`, an expression is read by binding power as it is
read level by level: the reply, the problems and the place after it are the same.
-/
theorem expression_eq_ladder {tokens : List Token} (h : ∃ e ∈ tokens, e.kind = .eof) {k : Nat}
    (hk : k ≤ endIndex tokens) {c : Cursor} (hat : c.At tokens k) {n m : Nat}
    (hn : fuelFor tokens ≤ n) (hm : 10 * n ≤ m) :
    (expression n c).1 ≠ .outOfFuel ∧ Ladder.expression m c = expression n c := by
  have hremaining := hat.remaining_le
  have henough : (expression n c).1 ≠ .outOfFuel := by
    have hclosed := hat.closed h hk
    refine (expression_progress n (Nat.le_refl _) c hclosed).enough ?_
    unfold fuelFor at hn
    omega
  exact ⟨henough, Ladder.expression_refines hm c henough⟩

/-- `-a.b(c) + !d = * 1`, which is no expression. -/
def mixedTokens : List Token :=
  [{ kind := .minus }, { kind := .identifier }, { kind := .dot }, { kind := .identifier },
   { kind := .leftParen }, { kind := .identifier }, { kind := .rightParen }, { kind := .plus },
   { kind := .bang }, { kind := .identifier }, { kind := .equal }, { kind := .star },
   { kind := .number }, { kind := .eof }]

theorem expression_eq_ladder_mixed :
    (∃ e ∈ mixedTokens, e.kind = .eof) ∧ 0 ≤ endIndex mixedTokens ∧
      (Cursor.start mixedTokens).At mixedTokens 0 ∧
      (expression (fuelFor mixedTokens) (.start mixedTokens)).1 ≠ .outOfFuel ∧
      Ladder.expression (10 * fuelFor mixedTokens) (.start mixedTokens) =
        expression (fuelFor mixedTokens) (.start mixedTokens) :=
  ⟨by decide, Nat.zero_le _, .start mixedTokens,
    expression_eq_ladder (by decide) (Nat.zero_le _) (.start mixedTokens) (Nat.le_refl _)
      (Nat.le_refl _)⟩

end Lox.Parser
