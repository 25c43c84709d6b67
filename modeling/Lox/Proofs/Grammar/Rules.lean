import Lox.Tree

/-!
The grammar.

Every rule says of a list of tokens which tree it stands for.  A tree covers its tokens,
from the start of the first to the end of the last.  Expressions come in levels: a phrase
of a level may be one of the next tighter level, so operators hold as their levels say,
and those that join two operands do so from the left.  An `else` belongs to the nearest
`if`: the statement before it must not end in an `if` that could take it.
-/

namespace Lox.Grammar

def covering (xs : List Token) : Span :=
  ⟨(xs.head?.getD default).span.start, (xs.getLast?.getD default).span.stop⟩

def limit : Nat := 255

/-! ## Expressions -/

/-- From the loosest to the tightest. -/
inductive Level where
  | assignment | disjunction | conjunction | equality | comparison | term | factor
  | unary | call | primary
  deriving DecidableEq

namespace Level

def tighter? : Level → Option Level
  | .assignment => some .disjunction
  | .disjunction => some .conjunction
  | .conjunction => some .equality
  | .equality => some .comparison
  | .comparison => some .term
  | .term => some .factor
  | .factor => some .unary
  | .unary => some .call
  | .call => some .primary
  | .primary => none

def operators : Level → List Kind
  | .disjunction => [.orKw]
  | .conjunction => [.andKw]
  | .equality => [.equalEqual, .bangEqual]
  | .comparison => [.less, .lessEqual, .greater, .greaterEqual]
  | .term => [.plus, .minus]
  | .factor => [.star, .slash]
  | _ => []

def node : Level → Span → Token → Expr → Expr → Expr
  | .disjunction | .conjunction => .logical
  | _ => .binary

end Level

def constant? (t : Token) : Option Literal :=
  match t.kind with
  | .falseKw => some (.bool false)
  | .trueKw => some (.bool true)
  | .nilKw => some .nil
  | .number | .string => some t.literal
  | _ => none

inductive Separated : List (List Token) → List Token → Prop where
  | none : Separated [] []
  | one (xs : List Token) : Separated [xs] xs
  | more {xs ys zs : List Token} {rest : List (List Token)} {comma : Token} :
      comma.kind = .comma → Separated (ys :: rest) zs →
      Separated (xs :: ys :: rest) (xs ++ comma :: zs)

inductive Phrase : Level → List Token → Expr → Prop where
  | tighter {level next : Level} {xs : List Token} {e : Expr} :
      level.tighter? = some next → Phrase next xs e → Phrase level xs e
  | assign {name equals : Token} {xs : List Token} {value : Expr} :
      name.kind = .identifier → equals.kind = .equal → Phrase .assignment xs value →
      Phrase .assignment (name :: equals :: xs)
        (.assign { span := covering (name :: equals :: xs), name } value)
  | set {dot name equals : Token} {xs ys : List Token} {object value : Expr} :
      Phrase .call xs object → dot.kind = .dot → name.kind = .identifier →
      equals.kind = .equal → Phrase .assignment ys value →
      Phrase .assignment (xs ++ dot :: name :: equals :: ys)
        (.set (covering (xs ++ dot :: name :: equals :: ys)) object name value)
  | join {level next : Level} {operator : Token} {xs ys : List Token} {left right : Expr} :
      operator.kind ∈ level.operators → level.tighter? = some next →
      Phrase level xs left → Phrase next ys right →
      Phrase level (xs ++ operator :: ys)
        (level.node (covering (xs ++ operator :: ys)) operator left right)
  | unary {operator : Token} {xs : List Token} {operand : Expr} :
      operator.kind = .bang ∨ operator.kind = .minus → Phrase .unary xs operand →
      Phrase .unary (operator :: xs) (.unary (covering (operator :: xs)) operator operand)
  | call {opening closing : Token} {xs ys : List Token} {callee : Expr}
      {arguments : List (List Token × Expr)} :
      Phrase .call xs callee → opening.kind = .leftParen →
      (∀ argument ∈ arguments, Phrase .assignment argument.1 argument.2) →
      Separated (arguments.map Prod.fst) ys → arguments.length ≤ limit →
      closing.kind = .rightParen →
      Phrase .call (xs ++ opening :: (ys ++ [closing]))
        (.call (covering (xs ++ opening :: (ys ++ [closing]))) callee closing
          (arguments.map Prod.snd))
  | get {dot name : Token} {xs : List Token} {object : Expr} :
      Phrase .call xs object → dot.kind = .dot → name.kind = .identifier →
      Phrase .call (xs ++ [dot, name]) (.get (covering (xs ++ [dot, name])) object name)
  | constant {t : Token} {value : Literal} :
      constant? t = some value → Phrase .primary [t] (.literal t.span value)
  | var {t : Token} :
      t.kind = .identifier → Phrase .primary [t] (.var { span := t.span, name := t })
  | thisRef {t : Token} :
      t.kind = .thisKw → Phrase .primary [t] (.thisRef { span := t.span, name := t })
  | superRef {t dot method : Token} :
      t.kind = .superKw → dot.kind = .dot → method.kind = .identifier →
      Phrase .primary [t, dot, method]
        (.superRef { span := covering [t, dot, method], name := t } method)
  | grouping {opening closing : Token} {xs : List Token} {inner : Expr} :
      opening.kind = .leftParen → Phrase .assignment xs inner → closing.kind = .rightParen →
      Phrase .primary (opening :: (xs ++ [closing]))
        (.grouping (covering (opening :: (xs ++ [closing]))) inner)

inductive Optional : List Token → Option Expr → Prop where
  | none : Optional [] none
  | some {xs : List Token} {e : Expr} : Phrase .assignment xs e → Optional xs (some e)

/-! ## Loops with a header -/

def withIncrement (body : Stmt) : Option Expr → Stmt
  | none => body
  | some e => .block body.span [body, .expression e.span e]

def conditionOr (semicolon : Token) (condition : Option Expr) : Expr :=
  condition.getD (.literal ⟨semicolon.span.start, semicolon.span.start⟩ (.bool true))

def withInitial (initial : Option Stmt) (loop : Stmt) : Stmt :=
  match initial with
  | none => loop
  | some s => .block loop.span [s, loop]

/-! ## Statements and declarations -/

inductive Variable : List Token → Stmt → Prop where
  | plain {keyword name semicolon : Token} :
      keyword.kind = .varKw → name.kind = .identifier → semicolon.kind = .semicolon →
      Variable [keyword, name, semicolon] (.var (covering [keyword, name, semicolon]) name none)
  | initialized {keyword name equals semicolon : Token} {xs : List Token} {e : Expr} :
      keyword.kind = .varKw → name.kind = .identifier → equals.kind = .equal →
      Phrase .assignment xs e → semicolon.kind = .semicolon →
      Variable (keyword :: name :: equals :: (xs ++ [semicolon]))
        (.var (covering (keyword :: name :: equals :: (xs ++ [semicolon]))) name (some e))

inductive Effect : List Token → Stmt → Prop where
  | mk {semicolon : Token} {xs : List Token} {e : Expr} :
      Phrase .assignment xs e → semicolon.kind = .semicolon →
      Effect (xs ++ [semicolon]) (.expression (covering (xs ++ [semicolon])) e)

inductive Initial : List Token → Option Stmt → Prop where
  | none {semicolon : Token} : semicolon.kind = .semicolon → Initial [semicolon] none
  | var {xs : List Token} {s : Stmt} : Variable xs s → Initial xs (some s)
  | effect {xs : List Token} {s : Stmt} : Effect xs s → Initial xs (some s)

inductive Superclass : List Token → Option Reference → Prop where
  | none : Superclass [] none
  | some {less parent : Token} : less.kind = .less → parent.kind = .identifier →
      Superclass [less, parent] (some { span := parent.span, name := parent })

mutual

/-- `dangling` says that the statement ends in an `if` that an `else` could follow. -/
inductive Statement : (dangling : Bool) → List Token → Stmt → Prop where
  | effect {xs : List Token} {s : Stmt} : Effect xs s → Statement false xs s
  | print {keyword semicolon : Token} {xs : List Token} {e : Expr} :
      keyword.kind = .printKw → Phrase .assignment xs e → semicolon.kind = .semicolon →
      Statement false (keyword :: (xs ++ [semicolon]))
        (.print (covering (keyword :: (xs ++ [semicolon]))) e)
  | ret {keyword semicolon : Token} {xs : List Token} {value : Option Expr} :
      keyword.kind = .returnKw → Optional xs value → semicolon.kind = .semicolon →
      Statement false (keyword :: (xs ++ [semicolon]))
        (.ret (covering (keyword :: (xs ++ [semicolon]))) keyword value)
  | block {opening closing : Token} {xs : List Token} {body : List Stmt} :
      opening.kind = .leftBrace → Declarations xs body → closing.kind = .rightBrace →
      Statement false (opening :: (xs ++ [closing]))
        (.block (covering (opening :: (xs ++ [closing]))) body)
  | loop {keyword opening closing : Token} {xs ys : List Token} {condition : Expr} {body : Stmt}
      {dangling : Bool} :
      keyword.kind = .whileKw → opening.kind = .leftParen → Phrase .assignment xs condition →
      closing.kind = .rightParen → Statement dangling ys body →
      Statement dangling (keyword :: opening :: (xs ++ closing :: ys))
        (.loop (covering (keyword :: opening :: (xs ++ closing :: ys))) condition body)
  | forLoop {keyword opening semicolon closing : Token} {xs ys zs ws : List Token}
      {initial : Option Stmt} {condition increment : Option Expr} {body : Stmt}
      {dangling : Bool} :
      keyword.kind = .forKw → opening.kind = .leftParen → Initial xs initial →
      Optional ys condition → semicolon.kind = .semicolon → Optional zs increment →
      closing.kind = .rightParen → Statement dangling ws body →
      Statement dangling
        (keyword :: opening :: (xs ++ (ys ++ semicolon :: (zs ++ closing :: ws))))
        (withInitial initial
          (.loop (covering
              (keyword :: opening :: (xs ++ (ys ++ semicolon :: (zs ++ closing :: ws)))))
            (conditionOr semicolon condition) (withIncrement body increment)))
  | branch {keyword opening closing : Token} {xs ys : List Token} {condition : Expr}
      {onTrue : Stmt} {dangling : Bool} :
      keyword.kind = .ifKw → opening.kind = .leftParen → Phrase .assignment xs condition →
      closing.kind = .rightParen → Statement dangling ys onTrue →
      Statement true (keyword :: opening :: (xs ++ closing :: ys))
        (.branch (covering (keyword :: opening :: (xs ++ closing :: ys))) condition onTrue none)
  | branchElse {keyword opening closing word : Token} {xs ys zs : List Token}
      {condition : Expr} {onTrue onFalse : Stmt} {dangling : Bool} :
      keyword.kind = .ifKw → opening.kind = .leftParen → Phrase .assignment xs condition →
      closing.kind = .rightParen → Statement false ys onTrue → word.kind = .elseKw →
      Statement dangling zs onFalse →
      Statement dangling (keyword :: opening :: (xs ++ closing :: (ys ++ word :: zs)))
        (.branch (covering (keyword :: opening :: (xs ++ closing :: (ys ++ word :: zs))))
          condition onTrue (some onFalse))

inductive Declaration : List Token → Stmt → Prop where
  | statement {xs : List Token} {s : Stmt} {dangling : Bool} :
      Statement dangling xs s → Declaration xs s
  | var {xs : List Token} {s : Stmt} : Variable xs s → Declaration xs s
  | function {keyword name : Token} {xs ps : List Token} {body : List Stmt} :
      keyword.kind = .funKw → Function xs name ps body →
      Declaration (keyword :: xs) (.function (.mk (covering (keyword :: xs)) name ps body))
  | classDecl {keyword name opening closing : Token} {xs ys : List Token}
      {superclass : Option Reference} {methods : List FunctionDecl} :
      keyword.kind = .classKw → name.kind = .identifier → Superclass xs superclass →
      opening.kind = .leftBrace → Methods ys methods → closing.kind = .rightBrace →
      Declaration (keyword :: name :: (xs ++ opening :: (ys ++ [closing])))
        (.classDecl (covering (keyword :: name :: (xs ++ opening :: (ys ++ [closing])))) name
          superclass methods)

inductive Declarations : List Token → List Stmt → Prop where
  | nil : Declarations [] []
  | cons {xs ys : List Token} {s : Stmt} {rest : List Stmt} :
      Declaration xs s → Declarations ys rest → Declarations (xs ++ ys) (s :: rest)

inductive Function :
    List Token → (name : Token) → (parameters : List Token) → List Stmt → Prop where
  | mk {name opening closing brace last : Token} {xs ys ps : List Token} {body : List Stmt} :
      name.kind = .identifier → opening.kind = .leftParen →
      (∀ p ∈ ps, p.kind = .identifier) → Separated (ps.map fun p => [p]) xs →
      ps.length ≤ limit → closing.kind = .rightParen → brace.kind = .leftBrace →
      Declarations ys body → last.kind = .rightBrace →
      Function (name :: opening :: (xs ++ closing :: brace :: (ys ++ [last]))) name ps body

inductive Methods : List Token → List FunctionDecl → Prop where
  | nil : Methods [] []
  | cons {xs ys ps : List Token} {name : Token} {body : List Stmt} {rest : List FunctionDecl} :
      Function xs name ps body → Methods ys rest →
      Methods (xs ++ ys) (.mk (covering xs) name ps body :: rest)

end

/-! ## Levels -/

namespace Level

def power : Level → Nat
  | .assignment => 0
  | .disjunction => 10
  | .conjunction => 20
  | .equality => 30
  | .comparison => 40
  | .term => 50
  | .factor => 60
  | .unary => 70
  | .call => 80
  | .primary => 90

theorem power_lt_of_tighter {level next : Level} (h : level.tighter? = some next) :
    level.power < next.power := by
  cases level <;> cases h <;> decide

theorem exists_tighter {level other : Level} (h : level.power < other.power) :
    ∃ next, level.tighter? = some next ∧ next.power ≤ other.power := by
  cases level <;> cases other <;> simp_all [power, tighter?]

theorem power_injective {level other : Level} (h : level.power = other.power) :
    level = other := by
  cases level <;> cases other <;> simp_all [power]

theorem power_le (level : Level) : level.power ≤ 90 := by
  cases level <;> decide

@[simp] theorem span_node (level : Level) (span : Span) (operator : Token) (left right : Expr) :
    (level.node span operator left right).span = span := by
  cases level <;> rfl

end Level

theorem Phrase.loosen {level other : Level} {xs : List Token} {e : Expr}
    (h : level.power ≤ other.power) (hphrase : Phrase other xs e) : Phrase level xs e := by
  rcases Nat.eq_or_lt_of_le h with heq | hlt
  · rwa [Level.power_injective heq]
  · obtain ⟨next, hnext, hle⟩ := Level.exists_tighter hlt
    have hgrows := Level.power_lt_of_tighter hnext
    have hbound := Level.power_le next
    exact .tighter hnext (loosen hle hphrase)
termination_by 90 - level.power

theorem Phrase.eq_of_var {level : Level} {xs : List Token} {reference : Reference}
    (h : Phrase level xs (.var reference)) :
    reference.name.kind = .identifier ∧ xs = [reference.name] := by
  generalize he : Expr.var reference = e at h
  induction h with
  | tighter _ _ ih => exact ih he
  | var hkind => cases he; exact ⟨hkind, rfl⟩
  | @join level => cases level <;> cases he
  | _ => cases he

theorem Phrase.eq_of_get {level : Level} {xs : List Token} {span : Span} {object : Expr}
    {name : Token} (h : Phrase level xs (.get span object name)) :
    ∃ dot ys, xs = ys ++ [dot, name] ∧ dot.kind = .dot ∧ name.kind = .identifier ∧
      Phrase .call ys object := by
  generalize he : Expr.get span object name = e at h
  induction h with
  | tighter _ _ ih => exact ih he
  | get hobject hdot hname => cases he; exact ⟨_, _, rfl, hdot, hname, hobject⟩
  | @join level => cases level <;> cases he
  | _ => cases he

/-! ## First tokens -/

def startsExpression : Kind → Bool
  | .falseKw | .trueKw | .nilKw | .number | .string | .identifier | .thisKw | .superKw
  | .leftParen | .bang | .minus => true
  | _ => false

def startsStatement : Kind → Bool
  | .forKw | .ifKw | .printKw | .returnKw | .whileKw | .leftBrace => true
  | k => startsExpression k

def startsDeclaration : Kind → Bool
  | .classKw | .funKw | .varKw => true
  | k => startsStatement k

theorem startsStatement_of_expression {k : Kind} (h : startsExpression k = true) :
    startsStatement k = true := by
  cases k <;> first | rfl | cases h

theorem startsDeclaration_of_statement {k : Kind} (h : startsStatement k = true) :
    startsDeclaration k = true := by
  cases k <;> first | rfl | cases h

def Begins (starts : Kind → Bool) (xs : List Token) : Prop :=
  ∃ t rest, xs = t :: rest ∧ starts t.kind = true

namespace Begins

variable {starts : Kind → Bool} {t : Token} {xs ys : List Token}

theorem cons (h : starts t.kind = true) : Begins starts (t :: xs) :=
  ⟨t, xs, rfl, h⟩

theorem append (h : Begins starts xs) : Begins starts (xs ++ ys) := by
  obtain ⟨t, rest, rfl, ht⟩ := h
  exact .cons ht

theorem imp {more : Kind → Bool} (h : Begins starts xs)
    (hmore : ∀ {k}, starts k = true → more k = true) : Begins more xs := by
  obtain ⟨t, rest, rfl, ht⟩ := h
  exact .cons (hmore ht)

theorem ne_nil (h : Begins starts xs) : xs ≠ [] := by
  obtain ⟨t, rest, rfl, -⟩ := h
  simp

end Begins

theorem Separated.begins {starts : Kind → Bool} {first xs : List Token} {rest : List (List Token)}
    (h : Separated (first :: rest) xs) (hfirst : Begins starts first) : Begins starts xs := by
  cases h with
  | one => exact hfirst
  | more => exact hfirst.append

theorem Phrase.begins {level : Level} {xs : List Token} {e : Expr} (h : Phrase level xs e) :
    Begins startsExpression xs := by
  induction h with
  | tighter _ _ ih => exact ih
  | assign hname => exact .cons (by rw [hname]; rfl)
  | set _ _ _ _ _ ih | join _ _ _ _ ih | call _ _ _ _ _ _ ih | get _ _ _ ih => exact ih.append
  | unary hoperator =>
      apply Begins.cons
      rcases hoperator with h | h <;> rw [h] <;> rfl
  | @constant t _ hvalue =>
      apply Begins.cons
      unfold constant? at hvalue
      split at hvalue <;> first | (rename_i hkind; rw [hkind]; rfl) | cases hvalue
  | var hkind | thisRef hkind | superRef hkind | grouping hkind =>
      exact .cons (by rw [hkind]; rfl)

theorem Phrase.ne_nil {level : Level} {xs : List Token} {e : Expr} (h : Phrase level xs e) :
    xs ≠ [] := h.begins.ne_nil

theorem Variable.begins {xs : List Token} {s : Stmt} (h : Variable xs s) :
    Begins startsDeclaration xs := by
  cases h with
  | plain hkeyword | initialized hkeyword => exact .cons (by rw [hkeyword]; rfl)

theorem Effect.begins {xs : List Token} {s : Stmt} (h : Effect xs s) :
    Begins startsExpression xs := by
  cases h with
  | mk hexpr => exact hexpr.begins.append

theorem Statement.begins {dangling : Bool} {xs : List Token} {s : Stmt}
    (h : Statement dangling xs s) : Begins startsStatement xs := by
  cases h with
  | effect heffect => exact heffect.begins.imp startsStatement_of_expression
  | print hkind | ret hkind | block hkind | loop hkind | forLoop hkind | branch hkind
  | branchElse hkind => exact .cons (by rw [hkind]; rfl)

theorem Statement.ne_nil {dangling : Bool} {xs : List Token} {s : Stmt}
    (h : Statement dangling xs s) : xs ≠ [] := h.begins.ne_nil

theorem Declaration.begins {xs : List Token} {s : Stmt} (h : Declaration xs s) :
    Begins startsDeclaration xs := by
  cases h with
  | statement hstatement => exact hstatement.begins.imp startsDeclaration_of_statement
  | var hvariable => exact hvariable.begins
  | function hkind | classDecl hkind => exact .cons (by rw [hkind]; rfl)

theorem Function.begins {xs ps : List Token} {name : Token} {body : List Stmt}
    (h : Function xs name ps body) : name.kind = .identifier ∧ ∃ rest, xs = name :: rest := by
  cases h with
  | mk hname => exact ⟨hname, _, rfl⟩

theorem Function.ne_nil {xs ps : List Token} {name : Token} {body : List Stmt}
    (h : Function xs name ps body) : xs ≠ [] := by
  obtain ⟨-, rest, rfl⟩ := h.begins
  simp

/-! ## Ranges -/

section Covering

variable {xs ys : List Token} {t : Token}

@[simp] theorem covering_singleton : covering [t] = t.span := rfl

@[simp] theorem stop_covering_append (hys : ys ≠ []) :
    (covering (xs ++ ys)).stop = (covering ys).stop := by
  unfold covering
  rw [List.getLast?_append, List.getLast?_eq_some_getLast hys]
  rfl

@[simp] theorem covering_append (hxs : xs ≠ []) (hys : ys ≠ []) :
    covering (xs ++ ys) = ⟨(covering xs).start, (covering ys).stop⟩ := by
  rw [← stop_covering_append hys]
  unfold covering
  rw [List.head?_append, List.head?_eq_some_head hxs]
  rfl

@[simp] theorem covering_cons (hxs : xs ≠ []) :
    covering (t :: xs) = ⟨t.span.start, (covering xs).stop⟩ :=
  covering_append (List.cons_ne_nil t []) hxs

end Covering

theorem Phrase.span {level : Level} {xs : List Token} {e : Expr} (h : Phrase level xs e) :
    e.span = covering xs := by
  induction h with
  | tighter _ _ ih => exact ih
  | join => exact Level.span_node ..
  | assign | set | unary | call | get | constant | var | thisRef | superRef | grouping => rfl

theorem Statement.span {dangling : Bool} {xs : List Token} {s : Stmt}
    (h : Statement dangling xs s) : s.span = covering xs := by
  cases h with
  | effect heffect => cases heffect; rfl
  | @forLoop _ _ _ _ _ _ _ _ initial => cases initial <;> rfl
  | print | ret | block | loop | branch | branchElse => rfl

end Lox.Grammar
