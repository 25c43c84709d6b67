import Lox.Proofs.Number.ReadBack
import Lox.Proofs.Rendering.Form
import Lox.Proofs.Rendering.Words

/-!
The printed form of a tree is unambiguous.

Where there are no strings, a tree is found again in its form: the tag and the number of parts
tell what node it is, words are those of tokens or of literals, and numbers are read from their
digits.  So trees with one text are the same, but for where they and their tokens stand.
-/

namespace Lox

/-! ## Words -/

theorem not_delimiter_of_isWordPart :
    ∀ b, Scan.isWordPart b = true → Form.isDelimiter b = false :=
  Scan.forall_byte (by decide +kernel)

theorem isWordPart_of_isDigit {b : UInt8} (h : Bytes.isDigit b = true) :
    Scan.isWordPart b = true := by
  simp [Scan.isWordPart, h]

theorem Scan.IsLexeme.word_of_kindOf {s : Bytes} (hs : IsLexeme s)
    (h : kindOf s = .identifier) :
    ∃ b tail, s = b :: tail ∧ isWordStart b = true ∧ ∀ c ∈ tail, isWordPart c = true := by
  cases hs with
  | operator hmem =>
      have hall : ∀ entry ∈ operators, entry.2 ≠ .identifier := by decide
      rw [kindOf_operator hmem] at h
      exact absurd h (hall _ hmem)
  | whole hdigits =>
      rw [(Denotes.whole hdigits).kindOf] at h
      cases h
  | decimal hwhole hfraction =>
      rw [(Denotes.decimal hwhole hfraction).kindOf] at h
      cases h
  | word hstart htail => exact ⟨_, _, rfl, hstart, htail⟩
  | string hbody =>
      rw [kindOf_string] at h
      cases h

theorem Token.Is.word {t : Token} (h : t.Is .identifier) :
    Form.Solid t.lexeme ∧ t.lexeme ≠ utf8 "+Inf" := by
  obtain ⟨b, tail, hlexeme, hstart, htail⟩ :=
    h.lexeme.word_of_kindOf (h.kind_eq.symm.trans h.kind)
  have hpart : Scan.isWordPart b = true := by simp [Scan.isWordPart, hstart]
  rw [hlexeme]
  refine ⟨⟨by simp, ?_⟩, ?_⟩
  · rw [List.forall_mem_cons]
    exact ⟨not_delimiter_of_isWordPart b hpart,
      fun c hc => not_delimiter_of_isWordPart c (htail c hc)⟩
  · intro heq
    have hplus : utf8 "+Inf" = 0x2b :: utf8 "Inf" := by decide
    rw [hplus] at heq
    cases heq
    cases hstart

def Kind.operates (k : Kind) : Bool :=
  k.signs || k.joins || k == .andKw || k == .orKw

def statementTags : List Bytes :=
  [utf8 "expression", utf8 "print", utf8 "var", utf8 "block", utf8 "if", utf8 "if-else",
   utf8 "while", utf8 "fun", utf8 "return", utf8 "class"]

theorem solid_of_operates {t : Token} (h : t.Genuine) (hkind : t.kind.operates = true) :
    Form.Solid t.lexeme ∧ t.lexeme ∉ statementTags := by
  have hall : ∀ entry ∈ Scan.operators ++ Kind.reserved, entry.2.operates = true →
      Form.Solid entry.1 ∧ entry.1 ∉ statementTags := by
    decide +kernel
  have hliteral : t.kind.isLiteral = false := by
    revert hkind
    cases t.kind <;> decide
  exact hall _ (Token.Is.mem_fixed ⟨h, rfl⟩ hliteral) hkind

namespace Token

def ofLexeme (w : Bytes) : Token :=
  { kind := Scan.kindOf w, lexeme := w, literal := Scan.literalOf (Scan.kindOf w) w }

theorem Genuine.unplace_eq_ofLexeme {t : Token} (h : t.Genuine) :
    t.unplace = ofLexeme t.lexeme := by
  simp only [unplace, ofLexeme, h.literal_eq, h.kind_eq]

theorem Is.unplace_eq_ofLexeme {t : Token} {k : Kind} {w : Bytes} (h : t.Is k)
    (hw : (w, k) ∈ Scan.operators ++ Kind.reserved) (hk : k.isLiteral = false) :
    t.unplace = ofLexeme w := by
  rw [h.toGenuine.unplace_eq_ofLexeme, Scan.eq_of_mem_fixed (h.mem_fixed hk) hw]

end Token

/-! ## Numbers -/

namespace Number

def infinity : Float := Float.ofBits 0x7ff0000000000000

theorem literal_infinity : literal infinity = utf8 "+Inf" := by decide

theorem literal_denotes {x : Float} (h : x.toBits.toNat ≤ 0x7ff0000000000000) :
    x = infinity ∨
      (∃ v, Scan.Denotes (literal x) v) ∧ Scan.literalOf .number (literal x) = .number x := by
  rcases Nat.lt_or_eq_of_le h with hlt | heq
  · exact .inr (texts_denote hlt (.inr rfl))
  · exact .inl (eq_of_toBits (UInt64.toNat_inj.mp heq))

end Number

theorem Scan.Denotes.solid {text : Bytes} {v : ℚ} (h : Scan.Denotes text v) :
    Form.Solid text := by
  have hdigits {digits : Bytes} (hdigits : Scan.IsDigits digits) :
      ∀ b ∈ digits, Form.isDelimiter b = false := fun b hb =>
    not_delimiter_of_isWordPart b (isWordPart_of_isDigit (hdigits.2 b hb))
  cases h with
  | whole h => exact ⟨h.1, hdigits h⟩
  | decimal hwhole hfraction =>
      refine ⟨by simp, ?_⟩
      intro b hb
      rcases List.mem_append.mp hb with hb | hb
      · exact hdigits hwhole b hb
      · rcases List.mem_cons.mp hb with rfl | hb
        · decide
        · exact hdigits hfraction b hb

theorem Literal.Written.le {x : Float} (h : Literal.Written (.number x)) :
    x.toBits.toNat ≤ 0x7ff0000000000000 := by
  obtain ⟨t, ht, hliteral⟩ := h x rfl
  rw [ht.literal_eq, ht.kind] at hliteral
  cases hliteral
  exact Number.ofScientific_le _ _

/-! ## Reading forms -/

def Expr.ofWord (w : Bytes) : Expr :=
  if w = utf8 "+Inf" then .literal {} (.number Number.infinity)
  else
    match Scan.kindOf w with
    | .nilKw => .literal {} .nil
    | .trueKw => .literal {} (.bool true)
    | .falseKw => .literal {} (.bool false)
    | .number => .literal {} (Scan.literalOf .number w)
    | .thisKw => .thisRef { span := {}, name := .ofLexeme w }
    | _ => .var { span := {}, name := .ofLexeme w }

namespace Form

def wordAt? (parts : List Form) (i : Nat) : Option Bytes :=
  match parts[i]? with
  | some (.word w) => some w
  | _ => none

@[simp] theorem wordAt?_zero (w : Bytes) (parts : List Form) :
    wordAt? (.word w :: parts) 0 = some w := rfl

@[simp] theorem wordAt?_succ (f : Form) (parts : List Form) (i : Nat) :
    wordAt? (f :: parts) (i + 1) = wordAt? parts i := by
  simp [wordAt?]

def name (parts : List Form) : Token := .ofLexeme ((wordAt? parts 0).getD [])

end Form

def Expr.ofParts (tag : Bytes) (parts : List Form) (es : List Expr) : Expr :=
  match Scan.kindOf tag with
  | .identifier =>
      if tag = utf8 "group" then .grouping {} (es.getD 0 .absent)
      else if tag = utf8 "call" then
        .call {} (es.getD 0 .absent) (.ofLexeme (utf8 ")")) (es.drop 1)
      else if tag = utf8 "assign" then
        .assign { span := {}, name := Form.name parts } (es.getD 1 .absent)
      else if tag = utf8 "get" then .get {} (es.getD 1 .absent) (Form.name parts)
      else .set {} (es.getD 1 .absent) (Form.name parts) (es.getD 2 .absent)
  | .superKw => .superRef { span := {}, name := .ofLexeme tag } (Form.name parts)
  | .andKw | .orKw => .logical {} (.ofLexeme tag) (es.getD 0 .absent) (es.getD 1 .absent)
  | _ =>
      -- a sign and a difference have the same tag
      match es with
      | [operand] => .unary {} (.ofLexeme tag) operand
      | _ => .binary {} (.ofLexeme tag) (es.getD 0 .absent) (es.getD 1 .absent)

mutual

def Form.expr : Form → Expr
  | .word w => .ofWord w
  | .list tag parts => .ofParts tag parts (Form.exprs parts)
  | .header _ _ => .absent

def Form.exprs : List Form → List Expr
  | [] => []
  | f :: rest => f.expr :: Form.exprs rest

end

theorem Form.exprs_eq_map (fs : List Form) : exprs fs = fs.map expr := by
  induction fs with
  | nil => rfl
  | cons f rest ih => rw [exprs, ih, List.map_cons]

def Expr.Stringless : Expr → Prop
  | .literal _ (.text _) => False
  | _ => True

theorem Reference.Uses.unplace_eq_ofLexeme {k : Kind} {r : Reference} (h : r.Uses k) :
    r.relabel .unplace = { span := {}, name := .ofLexeme r.name.lexeme } := by
  simp only [relabel, Relabelling.unplace, h.name.toGenuine.unplace_eq_ofLexeme, h.hops, id]

theorem Reference.Uses.unplace_keyword {k : Kind} {r : Reference} {w : Bytes} (h : r.Uses k)
    (hw : (w, k) ∈ Scan.operators ++ Kind.reserved) (hk : k.isLiteral = false) :
    r.relabel .unplace = { span := {}, name := .ofLexeme w } := by
  rw [h.unplace_eq_ofLexeme, Scan.eq_of_mem_fixed (h.name.mem_fixed hk) hw]

namespace Expr

theorem ofWord_identifier {t : Token} (h : t.Is .identifier) :
    ofWord t.lexeme = .var { span := {}, name := .ofLexeme t.lexeme } := by
  rw [ofWord, if_neg h.word.2, ← h.kind_eq, h.kind]

theorem ofWord_number {x : Float} (h : Literal.Written (.number x)) :
    Form.Solid (Number.literal x) ∧ ofWord (Number.literal x) = .literal {} (.number x) := by
  rcases Number.literal_denotes h.le with rfl | ⟨⟨v, hdenotes⟩, hread⟩
  · rw [Number.literal_infinity]
    exact ⟨by decide, if_pos rfl⟩
  · have hne : Number.literal x ≠ utf8 "+Inf" := by
      intro heq
      have hkind := hdenotes.kindOf
      rw [heq] at hkind
      exact absurd hkind (by decide)
    refine ⟨hdenotes.solid, ?_⟩
    rw [ofWord, if_neg hne, hdenotes.kindOf, hread]

theorem ofParts_unary {tag : Bytes} {parts : List Form} {operand : Expr}
    (h : (Scan.kindOf tag).signs = true) :
    ofParts tag parts [operand] = .unary {} (.ofLexeme tag) operand := by
  unfold ofParts
  cases hkind : Scan.kindOf tag <;> simp_all [Kind.signs]

theorem ofParts_binary {tag : Bytes} {parts : List Form} {left right : Expr}
    (h : (Scan.kindOf tag).joins = true) :
    ofParts tag parts [left, right] = .binary {} (.ofLexeme tag) left right := by
  unfold ofParts
  cases hkind : Scan.kindOf tag <;> simp_all [Kind.joins]

theorem ofParts_logical {tag : Bytes} {parts : List Form} {left right : Expr}
    (h : Scan.kindOf tag = .andKw ∨ Scan.kindOf tag = .orKw) :
    ofParts tag parts [left, right] = .logical {} (.ofLexeme tag) left right := by
  unfold ofParts
  rcases h with h | h <;> simp [h]

/-- The form has the text of one form only, and the expression is found in it. -/
structure Found (e : Expr) : Prop where
  proper : e.form.Proper
  expr_form : e.form.expr = e.relabel .unplace

theorem found {e : Expr} (h : e.Every fun e => e.Worded ∧ e.Stringless) : e.Found := by
  -- tags that are no operators and no keywords
  have tags : ∀ tag ∈ [utf8 "group", utf8 "call", utf8 "assign", utf8 "get", utf8 "set"],
      Scan.kindOf tag = .identifier := by decide
  induction h with
  | @intro e here _ ih =>
      obtain ⟨hworded, hstringless⟩ := here
      cases e with
      | absent => exact hworded.elim
      | literal span value =>
          cases value with
          | text s => exact hstringless.elim
          | nil => exact ⟨.word (by decide), rfl⟩
          | bool b => cases b <;> exact ⟨.word (by decide), rfl⟩
          | number x =>
              obtain ⟨hsolid, hread⟩ := ofWord_number hworded
              exact ⟨.word hsolid, hread⟩
      | grouping span inner =>
          obtain ⟨hproper, hinner⟩ := ih inner (by simp [operands])
          refine ⟨.list (by decide) (by simpa using hproper), ?_⟩
          simp [form, Form.expr, Form.exprs, ofParts, tags, hinner, relabel]
      | unary span operator operand =>
          obtain ⟨hproper, hoperand⟩ := ih operand (by simp [operands])
          have hoperator := solid_of_operates hworded.1 (by simp [Kind.operates, hworded.2])
          refine ⟨.list hoperator.1 (by simpa using hproper), ?_⟩
          simp only [form, Form.expr, Form.exprs]
          rw [ofParts_unary (hworded.1.kind_eq ▸ hworded.2), hoperand, relabel,
            ← hworded.1.unplace_eq_ofLexeme]
          rfl
      | binary span operator left right =>
          obtain ⟨hproper, hleft⟩ := ih left (by simp [operands])
          obtain ⟨hproper', hright⟩ := ih right (by simp [operands])
          have hoperator := solid_of_operates hworded.1 (by simp [Kind.operates, hworded.2])
          refine ⟨.list hoperator.1 (by simpa using ⟨hproper, hproper'⟩), ?_⟩
          simp only [form, Form.expr, Form.exprs]
          rw [ofParts_binary (hworded.1.kind_eq ▸ hworded.2), hleft, hright, relabel,
            ← hworded.1.unplace_eq_ofLexeme]
          rfl
      | logical span operator left right =>
          obtain ⟨hproper, hleft⟩ := ih left (by simp [operands])
          obtain ⟨hproper', hright⟩ := ih right (by simp [operands])
          have hoperator := solid_of_operates hworded.1
            (by rcases hworded.2 with h | h <;> simp [Kind.operates, h])
          refine ⟨.list hoperator.1 (by simpa using ⟨hproper, hproper'⟩), ?_⟩
          simp only [form, Form.expr, Form.exprs]
          rw [ofParts_logical (hworded.1.kind_eq ▸ hworded.2), hleft, hright, relabel,
            ← hworded.1.unplace_eq_ofLexeme]
          rfl
      | var r =>
          refine ⟨.word hworded.name.word.1, ?_⟩
          rw [form, Form.expr, ofWord_identifier hworded.name, relabel,
            hworded.unplace_eq_ofLexeme]
      | assign target value =>
          obtain ⟨hproper, hvalue⟩ := ih value (by simp [operands])
          refine ⟨.list (by decide) ?_, ?_⟩
          · simpa using ⟨.word hworded.name.word.1, hproper⟩
          · simp [form, Form.expr, Form.exprs, ofParts, tags, Form.name, hvalue,
              relabel, hworded.unplace_eq_ofLexeme]
      | call span callee paren arguments =>
          have hcallee := ih callee (by simp [operands])
          have harguments (e : Expr) (he : e ∈ arguments) := ih e (by simp [operands, he])
          have hread : Form.exprs (forms arguments) = relabelList .unplace arguments := by
            rw [Form.exprs_eq_map, forms_eq_map, relabelList_eq_map, List.map_map]
            exact List.map_congr_left fun e he => (harguments e he).expr_form
          have hparen : paren.unplace = .ofLexeme (utf8 ")") :=
            hworded.unplace_eq_ofLexeme (by decide) rfl
          refine ⟨.list (by decide) ?_, ?_⟩
          · rw [List.forall_mem_cons, forms_eq_map, List.forall_mem_map]
            exact ⟨hcallee.proper, fun e he => (harguments e he).proper⟩
          · simp [form, Form.expr, Form.exprs, ofParts, tags, hcallee.expr_form, hread, relabel,
              hparen]
      | get span object name =>
          obtain ⟨hproper, hobject⟩ := ih object (by simp [operands])
          refine ⟨.list (by decide) ?_, ?_⟩
          · simpa using ⟨.word hworded.word.1, hproper⟩
          · simp [form, Form.expr, Form.exprs, ofParts, tags, Form.name, hobject,
              relabel, hworded.toGenuine.unplace_eq_ofLexeme]
      | set span object name value =>
          obtain ⟨hproper, hobject⟩ := ih object (by simp [operands])
          obtain ⟨hproper', hvalue⟩ := ih value (by simp [operands])
          refine ⟨.list (by decide) ?_, ?_⟩
          · simpa using ⟨.word hworded.word.1, hproper, hproper'⟩
          · simp [form, Form.expr, Form.exprs, ofParts, tags, Form.name, hobject,
              hvalue, relabel, hworded.toGenuine.unplace_eq_ofLexeme]
      | thisRef r =>
          have hthis := hworded.unplace_keyword (w := utf8 "this") (by decide) rfl
          refine ⟨.word (by decide), ?_⟩
          rw [relabel, hthis]
          rfl
      | superRef r method =>
          have hsuper := hworded.1.unplace_keyword (w := utf8 "super") (by decide) rfl
          have hkind : Scan.kindOf (utf8 "super") = .superKw := by decide
          refine ⟨.list (by decide) (by simpa using .word hworded.2.word.1), ?_⟩
          simp [form, Form.expr, ofParts, hkind, Form.name, relabel, hsuper,
            hworded.2.toGenuine.unplace_eq_ofLexeme]

end Expr

/-! ## Statements -/

namespace Stmt

def function? : Stmt → Option FunctionDecl
  | .function declaration => some declaration
  | _ => none

def ofParts (tag : Bytes) (parts : List Form) (es : List Expr) (ss : List Stmt) : Stmt :=
  if tag = utf8 "expression" then .expression {} (es.getD 0 .absent)
  else if tag = utf8 "print" then .print {} (es.getD 0 .absent)
  else if tag = utf8 "var" then .var {} (Form.name parts) es[1]?
  else if tag = utf8 "block" then .block {} ss
  else if tag = utf8 "if" ∨ tag = utf8 "if-else" then
    .branch {} (es.getD 0 .absent) (ss.getD 1 default) ss[2]?
  else if tag = utf8 "while" then .loop {} (es.getD 0 .absent) (ss.getD 1 default)
  else if tag = utf8 "return" then .ret {} (.ofLexeme tag) es[0]?
  else if tag = utf8 "class" then
    .classDecl {} (Form.name parts)
      ((Form.wordAt? parts 2).map fun w => { span := {}, name := .ofLexeme w })
      (ss.filterMap function?)
  else
    match parts with
    | .header name parameters :: _ =>
        .function (.mk {} (.ofLexeme name) (parameters.map .ofLexeme) (ss.drop 1))
    | _ => default

end Stmt

mutual

def Form.stmt : Form → Stmt
  | .list tag parts => .ofParts tag parts (Form.exprs parts) (Form.stmts parts)
  | .word _ | .header _ _ => default

def Form.stmts : List Form → List Stmt
  | [] => []
  | f :: rest => f.stmt :: Form.stmts rest

end

@[simp] theorem Form.stmt_word (w : Bytes) : stmt (.word w) = .block {} [] := rfl

theorem Form.stmts_eq_map (fs : List Form) : stmts fs = fs.map stmt := by
  induction fs with
  | nil => rfl
  | cons f rest ih => rw [stmts, ih, List.map_cons]

namespace Stmt

/-- The form has the text of one form only, and the statement is found in it. -/
structure Found (s : Stmt) : Prop where
  proper : s.form.Proper
  stmt_form : s.form.stmt = s.relabel .unplace

theorem wordAt?_methodForms (fs : List FunctionDecl) (i : Nat) :
    Form.wordAt? (FunctionDecl.forms fs) i = none := by
  induction fs generalizing i with
  | nil => rfl
  | cons f rest ih =>
      rw [FunctionDecl.forms]
      cases i with
      | zero =>
          cases f
          rfl
      | succ i => rw [Form.wordAt?_succ, ih]

theorem proper_forms {body : List Stmt} (h : ∀ s ∈ body, s.Found) :
    ∀ f ∈ forms body, f.Proper := by
  rw [forms_eq_map, List.forall_mem_map]
  exact fun s hs => (h s hs).proper

theorem stmts_forms {body : List Stmt} (h : ∀ s ∈ body, s.Found) :
    Form.stmts (forms body) = relabelList .unplace body := by
  rw [Form.stmts_eq_map, forms_eq_map, relabelList_eq_map, List.map_map]
  exact List.map_congr_left fun s hs => (h s hs).stmt_form

theorem filterMap_function? (methods : List FunctionDecl) :
    (relabelList .unplace (methods.map function)).filterMap function? =
      FunctionDecl.relabelList .unplace methods := by
  induction methods with
  | nil => rfl
  | cons f rest ih =>
      rw [List.map_cons, relabelList, relabel, FunctionDecl.relabelList, ← ih]
      rfl

theorem found {s : Stmt} (hworded : s.AllWorded)
    (hstringless : s.Every Expr.Stringless fun _ => True) : s.Found := by
  have h := hworded.and hstringless
  clear hworded hstringless
  induction h with
  | @intro s here hexpressions _ ih =>
      replace here := here.1
      have expr (e : Expr) (he : e ∈ s.expressions) : e.Found := Expr.found (hexpressions e he)
      cases s with
      | expression span e =>
          obtain ⟨hproper, he⟩ := expr e (by simp [expressions])
          refine ⟨.list (by decide) (by simpa using hproper), ?_⟩
          simp [form, Form.stmt, Form.exprs, ofParts, he, relabel]
      | print span e =>
          obtain ⟨hproper, he⟩ := expr e (by simp [expressions])
          refine ⟨.list (by decide) (by simpa using hproper), ?_⟩
          simp [form, Form.stmt, Form.exprs, ofParts, he, relabel]
      | var span name initial =>
          have hname := here.toGenuine.unplace_eq_ofLexeme
          cases initial with
          | none =>
              refine ⟨.list (by decide) (by simpa using .word here.word.1), ?_⟩
              simp [form, Form.stmt, Form.exprs, ofParts, Form.name, relabel, hname]
          | some e =>
              obtain ⟨hproper, he⟩ := expr e (by simp [expressions])
              refine ⟨.list (by decide) (by simpa using ⟨.word here.word.1, hproper⟩), ?_⟩
              simp [form, Form.stmt, Form.exprs, ofParts, Form.name, relabel, hname,
                he]
      | block span body =>
          have hbody : Form.stmts (forms body) = relabelList .unplace body := stmts_forms ih
          refine ⟨.list (by decide) (proper_forms ih), ?_⟩
          simp [form, Form.stmt, ofParts, relabel, hbody]
      | branch span condition onTrue onFalse =>
          obtain ⟨hproper, hcondition⟩ := expr condition (by simp [expressions])
          obtain ⟨hproper', htrue⟩ := ih onTrue (by simp [statements])
          cases onFalse with
          | none =>
              refine ⟨.list (by decide) (by simpa using ⟨hproper, hproper'⟩), ?_⟩
              simp [form, Form.stmt, Form.exprs, Form.stmts, ofParts, hcondition, htrue, relabel]
          | some onFalse =>
              obtain ⟨hproper'', hfalse⟩ := ih onFalse (by simp [statements])
              refine ⟨.list (by decide) (by simpa using ⟨hproper, hproper', hproper''⟩), ?_⟩
              simp [form, Form.stmt, Form.exprs, Form.stmts, ofParts, hcondition, htrue, hfalse,
                relabel]
      | loop span condition body =>
          obtain ⟨hproper, hcondition⟩ := expr condition (by simp [expressions])
          obtain ⟨hproper', hbody⟩ := ih body (by simp [statements])
          refine ⟨.list (by decide) (by simpa using ⟨hproper, hproper'⟩), ?_⟩
          simp [form, Form.stmt, Form.exprs, Form.stmts, ofParts, hcondition, hbody, relabel]
      | function f =>
          obtain ⟨span, name, parameters, body⟩ := f
          have hname : name.unplace = .ofLexeme name.lexeme :=
            here.1.toGenuine.unplace_eq_ofLexeme
          have hbody : Form.stmts (forms body) = relabelList .unplace body := stmts_forms ih
          have hparameters : parameters.map (Token.ofLexeme ∘ Token.lexeme) =
              parameters.map Token.unplace :=
            List.map_congr_left fun p hp => (here.2 p hp).toGenuine.unplace_eq_ofLexeme.symm
          refine ⟨.list (by decide) ?_, ?_⟩
          · rw [List.forall_mem_cons]
            refine ⟨.header here.1.word.1 ?_, proper_forms ih⟩
            rw [List.forall_mem_map]
            exact fun p hp => (here.2 p hp).word.1
          · simp [form, FunctionDecl.form, Form.stmt, Form.stmts, ofParts, relabel,
              FunctionDecl.relabel, hbody, hname, hparameters]
      | ret span keyword value =>
          have hkeyword : keyword.unplace = .ofLexeme (utf8 "return") :=
            here.unplace_eq_ofLexeme (by decide) rfl
          cases value with
          | none =>
              refine ⟨.list (by decide) (by simp), ?_⟩
              simp [form, Form.stmt, Form.exprs, ofParts, relabel, hkeyword]
          | some e =>
              obtain ⟨hproper, he⟩ := expr e (by simp [expressions])
              refine ⟨.list (by decide) (by simpa using hproper), ?_⟩
              simp [form, Form.stmt, Form.exprs, ofParts, relabel, hkeyword, he]
      | classDecl span name superclass methods =>
          have hname := here.toGenuine.unplace_eq_ofLexeme
          -- the methods are the only parts that are read as functions
          have hall : ∀ s ∈ methods.map function, s.Found := ih
          have hforms : ∀ f ∈ FunctionDecl.forms methods, f.Proper := by
            rw [FunctionDecl.forms_eq]
            exact proper_forms hall
          have hmethods : (Form.stmts (FunctionDecl.forms methods)).filterMap function? =
              FunctionDecl.relabelList .unplace methods := by
            rw [FunctionDecl.forms_eq, stmts_forms hall, filterMap_function?]
          cases superclass with
          | none =>
              refine ⟨.list (by decide) ?_, ?_⟩
              · rw [List.forall_mem_cons]
                exact ⟨.word here.word.1, hforms⟩
              · simp [form, Form.stmt, Form.stmts, ofParts, relabel, function?, Form.name,
                  wordAt?_methodForms, hname, hmethods]
          | some r =>
              have hr : r.Uses .identifier :=
                (hexpressions (.var r) (by simp [expressions])).here.1
              refine ⟨.list (by decide) ?_, ?_⟩
              · simpa using ⟨.word here.word.1, .word (by decide), .word hr.name.word.1, hforms⟩
              · simp [form, Form.stmt, Form.stmts, ofParts, relabel, function?, Form.name, hname,
                  hmethods, hr.unplace_eq_ofLexeme]

end Stmt

/-! ## Trees of sources -/

def Form.isStmt : Form → Bool
  | .list tag _ => statementTags.contains tag
  | .word _ | .header _ _ => false

def Form.tree (f : Form) : Tree := if f.isStmt then .stmt f.stmt else .expr f.expr

theorem Expr.isStmt_form {e : Expr} (h : e.Worded) : e.form.isStmt = false := by
  have operated {operator : Token} {parts : List Form} (hoperator : operator.Genuine)
      (hkind : operator.kind.operates = true) :
      (Form.list operator.lexeme parts).isStmt = false := by
    simpa [Form.isStmt] using (solid_of_operates hoperator hkind).2
  cases e with
  | unary | binary => exact operated h.1 (by simp [Kind.operates, h.2])
  | logical => exact operated h.1 (by rcases h.2 with h | h <;> simp [Kind.operates, h])
  | _ => simp [form, Form.isStmt, statementTags]

theorem Stmt.isStmt_form (s : Stmt) : s.form.isStmt = true := by
  cases s with
  | var span name initial => cases initial <;> simp [form, Form.isStmt, statementTags]
  | branch span condition onTrue onFalse =>
      cases onFalse <;> simp [form, Form.isStmt, statementTags]
  | function f => cases f; simp [form, FunctionDecl.form, Form.isStmt, statementTags]
  | ret span keyword value => cases value <;> simp [form, Form.isStmt, statementTags]
  | classDecl span name superclass methods =>
      cases superclass <;> simp [form, Form.isStmt, statementTags]
  | _ => simp [form, Form.isStmt, statementTags]

namespace Tree

def form : Tree → Form
  | .expr e => e.form
  | .stmt s => s.form

def printed : Tree → Bytes
  | .expr e => e.printed
  | .stmt s => s.printed

def unplace : Tree → Tree
  | .expr e => .expr (e.relabel .unplace)
  | .stmt s => .stmt (s.relabel .unplace)

def Stringless (tree : Tree) : Prop := tree.Every Expr.Stringless fun _ => True

theorem text_form (tree : Tree) : tree.form.text = tree.printed := by
  cases tree with
  | expr e => exact e.text_form
  | stmt s => exact s.text_form

theorem found {source : Bytes} {tree : Tree} (h : tree.OfSource source)
    (hstringless : tree.Stringless) : tree.form.Proper ∧ tree.form.tree = tree.unplace := by
  cases tree with
  | expr e =>
      have hworded : e.AllWorded := h.worded
      obtain ⟨hproper, hread⟩ := Expr.found (hworded.and hstringless)
      refine ⟨hproper, ?_⟩
      simp [form, Form.tree, unplace, Expr.isStmt_form hworded.here, hread]
  | stmt s =>
      obtain ⟨hproper, hread⟩ := Stmt.found h.worded hstringless
      refine ⟨hproper, ?_⟩
      simp [form, Form.tree, unplace, Stmt.isStmt_form, hread]

end Tree

/-- Trees without strings that are printed as one text are the same, but for their places. -/
theorem printed_unambiguous {source other : Bytes} {a b : Tree} (ha : a.OfSource source)
    (hb : b.OfSource other) (ha' : a.Stringless) (hb' : b.Stringless)
    (h : a.printed = b.printed) : a.unplace = b.unplace := by
  obtain ⟨hproper, hread⟩ := Tree.found ha ha'
  obtain ⟨hproper', hread'⟩ := Tree.found hb hb'
  rw [← a.text_form, ← b.text_form] at h
  rw [← hread, ← hread', hproper.text_inj hproper' h]

def callAt (offset : Int) : Expr :=
  let place (start stop : Int) : Span := ⟨⟨start, 1, start + 1⟩, ⟨stop, 1, stop + 1⟩⟩
  let name (word : Bytes) (start : Int) : Expr :=
    .var { span := place start (start + 3),
           name := ⟨.identifier, word, .nil, 1, place start (start + 3)⟩ }
  .call (place 0 (offset + 4)) (name (utf8 "set") 0)
    ⟨.rightParen, utf8 ")", .nil, 1, place (offset + 3) (offset + 4)⟩
    [.unary (place 4 (offset + 3)) ⟨.minus, utf8 "-", .nil, 1, place 4 5⟩
      (name (utf8 "get") offset)]

theorem printed_unambiguous_callAt :
    (parseExpression (utf8 "set(-get)")).1 = some (callAt 5) ∧
      (parseExpression (utf8 "set(- get)")).1 = some (callAt 6) ∧
      (∀ offset, (Tree.expr (callAt offset)).Stringless) ∧
      (callAt 5).printed = (callAt 6).printed ∧
      (callAt 5).relabel .unplace = (callAt 6).relabel .unplace := by
  have h₅ : (parseExpression (utf8 "set(-get)")).1 = some (callAt 5) := rfl
  have h₆ : (parseExpression (utf8 "set(- get)")).1 = some (callAt 6) := rfl
  have hstringless (offset : Int) : (Tree.expr (callAt offset)).Stringless := by
    have hvar (r : Reference) : (Expr.var r).Every Expr.Stringless :=
      .intro trivial (by simp [Expr.operands])
    have hunary : ∀ span operator r, (Expr.unary span operator (.var r)).Every Expr.Stringless :=
      fun _ _ r => .intro trivial (by simpa [Expr.operands] using hvar r)
    exact .intro trivial (by simpa [callAt, Expr.operands] using ⟨hvar _, hunary _ _ _⟩)
  have hunplace := printed_unambiguous (.expression h₅) (.expression h₆) (hstringless 5)
    (hstringless 6) rfl
  exact ⟨h₅, h₆, hstringless, rfl, Tree.expr.inj hunplace⟩

end Lox
