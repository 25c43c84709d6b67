import Lox.Tree.Printed

/-!
Forms: words in parentheses.

What trees are printed as is a word, or a tag with parts behind it in parentheses, or a name
with parameters in parentheses.  Words have no spaces or parentheses in them, so a word ends where
the next such byte stands, and a form where its parenthesis is closed: no text is that of two
forms.  Every tree has such a form, whose text is what is printed.
-/

namespace Lox

inductive Form where
  | word (w : Bytes)
  | list (tag : Bytes) (parts : List Form)
  | header (name : Bytes) (parameters : List Bytes)

namespace Form

mutual

def text : Form → Bytes
  | .word w => w
  | .list tag parts => parenthesised tag (texts parts)
  | .header name parameters =>
      name ++ utf8 "(" ++ Bytes.join (utf8 " ") parameters ++ utf8 ")"

def texts : List Form → List Bytes
  | [] => []
  | f :: rest => f.text :: texts rest

end

theorem texts_eq_map (fs : List Form) : texts fs = fs.map text := by
  induction fs with
  | nil => rfl
  | cons f rest ih => rw [texts, ih, List.map_cons]

/-! ## Words -/

def isDelimiter (b : UInt8) : Bool := b == 0x20 || b == 0x28 || b == 0x29

structure Solid (w : Bytes) : Prop where
  ne_nil : w ≠ []
  bytes : ∀ b ∈ w, isDelimiter b = false

instance (w : Bytes) : Decidable (Solid w) :=
  decidable_of_iff ((!w.isEmpty && w.all (!isDelimiter ·)) = true) <| by
    simp only [Bool.and_eq_true, Bool.not_eq_true', List.isEmpty_eq_false_iff, List.all_eq_true]
    exact ⟨fun h => ⟨h.1, h.2⟩, fun h => ⟨h.ne_nil, h.bytes⟩⟩

def Delimited (rest : Bytes) : Prop := ∀ b ∈ rest.head?, isDelimiter b = true

theorem Solid.span_eq {w rest : Bytes} (hw : Solid w) (hrest : Delimited rest) :
    (w ++ rest).takeWhile (!isDelimiter ·) = w ∧ (w ++ rest).dropWhile (!isDelimiter ·) = rest := by
  have hall : ∀ b ∈ w, (!isDelimiter b) = true := by simpa using hw.bytes
  rw [List.takeWhile_append_of_pos hall, List.dropWhile_append_of_pos hall]
  cases rest with
  | nil => simp
  | cons b rest => simp [hrest b rfl]

theorem Solid.append_inj {v w s t : Bytes} (hv : Solid v) (hw : Solid w) (hs : Delimited s)
    (ht : Delimited t) (h : v ++ s = w ++ t) : v = w ∧ s = t := by
  obtain ⟨hword, hrest⟩ := hv.span_eq hs
  obtain ⟨hword', hrest'⟩ := hw.span_eq ht
  rw [h] at hword hrest
  exact ⟨hword.symm.trans hword', hrest.symm.trans hrest'⟩

theorem Solid.ne_cons {w s t : Bytes} {b : UInt8} (hw : Solid w) (hb : isDelimiter b = true) :
    w ++ s ≠ b :: t := by
  intro h
  obtain ⟨c, w, rfl⟩ := List.exists_cons_of_ne_nil hw.ne_nil
  cases h
  simpa [hb] using hw.bytes b List.mem_cons_self

/-! ## Texts -/

inductive Proper : Form → Prop where
  | word {w : Bytes} : Solid w → Proper (.word w)
  | list {tag : Bytes} {parts : List Form} : Solid tag → (∀ f ∈ parts, Proper f) →
      Proper (.list tag parts)
  | header {name : Bytes} {parameters : List Bytes} : Solid name →
      (∀ p ∈ parameters, Solid p) → Proper (.header name parameters)

def Closed (rest : Bytes) : Prop := Delimited rest ∧ rest.head? ≠ some 0x28

/-- The text of the form tells it apart from other forms and from what follows it. -/
def Readable (f : Form) : Prop :=
  ∀ {g : Form} {s t : Bytes}, g.Proper → Closed s → Closed t → f.text ++ s = g.text ++ t →
    f = g ∧ s = t

def behind (parts : List Form) (rest : Bytes) : Bytes :=
  parts.flatMap (fun f => 0x20 :: f.text) ++ 0x29 :: rest

theorem closed_behind (parts : List Form) (rest : Bytes) : Closed (behind parts rest) := by
  cases parts with
  | nil => exact ⟨by rintro b ⟨⟩; rfl, by simp [behind]⟩
  | cons f parts => exact ⟨by rintro b ⟨⟩; rfl, by simp [behind]⟩

theorem behind_inj {fs gs : List Form} {s t : Bytes} (hfs : ∀ f ∈ fs, f.Readable)
    (hgs : ∀ g ∈ gs, g.Proper) (h : behind fs s = behind gs t) : fs = gs ∧ s = t := by
  induction fs generalizing gs with
  | nil =>
      cases gs with
      | nil => exact ⟨rfl, (List.cons.inj h).2⟩
      | cons g gs => simp [behind] at h
  | cons f fs ih =>
      cases gs with
      | nil => simp [behind] at h
      | cons g gs =>
          rw [List.forall_mem_cons] at hfs hgs
          have hcons (f : Form) (fs : List Form) (s : Bytes) :
              behind (f :: fs) s = 0x20 :: (f.text ++ behind fs s) := by simp [behind]
          rw [hcons, hcons] at h
          -- behind the first part there is again a space or the closing parenthesis
          obtain ⟨rfl, hrest⟩ :=
            hfs.1 hgs.1 (closed_behind fs s) (closed_behind gs t) (List.cons.inj h).2
          obtain ⟨rfl, rfl⟩ := ih hfs.2 hgs.2 hrest
          exact ⟨rfl, rfl⟩

theorem list_append (tag : Bytes) (parts : List Form) (rest : Bytes) :
    (list tag parts).text ++ rest = 0x28 :: (tag ++ behind parts rest) := by
  have hopen : utf8 "(" = [0x28] := by decide
  have hclose : utf8 ")" = [0x29] := by decide
  have hspace : utf8 " " = [0x20] := by decide
  simp [text, texts_eq_map, parenthesised, behind, List.flatMap_map, hopen, hclose, hspace]

theorem header_append (name : Bytes) (parameters : List Bytes) (rest : Bytes) :
    (header name parameters).text ++ rest =
      name ++ 0x28 :: (Bytes.join (utf8 " ") parameters ++ 0x29 :: rest) := by
  have hopen : utf8 "(" = [0x28] := by decide
  have hclose : utf8 ")" = [0x29] := by decide
  simp [text, hopen, hclose]

theorem delimited_open (rest : Bytes) : Delimited (0x28 :: rest) := by
  rintro b ⟨⟩
  rfl

theorem Solid.readable {w : Bytes} (hw : Solid w) : Readable (.word w) := by
  intro g s t hg hs ht h
  cases hg with
  | word hv =>
      obtain ⟨rfl, rfl⟩ := hw.append_inj hv hs.1 ht.1 h
      exact ⟨rfl, rfl⟩
  | list =>
      rw [list_append] at h
      exact absurd h (hw.ne_cons rfl)
  | header hname =>
      rw [header_append] at h
      obtain ⟨-, rfl⟩ := hw.append_inj hname hs.1 (delimited_open _) h
      exact absurd rfl hs.2

theorem readable_list {tag : Bytes} {parts : List Form} (htag : Solid tag)
    (hparts : ∀ f ∈ parts, f.Readable) : Readable (.list tag parts) := by
  intro g s t hg hs ht h
  rw [list_append] at h
  cases hg with
  | word hv => exact absurd h.symm (hv.ne_cons rfl)
  | list htag' hparts' =>
      rw [list_append] at h
      obtain ⟨rfl, hrest⟩ := htag.append_inj htag' (closed_behind parts s).1
        (closed_behind _ t).1 (List.cons.inj h).2
      obtain ⟨rfl, rfl⟩ := behind_inj hparts hparts' hrest
      exact ⟨rfl, rfl⟩
  | header hname =>
      rw [header_append] at h
      exact absurd h.symm (hname.ne_cons rfl)

theorem join_cons (p : Bytes) (ps : List Bytes) (rest : Bytes) :
    Bytes.join (utf8 " ") (p :: ps) ++ 0x29 :: rest = p ++ behind (ps.map .word) rest := by
  have hspace : utf8 " " = [0x20] := by decide
  induction ps generalizing p with
  | nil => rfl
  | cons q ps ih =>
      have hbehind : behind ((q :: ps).map .word) rest =
          0x20 :: (q ++ behind (ps.map .word) rest) := by
        simp [behind, text]
      rw [hbehind, ← ih q, Bytes.join, hspace]
      · simp
      · simp

theorem parameters_inj {ps qs : List Bytes} {s t : Bytes} (hps : ∀ p ∈ ps, Solid p)
    (hqs : ∀ q ∈ qs, Solid q) (h : Bytes.join (utf8 " ") ps ++ 0x29 :: s =
      Bytes.join (utf8 " ") qs ++ 0x29 :: t) : ps = qs ∧ s = t := by
  cases ps with
  | nil =>
      cases qs with
      | nil => exact ⟨rfl, (List.cons.inj h).2⟩
      | cons q qs =>
          rw [join_cons] at h
          exact absurd h.symm ((hqs q List.mem_cons_self).ne_cons rfl)
  | cons p ps =>
      rw [List.forall_mem_cons] at hps
      rw [join_cons] at h
      cases qs with
      | nil => exact absurd h (hps.1.ne_cons rfl)
      | cons q qs =>
          rw [List.forall_mem_cons] at hqs
          rw [join_cons] at h
          obtain ⟨rfl, hrest⟩ :=
            hps.1.append_inj hqs.1 (closed_behind _ s).1 (closed_behind _ t).1 h
          obtain ⟨hwords, rfl⟩ :=
            behind_inj (List.forall_mem_map.mpr fun p hp => (hps.2 p hp).readable)
              (List.forall_mem_map.mpr fun q hq => .word (hqs.2 q hq)) hrest
          rw [List.map_inj_right fun _ _ => word.inj] at hwords
          exact ⟨congrArg (p :: ·) hwords, rfl⟩

theorem readable_header {name : Bytes} {parameters : List Bytes} (hname : Solid name)
    (hparameters : ∀ p ∈ parameters, Solid p) : Readable (.header name parameters) := by
  intro g s t hg hs ht h
  rw [header_append] at h
  cases hg with
  | word hv =>
      obtain ⟨-, rfl⟩ := hname.append_inj hv (delimited_open _) ht.1 h
      exact absurd rfl ht.2
  | list =>
      rw [list_append] at h
      exact absurd h (hname.ne_cons rfl)
  | header hname' hparameters' =>
      rw [header_append] at h
      obtain ⟨rfl, hrest⟩ := hname.append_inj hname' (delimited_open _) (delimited_open _) h
      obtain ⟨rfl, rfl⟩ := parameters_inj hparameters hparameters' (List.cons.inj hrest).2
      exact ⟨rfl, rfl⟩

theorem Proper.readable {f : Form} (hf : f.Proper) : f.Readable := by
  induction hf with
  | word hw => exact hw.readable
  | list htag _ ih => exact readable_list htag ih
  | header hname hparameters => exact readable_header hname hparameters

/-- Forms with one text are one. -/
theorem Proper.text_inj {f g : Form} (hf : f.Proper) (hg : g.Proper) (h : f.text = g.text) :
    f = g := by
  have hclosed : Closed [] := ⟨by rintro b ⟨⟩, by simp⟩
  have htext : f.text ++ [] = g.text ++ [] := by rw [h]
  exact (hf.readable hg hclosed hclosed htext).1

end Form

/-! ## Forms of trees -/

mutual

def Expr.form : Expr → Form
  | .absent => .word (utf8 "nil")
  | .literal _ value => .word value.printed
  | .grouping _ inner => .list (utf8 "group") [inner.form]
  | .unary _ operator operand => .list operator.lexeme [operand.form]
  | .binary _ operator left right | .logical _ operator left right =>
      .list operator.lexeme [left.form, right.form]
  | .var reference => .word reference.name.lexeme
  | .assign target value => .list (utf8 "assign") [.word target.name.lexeme, value.form]
  | .call _ callee _ arguments => .list (utf8 "call") (callee.form :: Expr.forms arguments)
  | .get _ object name => .list (utf8 "get") [.word name.lexeme, object.form]
  | .set _ object name value =>
      .list (utf8 "set") [.word name.lexeme, object.form, value.form]
  | .thisRef _ => .word (utf8 "this")
  | .superRef _ method => .list (utf8 "super") [.word method.lexeme]

def Expr.forms : List Expr → List Form
  | [] => []
  | e :: rest => e.form :: Expr.forms rest

end

mutual

def Stmt.form : Stmt → Form
  | .expression _ expr => .list (utf8 "expression") [expr.form]
  | .print _ expr => .list (utf8 "print") [expr.form]
  | .var _ name none => .list (utf8 "var") [.word name.lexeme]
  | .var _ name (some initial) => .list (utf8 "var") [.word name.lexeme, initial.form]
  | .block _ body => .list (utf8 "block") (Stmt.forms body)
  | .branch _ condition onTrue none => .list (utf8 "if") [condition.form, onTrue.form]
  | .branch _ condition onTrue (some onFalse) =>
      .list (utf8 "if-else") [condition.form, onTrue.form, onFalse.form]
  | .loop _ condition body => .list (utf8 "while") [condition.form, body.form]
  | .function declaration => declaration.form
  | .ret _ _ none => .list (utf8 "return") []
  | .ret _ _ (some value) => .list (utf8 "return") [value.form]
  | .classDecl _ name none methods =>
      .list (utf8 "class") (.word name.lexeme :: FunctionDecl.forms methods)
  | .classDecl _ name (some superclass) methods =>
      .list (utf8 "class") (.word name.lexeme :: .word (utf8 "<") ::
        .word superclass.name.lexeme :: FunctionDecl.forms methods)

def Stmt.forms : List Stmt → List Form
  | [] => []
  | s :: rest => s.form :: Stmt.forms rest

def FunctionDecl.form : FunctionDecl → Form
  | .mk _ name parameters body =>
      .list (utf8 "fun") (.header name.lexeme (parameters.map Token.lexeme) :: Stmt.forms body)

def FunctionDecl.forms : List FunctionDecl → List Form
  | [] => []
  | f :: rest => f.form :: FunctionDecl.forms rest

end

theorem Expr.forms_eq_map (es : List Expr) : forms es = es.map form := by
  induction es with
  | nil => rfl
  | cons e rest ih => rw [forms, ih, List.map_cons]

theorem Stmt.forms_eq_map (body : List Stmt) : forms body = body.map form := by
  induction body with
  | nil => rfl
  | cons s rest ih => rw [forms, ih, List.map_cons]

theorem FunctionDecl.forms_eq (fs : List FunctionDecl) :
    forms fs = Stmt.forms (fs.map Stmt.function) := by
  induction fs with
  | nil => rfl
  | cons f rest ih => rw [forms, ih, List.map_cons, Stmt.forms, Stmt.form]

theorem parenthesised_word {head tag : Bytes} (word : Bytes) (parts : List Bytes)
    (h : head = tag ++ utf8 " ") :
    parenthesised (head ++ word) parts = parenthesised tag (word :: parts) := by
  simp [parenthesised, h]

mutual

theorem Expr.text_form (e : Expr) : e.form.text = e.printed := by
  cases e with
  | absent | literal | var | thisRef => rfl
  | grouping span inner => simp [form, printed, Form.text, Form.texts, Expr.text_form inner]
  | unary span operator operand =>
      simp [form, printed, Form.text, Form.texts, Expr.text_form operand]
  | binary span operator left right | logical span operator left right =>
      simp [form, printed, Form.text, Form.texts, Expr.text_form left, Expr.text_form right]
  | assign target value =>
      simp [form, printed, Form.text, Form.texts, Expr.text_form value,
        @parenthesised_word _ (utf8 "assign") _ _ (show utf8 "assign " = _ by decide)]
  | call span callee paren arguments =>
      simp [form, printed, Form.text, Form.texts, Expr.text_form callee,
        Expr.texts_forms arguments]
  | get span object name =>
      simp [form, printed, Form.text, Form.texts, Expr.text_form object,
        @parenthesised_word _ (utf8 "get") _ _ (show utf8 "get " = _ by decide)]
  | set span object name value =>
      simp [form, printed, Form.text, Form.texts, Expr.text_form object, Expr.text_form value,
        @parenthesised_word _ (utf8 "set") _ _ (show utf8 "set " = _ by decide)]
  | superRef reference method =>
      simp [form, printed, Form.text, Form.texts,
        @parenthesised_word _ (utf8 "super") _ _ (show utf8 "super " = _ by decide)]

theorem Expr.texts_forms (es : List Expr) :
    Form.texts (Expr.forms es) = Expr.printedList es := by
  cases es with
  | nil => rfl
  | cons e rest =>
      rw [Expr.forms, Form.texts, Expr.printedList, Expr.text_form e, Expr.texts_forms rest]

end

mutual

theorem Stmt.text_form (s : Stmt) : s.form.text = s.printed := by
  cases s with
  | expression span e | print span e =>
      simp [Stmt.form, Stmt.printed, Form.text, Form.texts, e.text_form]
  | var span name initial =>
      cases initial with
      | none =>
          simp [Stmt.form, Stmt.printed, Form.text, Form.texts,
            @parenthesised_word _ (utf8 "var") _ _ (show utf8 "var " = _ by decide)]
      | some e =>
          simp [Stmt.form, Stmt.printed, Form.text, Form.texts, e.text_form,
            @parenthesised_word _ (utf8 "var") _ _ (show utf8 "var " = _ by decide)]
  | block span body => simp [Stmt.form, Stmt.printed, Form.text, Stmt.texts_forms body]
  | branch span condition onTrue onFalse =>
      cases onFalse with
      | none =>
          simp [Stmt.form, Stmt.printed, Form.text, Form.texts, condition.text_form,
            Stmt.text_form onTrue]
      | some onFalse =>
          simp [Stmt.form, Stmt.printed, Form.text, Form.texts, condition.text_form,
            Stmt.text_form onTrue, Stmt.text_form onFalse]
  | loop span condition body =>
      simp [Stmt.form, Stmt.printed, Form.text, Form.texts, condition.text_form,
        Stmt.text_form body]
  | function f => simp [Stmt.form, Stmt.printed, FunctionDecl.text_form f]
  | ret span keyword value =>
      cases value with
      | none =>
          simp only [Stmt.form, Stmt.printed, Form.text, Form.texts]
          decide
      | some e => simp [Stmt.form, Stmt.printed, Form.text, Form.texts, e.text_form]
  | classDecl span name superclass methods =>
      cases superclass with
      | none =>
          simp [Stmt.form, Stmt.printed, Form.text, Form.texts, FunctionDecl.texts_forms methods,
            @parenthesised_word _ (utf8 "class") _ _ (show utf8 "class " = _ by decide)]
      | some r =>
          have hless : utf8 " < " = utf8 " " ++ (utf8 "<" ++ utf8 " ") := by decide
          have hclass : utf8 "class " = utf8 "class" ++ utf8 " " := by decide
          simp [Stmt.form, Stmt.printed, Form.text, Form.texts, FunctionDecl.texts_forms methods,
            parenthesised, hless, hclass]

theorem Stmt.texts_forms (body : List Stmt) :
    Form.texts (Stmt.forms body) = Stmt.printedList body := by
  cases body with
  | nil => rfl
  | cons s rest =>
      rw [Stmt.forms, Form.texts, Stmt.printedList, Stmt.text_form s, Stmt.texts_forms rest]

theorem FunctionDecl.text_form (f : FunctionDecl) : f.form.text = f.printed := by
  obtain ⟨span, name, parameters, body⟩ := f
  have hfun : utf8 "fun " = utf8 "fun" ++ utf8 " " := by decide
  simp [FunctionDecl.form, FunctionDecl.printed, Form.text, Form.texts, Stmt.texts_forms body,
    parenthesised, hfun]

theorem FunctionDecl.texts_forms (fs : List FunctionDecl) :
    Form.texts (FunctionDecl.forms fs) = FunctionDecl.printedList fs := by
  cases fs with
  | nil => rfl
  | cons f rest =>
      rw [FunctionDecl.forms, Form.texts, FunctionDecl.printedList, FunctionDecl.text_form f,
        FunctionDecl.texts_forms rest]

end

end Lox
