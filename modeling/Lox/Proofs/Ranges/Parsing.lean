import Lox.Proofs.Ranges.Reading

/-!
Every tree that is read nests.

One statement for each production: what it gives is nested and stands between the offsets
reached before and after it.
-/

namespace Lox

open Lox.Span (Row)

/-! ## What was read between two offsets -/

structure Laid (source : Bytes) (low high : Int) (P : α → Prop) (range : α → Span) (xs : List α) :
    Prop where
  all : ∀ x ∈ xs, P x
  row : Row source low high (xs.map range)

namespace Laid

variable {source : Bytes} {low mid high : Int} {α : Type} {P : α → Prop} {range : α → Span}
variable {x : α} {xs ys : List α}

theorem nil (h : low ≤ high) : Laid source low high P range [] :=
  ⟨by simp, Span.row_nil h⟩

theorem one (h : P x) (hrow : Row source low high [range x]) : Laid source low high P range [x] :=
  ⟨by simpa using h, hrow⟩

theorem head (h : Laid source low high P range (x :: xs)) : P x := h.all x List.mem_cons_self

theorem append (hxs : Laid source low mid P range xs) (hys : Laid source mid high P range ys) :
    Laid source low high P range (xs ++ ys) where
  all := by
    intro x hx
    rcases List.mem_append.mp hx with hx | hx
    · exact hxs.all x hx
    · exact hys.all x hx
  row := by
    rw [List.map_append]
    exact hxs.row.append hys.row

theorem upTo {high' : Int} (h : Laid source low high P range xs) (hhigh : high ≤ high') :
    Laid source low high' P range xs :=
  ⟨h.all, h.row.upTo hhigh⟩

theorem since {low' : Int} (h : Laid source low high P range xs) (hlow : low' ≤ low) :
    Laid source low' high P range xs :=
  ⟨h.all, h.row.since hlow⟩

end Laid

abbrev Expr.LaidList (source : Bytes) (low high : Int) (es : List Expr) : Prop :=
  Laid source low high (Expr.Nested source) Expr.span es

abbrev Stmt.LaidList (source : Bytes) (low high : Int) (body : List Stmt) : Prop :=
  Laid source low high (Stmt.Nested source) Stmt.span body

section

variable {source : Bytes} {low high : Int}

theorem Span.Row.within {start stop : Position} {parts : List Span}
    (h : Row source start.offset stop.offset parts) (hstart : start.StandsIn source)
    (hstop : stop.StandsIn source) : Span.Holds source ⟨start, stop⟩ parts :=
  ⟨⟨hstart, hstop, h.le⟩, h⟩

theorem Expr.laid_of_row {e : Expr} {first last : Span} (h : Row source low high e.parts)
    (hspan : e.span = ⟨first.start, last.stop⟩) (hfirst : e.parts.head? = some first)
    (hlast : e.parts.getLast? = some last) (hoperands : ∀ x ∈ e.operands, x.Nested source) :
    Expr.LaidList source low high [e] := by
  have hholds := h.holds hfirst hlast
  rw [← hspan] at hholds
  refine .one (.intro hholds hoperands) (hholds.inRow ?_ ?_)
  · rw [hspan]
    exact (h.between first (List.mem_of_head? hfirst)).1
  · rw [hspan]
    exact (h.between last (List.mem_of_getLast? hlast)).2

theorem Expr.laid_of_target {target value e : Expr} {mid mid' : Int}
    (htarget : Expr.LaidList source low mid [target])
    (hvalue : Expr.LaidList source mid' high [value]) (hle : mid ≤ mid')
    (hspan : e.span = ⟨target.span.start, value.span.stop⟩)
    (hparts : e.parts = target.parts ++ [value.span])
    (hoperands : ∀ x ∈ e.operands, x ∈ target.operands ∨ x = value) :
    Expr.LaidList source low high [e] := by
  have hholds := htarget.head.holds
  have hvalueStop := hvalue.head.holds.standing.stop
  obtain ⟨hlow, hmid⟩ := htarget.row.between target.span (by simp)
  obtain ⟨hmid', hhigh⟩ := hvalue.row.between value.span (by simp)
  have hrow : Row source target.span.start.offset value.span.stop.offset e.parts := by
    rw [hparts]
    refine (hholds.row.upTo hmid).append (Span.row_singleton hvalue.head.holds.standing ?_ ?_)
    · omega
    · exact Int.le_refl _
  have hwhole := hrow.within hholds.standing.start hvalueStop
  rw [← hspan] at hwhole
  refine .one (.intro hwhole ?_) (hwhole.inRow ?_ ?_)
  · intro x hx
    rcases hoperands x hx with hx | rfl
    · exact htarget.head.operands x hx
    · exact hvalue.head
  · rw [hspan]
    exact hlow
  · rw [hspan]
    exact hhigh

end

namespace Parser

open Lox.Expr (LaidList)

section

variable {source : Bytes}

/-! ## Lists with commas -/

section

variable {α : Type} {P : α → Prop} {range : α → Span} {items : Parse (List α)}

theorem Passes.counted {problem : Problem} {count : Nat}
    (h : ∀ c, Passes source c items fun xs c' => Laid source c.reached c'.reached P range xs)
    (c : Cursor) : Passes source c (counted problem count items)
      fun xs c' => Laid source c.reached c'.reached P range xs := by
  unfold Parser.counted
  apply Passes.ite
  · intro _
    apply Passes.peek
    apply (Passes.report Cursor.Placed.peek_mem).bind
    rintro _ c₁ - ⟨hreached, -⟩
    apply (h c₁).imp
    intro xs c' hxs
    rwa [← hreached]
  · intro _
    exact h c

theorem Passes.separated {item : Parse α}
    (hitem : ∀ c, Passes source c item fun x c' => Laid source c.reached c'.reached P range [x])
    (hmore : ∀ c, Passes source c items fun xs c' => Laid source c.reached c'.reached P range xs)
    (c : Cursor) : Passes source c (separated item items)
      fun xs c' => Laid source c.reached c'.reached P range xs := by
  unfold Parser.separated
  apply (hitem c).bind
  intro first c₁ _ hfirst
  apply Passes.accept (by decide)
  · intro comma c₂ _ hcomma
    apply (hmore c₂).bind
    intro rest c₃ _ hrest
    exact .pure ((hfirst.upTo hcomma.le).append hrest)
  · exact .pure hfirst

end

/-! ## Expressions -/

theorem literal_laid {c c' : Cursor} {t : Token} {value : Literal} (h : Takes source c t c') :
    LaidList source c.reached c'.reached [.literal t.span value] :=
  .one (.intro ⟨h.standing, Span.row_nil h.standing.ordered⟩ (by simp [Expr.operands])) h.row

theorem reference_laid {c c' : Cursor} {t : Token} (h : Takes source c t c') :
    LaidList source c.reached c'.reached [.var { span := t.span, name := t }] ∧
      LaidList source c.reached c'.reached [.thisRef { span := t.span, name := t }] :=
  ⟨Expr.laid_of_row h.row rfl rfl rfl (by simp [Expr.operands]),
    Expr.laid_of_row h.row rfl rfl rfl (by simp [Expr.operands])⟩

mutual

theorem expression_laid (n : Nat) (c : Cursor) : Passes source c (expression n)
    fun e c' => LaidList source c.reached c'.reached [e] := by
  match n with
  | 0 => exact .outOfFuel
  | n + 1 =>
      unfold expression
      apply (operation_laid n 0 c).bind
      intro left c₁ _ hleft
      apply Passes.accept (by decide)
      · intro equals c₂ _ hequals
        apply Passes.before hequals
        apply (expression_laid n c₂).bind
        intro value c₃ hle hvalue
        cases left with
        | var r =>
            exact .pure (Expr.laid_of_target hleft hvalue hequals.le rfl rfl
              (by simp [Expr.operands]))
        | get span object name =>
            exact .pure (Expr.laid_of_target hleft hvalue hequals.le rfl rfl
              (by simp [Expr.operands]))
        | _ =>
            apply (Passes.report fun _ => hequals.mem).bind
            rintro _ c₄ - ⟨hreached, -⟩
            apply Passes.pure
            rw [hreached]
            exact hleft.upTo (Int.le_trans hequals.le hle)
      · exact .pure hleft

theorem operation_laid (n power : Nat) (c : Cursor) : Passes source c (operation n power)
    fun e c' => LaidList source c.reached c'.reached [e] := by
  match n with
  | 0 => exact .outOfFuel
  | n + 1 =>
      unfold operation
      apply (operand_laid n c).bind
      intro left c₁ _ hleft
      exact operations_laid n power left c₁ hleft

theorem operations_laid (n power : Nat) (left : Expr) (c : Cursor) {low : Int}
    (hleft : LaidList source low c.reached [left]) :
    Passes source c (operations n power left) fun e c' => LaidList source low c'.reached [e] := by
  match n with
  | 0 => exact .outOfFuel
  | n + 1 =>
      unfold operations
      apply Passes.peek
      apply Passes.ite
      · intro hpower
        apply (operator_laid n left c hleft (Nat.zero_lt_of_lt hpower)).bind
        intro left' c₁ _ hleft'
        exact operations_laid n power left' c₁ hleft'
      · intro _
        exact .pure hleft

theorem operand_laid (n : Nat) (c : Cursor) : Passes source c (operand n)
    fun e c' => LaidList source c.reached c'.reached [e] := by
  match n with
  | 0 => exact .outOfFuel
  | n + 1 =>
      unfold operand
      apply Passes.peek
      have taking {f : Token → Parse Expr} {R : Expr → Cursor → Prop} (hkind : c.peek.kind ≠ .eof)
          (h : ∀ c₁, Takes source c c.peek c₁ → Passes source c₁ (f c.peek) R) :
          Passes source c (next >>= f) R := by
        apply (Passes.next hkind).bind
        rintro _ c₁ - ⟨rfl, htakes⟩
        exact h c₁ htakes
      split
      iterate 5
        next hkind =>
          apply taking (by simp [hkind])
          intro c₁ htakes
          exact .pure (literal_laid htakes)
      · next hkind =>
          apply taking (by simp [hkind])
          intro c₁ htakes
          exact .pure (reference_laid htakes).2
      · next hkind =>
          apply taking (by simp [hkind])
          intro c₁ hkeyword
          apply (Passes.expect (by decide)).bind
          rintro _ c₂ - ⟨-, hdot⟩
          apply (Passes.expect (by decide)).bind
          rintro method c₃ - ⟨-, hmethod⟩
          have hrow := (hkeyword.row.upTo hdot.le).append hmethod.row
          exact .pure (Expr.laid_of_row hrow rfl rfl rfl (by simp [Expr.operands]))
      · next hkind =>
          apply taking (by simp [hkind])
          intro c₁ htakes
          exact .pure (reference_laid htakes).1
      · next hkind =>
          apply taking (by simp [hkind])
          intro c₁ hopen
          apply (expression_laid n c₁).bind
          intro inner c₂ _ hinner
          apply (Passes.expect (by decide)).bind
          rintro close c₃ - ⟨-, hclose⟩
          apply Passes.pure
          have hinside : Row source c.peek.span.start.offset close.span.stop.offset
              [inner.span] := by
            apply hinner.row.widen
            · rw [hopen.reached]
              exact hopen.standing.ordered
            · exact Int.le_trans hclose.after hclose.standing.ordered
          have hholds := hinside.within hopen.standing.start hclose.standing.stop
          refine .one (.intro hholds (by simpa [Expr.operands] using hinner.head)) ?_
          exact hholds.inRow hopen.after (Int.le_of_eq hclose.reached.symm)
      iterate 2
        next hkind =>
          apply taking (by simp [hkind])
          intro c₁ hsign
          apply (operation_laid n unaryPower c₁).bind
          intro operand c₂ _ hoperand
          have hrow := hsign.row.append hoperand.row
          exact .pure (Expr.laid_of_row hrow rfl rfl rfl
            (by simpa [Expr.operands] using hoperand.head))
      · exact .fail

theorem operator_laid (n : Nat) (left : Expr) (c : Cursor) {low : Int}
    (hleft : LaidList source low c.reached [left]) (hpower : 0 < bindingPower c.kind) :
    Passes source c (operator n left) fun e c' => LaidList source low c'.reached [e] := by
  match n with
  | 0 => exact .outOfFuel
  | n + 1 =>
      have hkind : c.kind ≠ .eof := by
        intro hend
        simp [hend, bindingPower] at hpower
      unfold operator
      apply (Passes.next hkind).bind
      rintro _ c₁ - ⟨rfl, htakes⟩
      split
      · apply Passes.at?
        apply Passes.iteBind (Q := fun es c' => LaidList source c₁.reached c'.reached es)
        · intro _
          exact .pure (.nil (Int.le_refl _))
        · intro _
          exact arguments_laid n 0 c₁
        intro es c₂ _ hes
        apply (Passes.expect (by decide)).bind
        rintro paren c₃ - ⟨-, hparen⟩
        have hrow := (hleft.row.upTo htakes.le).append (hes.row.append hparen.row)
        apply Passes.pure
        apply Expr.laid_of_row (e := .call _ _ _ _) hrow rfl rfl List.getLast?_concat
        simpa [Expr.operands] using ⟨hleft.head, hes.all⟩
      · apply (Passes.expect (by decide)).bind
        rintro name c₂ - ⟨-, hname⟩
        have hrow := (hleft.row.upTo htakes.le).append hname.row
        exact .pure (Expr.laid_of_row hrow rfl rfl rfl
          (by simpa [Expr.operands] using hleft.head))
      all_goals
        apply (operation_laid n _ c₁).bind
        intro right c₂ _ hright
        have hrow := hleft.row.append (htakes.row.append hright.row)
        exact .pure (Expr.laid_of_row hrow rfl rfl rfl
          (by simpa [Expr.operands] using ⟨hleft.head, hright.head⟩))

theorem arguments_laid (n count : Nat) (c : Cursor) : Passes source c (arguments n count)
    fun es c' => LaidList source c.reached c'.reached es := by
  match n with
  | 0 => exact .outOfFuel
  | n + 1 =>
      rw [arguments_succ]
      exact Passes.counted
        (Passes.separated (expression_laid n) (arguments_laid n (count + 1))) c

end

/-! ## Statements -/

theorem optional_laid (n : Nat) (c : Cursor) : Passes source c (some <$> expression n)
    fun value c' => LaidList source c.reached c'.reached value.toList :=
  (expression_laid n c).map

theorem missing_laid (c : Cursor) : Passes source c (pure none)
    fun (value : Option Expr) c' => LaidList source c.reached c'.reached value.toList :=
  .pure (.nil (Int.le_refl _))

theorem statement_laid_of_row {c : Cursor} {low : Int} {s : Stmt} {start stop : Position}
    (hstart : start.StandsIn source) (hstop : stop.StandsIn source)
    (hlow : low ≤ start.offset) (hlt : start.offset < c.reached) (hoffset : stop.offset = c.reached)
    (hspan : s.span = ⟨start, stop⟩) (hrow : Row source start.offset c.reached s.parts)
    (hexpressions : ∀ e ∈ s.expressions, e.Nested source)
    (hstatements : ∀ t ∈ s.statements, t.Nested source) :
    Stmt.LaidList source low c.reached [s] := by
  rw [← hoffset] at hrow hlt ⊢
  have hholds := hrow.within hstart hstop
  rw [← hspan] at hholds
  refine .one (.intro ?_ hholds hexpressions hstatements) (hholds.inRow ?_ ?_)
  · rwa [hspan]
  · rwa [hspan]
  · exact Int.le_of_eq (congrArg (fun range => range.stop.offset) hspan)

theorem keyword_laid {c₀ c c' : Cursor} {keyword : Token} {s : Stmt} {stop : Position}
    (hkeyword : Takes source c₀ keyword c) (hstop : stop.StandsIn source)
    (hoffset : stop.offset = c'.reached) (hspan : s.span = ⟨keyword.span.start, stop⟩)
    (hrow : Row source c.reached c'.reached s.parts)
    (hexpressions : ∀ e ∈ s.expressions, e.Nested source)
    (hstatements : ∀ t ∈ s.statements, t.Nested source) :
    Stmt.LaidList source c₀.reached c'.reached [s] := by
  have hlt : keyword.span.start.offset < c'.reached := Int.lt_of_lt_of_le hkeyword.start_lt hrow.le
  have hrow' := hrow.since hkeyword.start_le
  exact statement_laid_of_row hkeyword.standing.start hstop hkeyword.after hlt hoffset hspan hrow'
    hexpressions hstatements

theorem parameters_laid (n count : Nat) (c : Cursor) : Passes source c (parameters n count)
    fun ps c' => Laid source c.reached c'.reached (fun _ => True) Token.span ps := by
  induction n generalizing count c with
  | zero => exact .outOfFuel
  | succ n ih =>
      have hname (c : Cursor) : Passes source c (expect .identifier "Expect parameter name.")
          fun t c' => Laid source c.reached c'.reached (fun _ => True) Token.span [t] :=
        (Passes.expect (by decide)).imp fun t c' ht => .one trivial ht.2.row
      rw [parameters_succ]
      exact Passes.counted (Passes.separated hname (ih (count + 1))) c

theorem variableDeclaration_laid (n : Nat) {c₀ c : Cursor} {keyword : Token}
    (hkeyword : Takes source c₀ keyword c) : Passes source c (variableDeclaration n)
    fun s c' => Stmt.LaidList source c₀.reached c'.reached [s] := by
  unfold variableDeclaration
  apply Passes.before hkeyword
  apply (Passes.expect (by decide)).bind
  rintro name c₁ - ⟨-, hname⟩
  apply Passes.acceptBind (by decide)
    (Q := fun initial c' => LaidList source c₁.reached c'.reached initial.toList)
  · intro equals c₂ _ hequals
    exact (optional_laid n c₂).imp fun _ _ h => h.since hequals.le
  · exact missing_laid c₁
  intro initial c₂ _ hinitial
  apply (Passes.expect (by decide)).bind
  rintro _ c₃ - ⟨-, hsemicolon⟩
  apply Passes.previousEnd hsemicolon.pos
  intro stop hstop hoffset
  have hrow := (hname.row.append hinitial.row).upTo hsemicolon.le
  exact .pure (keyword_laid hkeyword hstop hoffset rfl hrow hinitial.all
    (by simp [Stmt.statements]))

theorem expressionStatement_laid (n : Nat) (c : Cursor) : Passes source c (expressionStatement n)
    fun s c' => Stmt.LaidList source c.reached c'.reached [s] := by
  unfold expressionStatement
  apply (expression_laid n c).bind
  intro e c₁ _ he
  apply (Passes.expect (by decide)).bind
  rintro _ c₂ - ⟨-, hsemicolon⟩
  apply Passes.previousEnd hsemicolon.pos
  intro stop hstop hoffset
  obtain ⟨hlow, hhigh⟩ := he.row.between e.span (by simp)
  have hstanding := he.head.holds.standing
  have hlt : e.span.start.offset < c₂.reached := by
    have := hstanding.ordered
    have := hsemicolon.after
    have := hsemicolon.start_lt
    omega
  have hrow : Row source e.span.start.offset c₂.reached [e.span] :=
    Span.row_singleton hstanding (Int.le_refl _) (Int.le_trans hhigh hsemicolon.le)
  exact .pure (statement_laid_of_row hstanding.start hstop hlow hlt hoffset rfl hrow he.all
    (by simp [Stmt.statements]))

theorem forInitial_laid (n : Nat) (c : Cursor) : Passes source c (forInitial n)
    fun initial c' => Stmt.LaidList source c.reached c'.reached initial.toList := by
  unfold forInitial
  apply Passes.accept (by decide)
  · intro semicolon c₁ _ hsemicolon
    exact .pure (.nil hsemicolon.le)
  · apply Passes.accept (by decide)
    · intro keyword c₁ _ hkeyword
      apply (variableDeclaration_laid n hkeyword).bind
      intro s c₂ _ hs
      exact .pure hs
    · apply (expressionStatement_laid n c).bind
      intro s c₁ _ hs
      exact .pure hs

/-- The loop of a `for` from its clauses and its body, which stand one after the other. -/
theorem forLoop_laid {start stop conditionEnd : Position} {initial : Option Stmt}
    {condition increment : Option Expr} {body : Stmt} {a b d : Int}
    (hopens : Span.Opens source .forKw ⟨start, stop⟩) (hnonempty : start.offset < stop.offset)
    (hstart : start.StandsIn source) (hstop : stop.StandsIn source)
    (hinitial : Stmt.LaidList source start.offset a initial.toList)
    (hcondition : LaidList source a b
      [condition.getD (.literal ⟨conditionEnd, conditionEnd⟩ (.bool true))])
    (hincrement : LaidList source b d increment.toList)
    (hbody : Stmt.LaidList source d stop.offset [body]) :
    (forLoop start stop initial condition conditionEnd increment body).Nested source ∧
      (forLoop start stop initial condition conditionEnd increment body).span = ⟨start, stop⟩ := by
  unfold forLoop
  generalize condition.getD (.literal ⟨conditionEnd, conditionEnd⟩ (.bool true)) = test
    at hcondition ⊢
  have around {contents : Stmt} (hcontents : Row source b stop.offset [contents.span])
      (hloop : (Stmt.loop ⟨start, stop⟩ test contents).Nested source) :
      ∀ s ∈ initial, (Stmt.block ⟨start, stop⟩ [s, .loop ⟨start, stop⟩ test contents]).Nested
        source := by
    rintro s ⟨⟩
    refine .initialized hopens ?_ hinitial.head hloop
    exact (hinitial.row.append (hcondition.row.append hcontents)).within hstart hstop
  cases increment with
  | none =>
      have hcontents := hbody.row.since hincrement.row.le
      have hloop : (Stmt.loop ⟨start, stop⟩ test body).Nested source := by
        have hrow := (hcondition.row.append hcontents).since hinitial.row.le
        refine .intro hnonempty (hrow.within hstart hstop) ?_ ?_
        · exact hcondition.all
        · exact hbody.all
      cases initial with
      | none => exact ⟨hloop, rfl⟩
      | some s => exact ⟨around hcontents hloop s rfl, rfl⟩
  | some e =>
      have hbody' := hbody.head.standing
      obtain ⟨hlow, hhigh⟩ := hbody.row.between body.span (by simp)
      have hinside : Row source body.span.start.offset stop.offset [body.span] :=
        Span.row_singleton hbody' (Int.le_refl _) hhigh
      have hblock := hinside.within hbody'.start hstop
      have hcontents : Row source d stop.offset [⟨body.span.start, stop⟩] :=
        hblock.inRow hlow (Int.le_refl _)
      have hloop : (Stmt.loop ⟨start, stop⟩ test (.block ⟨body.span.start, stop⟩
          [body, .expression e.span e])).Nested source := by
        have hrow := (hcondition.row.append (hincrement.row.append hcontents)).since
          hinitial.row.le
        exact .incremented hopens (hrow.within hstart hstop) hblock hcondition.head
          hincrement.head hbody.head
      cases initial with
      | none => exact ⟨hloop, rfl⟩
      | some s =>
          exact ⟨around (hcontents.since hincrement.row.le) hloop s rfl, rfl⟩

mutual

theorem declarations_laid (n : Nat) (inBlock : Bool) (c : Cursor) :
    Passes source c (declarations n inBlock)
      fun body c' => Stmt.LaidList source c.reached c'.reached body := by
  match n with
  | 0 => exact .outOfFuel
  | n + 1 =>
      unfold declarations
      apply Passes.at?
      apply Passes.at?
      apply Passes.ite
      · intro _
        exact .pure (.nil (Int.le_refl _))
      · intro _
        apply (Passes.recovering (declaration_laid n c)).bind
        intro first c₁ hle hfirst
        apply (declarations_laid n inBlock c₁).bind
        intro rest c₂ _ hrest
        apply Passes.pure
        cases first with
        | none => exact hrest.since hle
        | some s => exact (hfirst s rfl).append hrest

theorem block_laid (n : Nat) (c : Cursor) : Passes source c (block n)
    fun body c' => Stmt.LaidList source c.reached c'.reached body := by
  match n with
  | 0 => exact .outOfFuel
  | n + 1 =>
      unfold block
      apply (declarations_laid n true c).bind
      intro body c₁ _ hbody
      apply (Passes.expect (by decide)).bind
      rintro _ c₂ - ⟨-, hbrace⟩
      exact .pure (hbody.upTo hbrace.le)

theorem declaration_laid (n : Nat) (c : Cursor) : Passes source c (declaration n)
    fun s c' => Stmt.LaidList source c.reached c'.reached [s] := by
  match n with
  | 0 => exact .outOfFuel
  | n + 1 =>
      unfold declaration
      apply Passes.accept (by decide)
      · intro keyword c₁ _ hkeyword
        exact classDeclaration_laid n hkeyword
      apply Passes.accept (by decide)
      · intro keyword c₁ _ hkeyword
        apply Passes.before hkeyword
        have hstart (hplaced : c₁.Placed source) :
            keyword.span.start.offset ≤ c₁.peek.span.start.offset :=
          Int.le_trans hkeyword.start_le hplaced.reached_le_peek
        apply (function_laid n "function" hkeyword.standing.start hstart).bind
        intro f c₂ _ hf
        exact .pure (hf.since hkeyword.after)
      apply Passes.accept (by decide)
      · intro keyword c₁ _ hkeyword
        exact variableDeclaration_laid n hkeyword
      · exact statement_laid n c

theorem classDeclaration_laid (n : Nat) {c₀ c : Cursor} {keyword : Token}
    (hkeyword : Takes source c₀ keyword c) : Passes source c (classDeclaration n)
    fun s c' => Stmt.LaidList source c₀.reached c'.reached [s] := by
  match n with
  | 0 => exact .outOfFuel
  | n + 1 =>
      unfold classDeclaration
      apply Passes.before hkeyword
      apply (Passes.expect (by decide)).bind
      rintro name c₁ - ⟨-, hname⟩
      have hbody (superclass : Option Reference) (c₂ : Cursor)
          (hsuperclass : LaidList source c₁.reached c₂.reached
            (superclass.toList.map Expr.var)) :
          Passes source c₂ (do
            let _ ← expect .leftBrace "Expect '\x7b' before class body."
            let methods ← methods n
            let _ ← expect .rightBrace "Expect '\x7d' after class body."
            return Stmt.classDecl ⟨keyword.span.start, ← previousEnd⟩ name superclass methods)
            fun s c' => Stmt.LaidList source c₀.reached c'.reached [s] := by
        apply (Passes.expect (by decide)).bind
        rintro _ c₃ - ⟨-, hopen⟩
        apply (methods_laid n c₃).bind
        intro methods c₄ _ hmethods
        apply (Passes.expect (by decide)).bind
        rintro _ c₅ - ⟨-, hclose⟩
        apply Passes.previousEnd hclose.pos
        intro stop hstop hoffset
        apply Passes.pure
        have hrow := ((hname.row.append hsuperclass.row).upTo hopen.le).append
          (hmethods.row.upTo hclose.le)
        rw [List.map_map, List.map_map] at hrow
        exact keyword_laid hkeyword hstop hoffset rfl hrow hsuperclass.all hmethods.all
      apply Passes.accept (by decide)
      · intro less c₂ _ hless
        apply (Passes.expect (by decide)).bind
        rintro parent c₃ - ⟨-, hparent⟩
        apply hbody (some { span := parent.span, name := parent })
        exact (reference_laid hparent).1.since hless.le
      · exact hbody none c₁ (.nil (Int.le_refl _))

theorem methods_laid (n : Nat) (c : Cursor) : Passes source c (methods n)
    fun fs c' => Stmt.LaidList source c.reached c'.reached (fs.map Stmt.function) := by
  match n with
  | 0 => exact .outOfFuel
  | n + 1 =>
      unfold methods
      apply Passes.at?
      apply Passes.at?
      apply Passes.ite
      · intro _
        exact .pure (.nil (Int.le_refl _))
      · intro _
        apply Passes.peek
        apply Passes.placed
        intro hplaced
        apply (function_laid n "method" (standsIn_of_mem_scan hplaced.peek_mem).start
          fun _ => Int.le_refl _).bind
        intro first c₁ _ hfirst
        apply (methods_laid n c₁).bind
        intro rest c₂ _ hrest
        exact .pure ((hfirst.since hplaced.reached_le_peek).append hrest)

theorem function_laid (n : Nat) (role : String) {start : Position} {c : Cursor}
    (hstart : start.StandsIn source)
    (hname : c.Placed source → start.offset ≤ c.peek.span.start.offset) :
    Passes source c (function n role start)
      fun f c' => Stmt.LaidList source start.offset c'.reached [.function f] := by
  match n with
  | 0 => exact .outOfFuel
  | n + 1 =>
      unfold function
      apply Passes.placed
      intro hplaced
      apply (Passes.expect (by decide)).bind
      rintro name c₁ - ⟨rfl, htakes⟩
      apply (Passes.expect (by decide)).bind
      rintro _ c₂ - ⟨-, hopen⟩
      apply Passes.at?
      apply Passes.iteBind (Q := fun ps c' => Row source c₂.reached c'.reached
        (ps.map Token.span))
      · intro _
        exact .pure (Span.row_nil (Int.le_refl _))
      · intro _
        exact (parameters_laid n 0 c₂).imp fun _ _ hps => hps.row
      intro ps c₃ _ hps
      apply (Passes.expect (by decide)).bind
      rintro _ c₄ - ⟨-, hclose⟩
      apply (Passes.expect (by decide)).bind
      rintro _ c₅ - ⟨-, hbrace⟩
      apply (block_laid n c₅).bind
      intro body c₆ hle hbody
      apply Passes.previousEnd (Int.lt_of_lt_of_le hbrace.pos hle)
      intro stop hstop hoffset
      apply Passes.pure
      have hbefore := hname hplaced
      have hrow : Row source c.peek.span.start.offset c₆.reached
          (c.peek.span :: ps.map Token.span ++ body.map Stmt.span) := by
        have hhead := Span.row_singleton htakes.standing (Int.le_refl _) (Int.le_refl _)
        rw [← htakes.reached] at hhead
        exact ((hhead.upTo hopen.le).append ((hps.upTo hclose.le).upTo hbrace.le)).append hbody.row
      have hlt : start.offset < c₆.reached := by
        rw [← hoffset] at hrow ⊢
        have hstop' := (hrow.between c.peek.span (by simp)).2
        have := htakes.nonempty
        omega
      exact statement_laid_of_row hstart hstop (Int.le_refl _) hlt hoffset rfl
        (hrow.since hbefore) (by simp [Stmt.expressions]) hbody.all

theorem statement_laid (n : Nat) (c : Cursor) : Passes source c (statement n)
    fun s c' => Stmt.LaidList source c.reached c'.reached [s] := by
  match n with
  | 0 => exact .outOfFuel
  | n + 1 =>
      unfold statement
      apply Passes.accept (by decide)
      · intro keyword c₁ hkind hkeyword
        exact forStatement_laid n hkeyword hkind
      apply Passes.accept (by decide)
      · intro keyword c₁ _ hkeyword
        exact ifStatement_laid n hkeyword
      apply Passes.accept (by decide)
      · intro keyword c₁ _ hkeyword
        apply Passes.before hkeyword
        apply (expression_laid n c₁).bind
        intro e c₂ _ he
        apply (Passes.expect (by decide)).bind
        rintro _ c₃ - ⟨-, hsemicolon⟩
        apply Passes.previousEnd hsemicolon.pos
        intro stop hstop hoffset
        exact .pure (keyword_laid hkeyword hstop hoffset rfl (he.row.upTo hsemicolon.le) he.all
          (by simp [Stmt.statements]))
      apply Passes.accept (by decide)
      · intro keyword c₁ _ hkeyword
        apply Passes.before hkeyword
        apply Passes.at?
        apply Passes.iteBind (fun _ => missing_laid c₁) (fun _ => optional_laid n c₁)
        intro value c₂ _ hvalue
        apply (Passes.expect (by decide)).bind
        rintro _ c₃ - ⟨-, hsemicolon⟩
        apply Passes.previousEnd hsemicolon.pos
        intro stop hstop hoffset
        apply Passes.pure
        have hword : Row source keyword.span.start.offset c₁.reached [keyword.span] :=
          Span.row_singleton hkeyword.standing (Int.le_refl _) (Int.le_of_eq hkeyword.reached.symm)
        have hrow := (hword.append hvalue.row).upTo hsemicolon.le
        have hlt : keyword.span.start.offset < c₃.reached := by
          have := hkeyword.start_lt
          have := hvalue.row.le
          have := hsemicolon.le
          omega
        exact statement_laid_of_row hkeyword.standing.start hstop hkeyword.after hlt hoffset rfl
          hrow hvalue.all (by simp [Stmt.statements])
      apply Passes.accept (by decide)
      · intro keyword c₁ _ hkeyword
        apply Passes.before hkeyword
        apply (Passes.expect (by decide)).bind
        rintro _ c₂ - ⟨-, hopen⟩
        apply (expression_laid n c₂).bind
        intro condition c₃ _ hcondition
        apply (Passes.expect (by decide)).bind
        rintro _ c₄ - ⟨-, hclose⟩
        apply (statement_laid n c₄).bind
        intro body c₅ hle hbody
        apply Passes.previousEnd (Int.lt_of_lt_of_le hclose.pos hle)
        intro stop hstop hoffset
        have hrow := ((hcondition.row.upTo hclose.le).append hbody.row).since hopen.le
        exact .pure (keyword_laid hkeyword hstop hoffset rfl hrow hcondition.all hbody.all)
      apply Passes.accept (by decide)
      · intro brace c₁ _ hbrace
        apply Passes.before hbrace
        apply (block_laid n c₁).bind
        intro body c₂ hle hbody
        apply Passes.previousEnd (Int.lt_of_lt_of_le hbrace.pos hle)
        intro stop hstop hoffset
        exact .pure (keyword_laid hbrace hstop hoffset rfl hbody.row (by simp [Stmt.expressions])
          hbody.all)
      · exact expressionStatement_laid n c

theorem forStatement_laid (n : Nat) {c₀ c : Cursor} {keyword : Token}
    (hkeyword : Takes source c₀ keyword c) (hkind : keyword.kind = .forKw) :
    Passes source c (forStatement n)
      fun s c' => Stmt.LaidList source c₀.reached c'.reached [s] := by
  match n with
  | 0 => exact .outOfFuel
  | n + 1 =>
      unfold forStatement
      apply Passes.before hkeyword
      apply (Passes.expect (by decide)).bind
      rintro _ c₁ - ⟨-, hopen⟩
      apply (forInitial_laid n c₁).bind
      intro initial c₂ _ hinitial
      apply Passes.at?
      apply Passes.iteBind (fun _ => missing_laid c₂) (fun _ => optional_laid n c₂)
      intro condition c₃ _ hcondition
      apply (Passes.expect (by decide)).bind
      rintro conditionEnd c₄ - ⟨-, hend⟩
      apply Passes.at?
      apply Passes.iteBind (fun _ => missing_laid c₄) (fun _ => optional_laid n c₄)
      intro increment c₅ _ hincrement
      apply (Passes.expect (by decide)).bind
      rintro _ c₆ - ⟨-, hclose⟩
      apply (statement_laid n c₆).bind
      intro body c₇ hle hbody
      apply Passes.previousEnd (Int.lt_of_lt_of_le hclose.pos hle)
      intro stop hstop hoffset
      apply Passes.pure
      have htest : LaidList source c₂.reached c₄.reached [condition.getD
          (.literal ⟨conditionEnd.span.start, conditionEnd.span.start⟩ (.bool true))] := by
        cases condition with
        | some e => exact hcondition.upTo hend.le
        | none =>
            -- The test that was left out stands where its semicolon does.
            have hplace := hend.standing.start
            refine .one (.intro ⟨⟨hplace, hplace, Int.le_refl _⟩, Span.row_nil (Int.le_refl _)⟩
              (by simp [Expr.operands])) (Span.row_singleton ⟨hplace, hplace, Int.le_refl _⟩ ?_ ?_)
            · exact Int.le_trans hcondition.row.le hend.after
            · exact hend.start_le
      rw [← hoffset] at hbody ⊢
      have hinitial' := hinitial.since (Int.le_trans hkeyword.start_le hopen.le)
      have hnonempty : keyword.span.start.offset < stop.offset := by
        have := hkeyword.start_lt
        have := hopen.le
        have := hinitial.row.le
        have := htest.row.le
        have := hincrement.row.le
        have := hclose.le
        have := hbody.row.le
        omega
      have hopens : Span.Opens source .forKw ⟨keyword.span.start, stop⟩ :=
        ⟨keyword, hkeyword.mem, hkind, rfl⟩
      obtain ⟨hnested, hspan⟩ := forLoop_laid hopens hnonempty hkeyword.standing.start hstop
        hinitial' htest hincrement (hbody.since hclose.le)
      refine .one hnested ?_
      rw [hspan]
      exact Span.row_singleton ⟨hkeyword.standing.start, hstop, Int.le_of_lt hnonempty⟩
        hkeyword.after (Int.le_refl _)

theorem ifStatement_laid (n : Nat) {c₀ c : Cursor} {keyword : Token}
    (hkeyword : Takes source c₀ keyword c) : Passes source c (ifStatement n)
    fun s c' => Stmt.LaidList source c₀.reached c'.reached [s] := by
  match n with
  | 0 => exact .outOfFuel
  | n + 1 =>
      unfold ifStatement
      apply Passes.before hkeyword
      apply (Passes.expect (by decide)).bind
      rintro _ c₁ - ⟨-, hopen⟩
      apply (expression_laid n c₁).bind
      intro condition c₂ _ hcondition
      apply (Passes.expect (by decide)).bind
      rintro _ c₃ - ⟨-, hclose⟩
      apply (statement_laid n c₃).bind
      intro onTrue c₄ hle₄ hTrue
      apply Passes.acceptBind (by decide)
        (Q := fun onFalse c' => Stmt.LaidList source c₄.reached c'.reached onFalse.toList)
      · intro word c₅ _ hword
        apply Passes.map
        exact (statement_laid n c₅).imp fun _ _ h => h.since hword.le
      · exact .pure (.nil (Int.le_refl _))
      intro onFalse c₅ hle₅ hFalse
      apply Passes.previousEnd (Int.lt_of_lt_of_le hclose.pos (Int.le_trans hle₄ hle₅))
      intro stop hstop hoffset
      have hboth := hTrue.append hFalse
      have hrow := ((hcondition.row.upTo hclose.le).append hboth.row).since hopen.le
      exact .pure (keyword_laid hkeyword hstop hoffset rfl hrow hcondition.all hboth.all)

end

end

/-! ## Whole inputs -/

theorem program_laid (source : Bytes) :
    Stmt.LaidList source 0 source.length (program (scan source).1).1 ∧
      ∀ d ∈ (program (scan source).1).2, d.span.StandsIn source := by
  obtain ⟨hplaced, -, hvalue⟩ := declarations_laid (fuelFor (scan source).1) false _
    (Cursor.Placed.start source)
  unfold program
  rcases hrun : declarations (fuelFor (scan source).1) false (.start (scan source).1)
    with ⟨reply, c⟩
  rw [hrun] at hplaced hvalue
  refine ⟨?_, by cases reply <;> exact hplaced.reported⟩
  cases reply with
  | ok body => exact (hvalue body rfl).upTo hplaced.ahead.le
  | failed | outOfFuel => exact .nil (Int.natCast_nonneg _)

theorem soleExpression_nested (source : Bytes) :
    ∀ e ∈ (soleExpression (scan source).1).1, e.Nested source := by
  obtain ⟨-, -, hvalue⟩ := expression_laid (fuelFor (scan source).1) _ (Cursor.Placed.start source)
  unfold soleExpression
  split
  · next e c hrun =>
      rw [hrun] at hvalue
      rintro _ ⟨⟩
      exact (hvalue e rfl).head
  · simp

end Parser

end Lox
