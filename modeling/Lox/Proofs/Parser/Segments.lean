import Lox.Proofs.Parser.Composition
import Lox.Proofs.Parser.Termination
import Mathlib.Data.List.Basic
import Mathlib.Data.List.TakeWhile

/-!
Problems of one statement.

A segment is what stands where a simple statement should: it ends in its only semicolon, and no
word in it starts another statement.  Reading it never looks behind the semicolon, and a problem
in it is overcome exactly there.  So statements and problems of segments, one after the other,
are those of each segment alone.
-/

namespace Lox.Parser

/-! ## Segments -/

def isInner : Kind → Bool
  | .semicolon | .leftBrace | .rightBrace | .eof
  | .classKw | .funKw | .varKw | .forKw | .ifKw | .elseKw | .whileKw | .printKw | .returnKw => false
  | _ => true

def opensSimple : Kind → Bool
  | .varKw | .printKw | .returnKw => true
  | _ => false

/-- Tokens up to a semicolon, of which only the first may be a word that starts a statement. -/
inductive IsSegment : List Token → Prop where
  | bare {body : List Token} {stop : Token} : (∀ t ∈ body, isInner t.kind = true) →
      stop.kind = .semicolon → IsSegment (body ++ [stop])
  | opened {first : Token} {body : List Token} {stop : Token} : opensSimple first.kind = true →
      (∀ t ∈ body, isInner t.kind = true) → stop.kind = .semicolon →
      IsSegment (first :: (body ++ [stop]))

/-! ## Inside a segment -/

namespace Cursor

def InSegment (c : Cursor) : Prop :=
  ∃ body stop, c.rest = body ++ [stop] ∧ (∀ t ∈ body, isInner t.kind = true) ∧
    stop.kind = .semicolon

def Done (c : Cursor) : Prop := c.rest = [] ∧ ∃ t, c.previous = some t

def onto (c : Cursor) (rest : List Token) (last : Token) (reported : List Diagnostic) : Cursor :=
  { c with rest := c.rest ++ rest, last, reported := reported ++ c.reported }

section

variable {c : Cursor} (rest : List Token) (last : Token) (reported : List Diagnostic)

theorem InSegment.ne_nil (h : c.InSegment) : c.rest ≠ [] := by
  obtain ⟨body, stop, hrest, -⟩ := h
  simp [hrest]

theorem peek_onto (h : c.rest ≠ []) : (c.onto rest last reported).peek = c.peek := by
  obtain ⟨t, others, hrest⟩ := List.exists_cons_of_ne_nil h
  simp [onto, peek, hrest]

theorem kind_onto (h : c.rest ≠ []) : (c.onto rest last reported).kind = c.kind :=
  congrArg Token.kind (peek_onto rest last reported h)

theorem advance_onto (h : c.rest ≠ []) :
    (c.onto rest last reported).advance = c.advance.onto rest last reported := by
  obtain ⟨t, others, hrest⟩ := List.exists_cons_of_ne_nil h
  by_cases ht : t.kind = .eof <;> simp [onto, advance, hrest, ht]

theorem report_onto (problem : Problem) (t : Token) :
    (c.onto rest last reported).report problem t =
      (c.report problem t).onto rest last reported := by
  simp [onto, report]

theorem InSegment.cases (h : c.InSegment) :
    (c.kind = .semicolon ∧ ∃ stop, c.rest = [stop]) ∨
      (isInner c.kind = true ∧ c.advance.InSegment) := by
  obtain ⟨body, stop, hrest, hbody, hstop⟩ := h
  cases body with
  | nil =>
      left
      exact ⟨by simp [kind, peek, hrest, hstop], stop, hrest⟩
  | cons t body =>
      right
      have ht : isInner t.kind = true := hbody t List.mem_cons_self
      have heof : t.kind ≠ .eof := by
        intro heof
        simp [heof, isInner] at ht
      refine ⟨by simpa [kind, peek, hrest] using ht, body, stop, ?_, ?_, hstop⟩
      · simp [advance, hrest, heof]
      · exact fun u hu => hbody u (List.mem_cons_of_mem t hu)

theorem InSegment.kind_ne (h : c.InSegment) {k : Kind} (hk : k ≠ .semicolon)
    (hinner : isInner k = false) : c.kind ≠ k := by
  rintro rfl
  obtain ⟨hsemicolon, -⟩ | ⟨htrue, -⟩ := h.cases
  · exact hk hsemicolon
  · simp [hinner] at htrue

theorem InSegment.advance (h : c.InSegment) (hkind : c.kind ≠ .semicolon) :
    c.advance.InSegment := by
  obtain ⟨hsemicolon, -⟩ | ⟨-, hwithin⟩ := h.cases
  · exact absurd hsemicolon hkind
  · exact hwithin

theorem InSegment.done (h : c.InSegment) (hkind : c.kind = .semicolon) :
    c.advance.Done := by
  obtain ⟨-, stop, hrest⟩ | ⟨hinner, -⟩ := h.cases
  · have hstop : stop.kind = .semicolon := by simpa [kind, peek, hrest] using hkind
    simp [Done, Cursor.advance, hrest, hstop]
  · simp [hkind, isInner] at hinner

end

end Cursor

/-! ## Reading inside a segment -/

/--
What comes after the segment makes no difference to the reader, who stays in the segment when
giving up, and else comes to a place with `D`.
-/
structure Stays (D : Cursor → Prop) (p : Parse α) (c : Cursor) : Prop where
  same : ∀ rest last reported,
    p (c.onto rest last reported) = ((p c).1, (p c).2.onto rest last reported)
  failed : (p c).1 = .failed → (p c).2.InSegment
  ok : ∀ v, (p c).1 = .ok v → D (p c).2

def Inner (p : Parse α) : Prop := ∀ c : Cursor, c.InSegment → Stays Cursor.InSegment p c

section Rules

variable {α β : Type} {D E : Cursor → Prop} {p : Parse α} {f : α → Parse β} {c : Cursor}

namespace Stays

theorem of_eq {reply : Reply α} {c' : Cursor} (hbase : p c = (reply, c'))
    (hsame : ∀ rest last reported,
      p (c.onto rest last reported) = (reply, c'.onto rest last reported))
    (hfailed : reply = .failed → c'.InSegment) (hok : ∀ v, reply = .ok v → D c') :
    Stays D p c := by
  constructor
  · rw [hbase]
    exact hsame
  · rw [hbase]
    exact hfailed
  · rw [hbase]
    exact hok

theorem bind (hp : Stays E p c) (hf : ∀ v c', E c' → Stays D (f v) c') :
    Stays D (p >>= f) c := by
  obtain ⟨hsame, hfailed, hok⟩ := hp
  have hrun : ∀ c, (p >>= f) c = Parse.bind p f c := fun _ => rfl
  rcases hpc : p c with ⟨reply, c'⟩
  rw [hpc] at hsame hfailed hok
  cases reply with
  | ok v =>
      have hnext := hf v c' (hok v rfl)
      refine of_eq (bind_of_ok hpc) (fun rest last reported => ?_) hnext.failed hnext.ok
      rw [bind_of_ok (hsame rest last reported)]
      exact hnext.same rest last reported
  | failed =>
      have hbase : (p >>= f) c = (.failed, c') := by simp [hrun, Parse.bind, hpc]
      refine of_eq hbase (fun rest last reported => ?_) (fun _ => hfailed rfl) (by simp)
      simp [hrun, Parse.bind, hsame]
  | outOfFuel =>
      have hbase : (p >>= f) c = (.outOfFuel, c') := by simp [hrun, Parse.bind, hpc]
      refine of_eq hbase (fun rest last reported => ?_) (by simp) (by simp)
      simp [hrun, Parse.bind, hsame]

theorem pure {v : α} (h : D c) : Stays D (Pure.pure v) c where
  same := fun _ _ _ => rfl
  failed := by simp [Pure.pure, Parse.pure]
  ok := fun _ _ => h

theorem outOfFuel : Stays D (Parser.outOfFuel : Parse α) c where
  same := fun _ _ _ => rfl
  failed := by simp [Parser.outOfFuel]
  ok := by simp [Parser.outOfFuel]

theorem map {g : α → β} (h : Stays D p c) : Stays D (g <$> p) c :=
  h.bind fun _ _ hc => .pure hc

theorem ite {b : Prop} [Decidable b] {q : Parse α} (hp : b → Stays D p c)
    (hq : ¬b → Stays D q c) : Stays D (if b then p else q) c := by
  split
  · exact hp ‹_›
  · exact hq ‹_›

theorem look {view : Cursor → α}
    (hview : ∀ rest last reported, view (c.onto rest last reported) = view c)
    (h : Stays D (f (view c)) c) : Stays D ((fun c => (.ok (view c), c)) >>= f) c where
  same := by
    intro rest last reported
    change f (view (c.onto rest last reported)) (c.onto rest last reported) = _
    rw [hview]
    exact h.same rest last reported
  failed := h.failed
  ok := h.ok

theorem peek {f : Token → Parse β} (hc : c.rest ≠ []) (h : Stays D (f c.peek) c) :
    Stays D (Parser.peek >>= f) c :=
  look (fun _ _ _ => Cursor.peek_onto _ _ _ hc) h

theorem before {f : Token → Parse β} (hc : c.rest ≠ []) (h : Stays D (f c.before) c) :
    Stays D (Parser.before >>= f) c :=
  look (fun rest last reported => congrArg c.previous.getD (Cursor.peek_onto rest last reported hc)) h

theorem at? {f : Bool → Parse β} {k : Kind} (hc : c.rest ≠ [])
    (h : Stays D (f (decide (c.kind = k))) c) : Stays D (Parser.at? k >>= f) c :=
  look (fun rest last reported => by simp only [Cursor.kind_onto rest last reported hc]) h

theorem previousEnd {f : Position → Parse β} (hc : c.Done) (h : ∀ p, Stays D (f p) c) :
    Stays D (Parser.previousEnd >>= f) c := by
  obtain ⟨-, t, ht⟩ := hc
  exact look (fun _ _ _ => by simp [Cursor.previousEnd, Cursor.onto, ht]) (h _)

theorem next {f : Token → Parse β} (hc : c.InSegment) (hkind : c.kind ≠ .semicolon)
    (h : ∀ c', c'.InSegment → Stays D (f c.peek) c') : Stays D (Parser.next >>= f) c := by
  have hnext := h c.advance (hc.advance hkind)
  refine ⟨fun rest last reported => ?_, hnext.failed, hnext.ok⟩
  change f (c.onto rest last reported).peek (c.onto rest last reported).advance = _
  rw [Cursor.peek_onto _ _ _ hc.ne_nil, Cursor.advance_onto _ _ _ hc.ne_nil]
  exact hnext.same rest last reported

theorem refused {f : Bool → Parse β} {k : Kind} (hc : c.rest ≠ []) (hkind : c.kind ≠ k)
    (h : Stays D (f false) c) : Stays D (Parser.accept k >>= f) c := by
  refine of_eq (bind_of_ok (by simp [Parser.accept, hkind])) (fun rest last reported => ?_)
    h.failed h.ok
  rw [← h.same]
  exact bind_of_ok (by simp [Parser.accept, Cursor.kind_onto _ _ _ hc, hkind])

theorem taken {f : Bool → Parse β} {k : Kind} (hc : c.rest ≠ []) (hkind : c.kind = k)
    (h : Stays D (f true) c.advance) : Stays D (Parser.accept k >>= f) c := by
  refine of_eq (bind_of_ok (by simp [Parser.accept, hkind])) (fun rest last reported => ?_)
    h.failed h.ok
  rw [← h.same]
  apply bind_of_ok
  simp [Parser.accept, Cursor.kind_onto _ _ _ hc, Cursor.advance_onto _ _ _ hc, hkind]

theorem expect {k : Kind} (hc : c.InSegment) (message : String)
    (h : c.kind = k → D c.advance) : Stays D (Parser.expect k message) c := by
  have hkind' := fun rest last reported => Cursor.kind_onto (c := c) rest last reported hc.ne_nil
  have hpeek := fun rest last reported => Cursor.peek_onto (c := c) rest last reported hc.ne_nil
  have hadvance := fun rest last reported =>
    Cursor.advance_onto (c := c) rest last reported hc.ne_nil
  by_cases hkind : c.kind = k
  · have hbase : Parser.expect k message c = (.ok c.peek, c.advance) := by
      simp [Parser.expect, hkind]
    refine of_eq hbase (fun rest last reported => ?_) (by simp) fun _ _ => h hkind
    simp [Parser.expect, hkind, hkind', hpeek, hadvance]
  · have hbase : Parser.expect k message c = (.failed, c.report (.expect message) c.peek) := by
      simp [Parser.expect, hkind]
    refine of_eq hbase (fun rest last reported => ?_) (fun _ => hc) (by simp)
    simp [Parser.expect, hkind, hkind', hpeek, Cursor.report_onto]

theorem accept {f : Bool → Parse β} {k : Kind} (hk : k ≠ .semicolon) (hc : c.InSegment)
    (htrue : ∀ c', c'.InSegment → Stays D (f true) c') (hfalse : Stays D (f false) c) :
    Stays D (Parser.accept k >>= f) c := by
  by_cases hkind : c.kind = k
  · exact taken hc.ne_nil hkind (htrue _ (hc.advance (hkind ▸ hk)))
  · exact refused hc.ne_nil hkind hfalse

end Stays

namespace Inner

theorem report (problem : Problem) (t : Token) : Inner (Parser.report problem t) :=
  fun _ hc =>
    ⟨fun rest last reported => by simp [Parser.report, Cursor.report_onto],
      by simp [Parser.report], fun _ _ => hc⟩

theorem fail (problem : Problem) (t : Token) : Inner (Parser.fail problem t : Parse α) :=
  fun _ hc =>
    ⟨fun rest last reported => by simp [Parser.fail, Cursor.report_onto], fun _ => hc,
      by simp [Parser.fail]⟩

theorem expect {k : Kind} (hk : k ≠ .semicolon) (message : String) :
    Inner (Parser.expect k message) :=
  fun _ hc => .expect hc message fun hkind => hc.advance (hkind ▸ hk)

theorem bind (hp : Inner p) (hf : ∀ v, Inner (f v)) : Inner (p >>= f) :=
  fun c hc => (hp c hc).bind fun v c' hc' => hf v c' hc'

theorem pure (v : α) : Inner (Pure.pure v : Parse α) := fun _ hc => .pure hc

end Inner

end Rules

/-! ## Expressions -/

mutual

theorem expression_inner (n : Nat) : Inner (expression n) := by
  match n with
  | 0 => exact fun _ _ => .outOfFuel
  | n + 1 =>
      unfold expression
      refine (operation_inner n 0).bind fun left c hc => ?_
      refine .accept (by decide) hc (fun c hc => ?_) (.pure hc)
      refine .before hc.ne_nil ?_
      refine (expression_inner n c hc).bind fun value c' hc' => ?_
      cases left with
      | var | get => exact .pure hc'
      | _ => exact (Inner.report _ _ c' hc').bind fun _ _ hc'' => .pure hc''

theorem operation_inner (n power : Nat) : Inner (operation n power) := by
  match n with
  | 0 => exact fun _ _ => .outOfFuel
  | n + 1 =>
      unfold operation
      exact (operand_inner n).bind fun left => operations_inner n power left

theorem operations_inner (n power : Nat) (left : Expr) : Inner (operations n power left) := by
  match n with
  | 0 => exact fun _ _ => .outOfFuel
  | n + 1 =>
      intro c hc
      unfold operations
      refine .peek hc.ne_nil (.ite (fun hpower => ?_) fun _ => .pure hc)
      have hkind : c.kind ≠ .semicolon := by
        intro hkind
        change power < bindingPower c.kind at hpower
        simp [hkind, bindingPower] at hpower
      exact (operator_inner n left c hc hkind).bind fun left' => operations_inner n power left'

theorem operand_inner (n : Nat) : Inner (operand n) := by
  match n with
  | 0 => exact fun _ _ => .outOfFuel
  | n + 1 =>
      intro c hc
      unfold operand
      refine .peek hc.ne_nil ?_
      have taken {f : Token → Parse Expr} (hkind : c.kind ≠ .semicolon)
          (hf : ∀ t, Inner (f t)) : Stays Cursor.InSegment (next >>= f) c :=
        .next hc hkind (hf c.peek)
      have hpeek : c.peek.kind = c.kind := rfl
      generalize c.peek = t at hpeek ⊢
      rw [← hpeek] at taken
      generalize t.kind = kind at taken ⊢
      cases kind with
      | falseKw | trueKw | nilKw | number | string | thisKw | identifier =>
          exact taken (by decide) fun _ => .pure _
      | superKw =>
          refine taken (by decide) fun _ => (Inner.expect (by decide) _).bind fun _ => ?_
          exact (Inner.expect (by decide) _).bind fun _ => .pure _
      | leftParen =>
          refine taken (by decide) fun _ => (expression_inner n).bind fun _ => ?_
          exact (Inner.expect (by decide) _).bind fun _ => .pure _
      | bang | minus =>
          exact taken (by decide) fun _ => (operation_inner n unaryPower).bind fun _ => .pure _
      | _ => exact Inner.fail _ _ c hc

theorem operator_inner (n : Nat) (left : Expr) (c : Cursor) (hc : c.InSegment)
    (hkind : c.kind ≠ .semicolon) : Stays Cursor.InSegment (operator n left) c := by
  match n with
  | 0 => exact .outOfFuel
  | n + 1 =>
      unfold operator
      refine .next hc hkind fun c' hc' => ?_
      generalize c.peek = t
      generalize t.kind = kind
      cases kind with
      | leftParen =>
          refine .at? hc'.ne_nil ?_
          have close (arguments : List Expr) : Inner (do
              let paren ← expect .rightParen "Expect ')' after arguments."
              return Expr.call ⟨left.span.start, paren.span.stop⟩ left paren arguments) :=
            (Inner.expect (by decide) _).bind fun _ => .pure _
          refine .ite (fun _ => ?_) fun _ => ?_
          · exact (Inner.pure _ c' hc').bind close
          · exact (arguments_inner n 0 c' hc').bind close
      | dot => exact ((Inner.expect (by decide) _).bind fun _ => .pure _) c' hc'
      | _ => exact ((operation_inner n _).bind fun _ => .pure _) c' hc'

theorem arguments_inner (n count : Nat) : Inner (arguments n count) := by
  match n with
  | 0 => exact fun _ _ => .outOfFuel
  | n + 1 =>
      have rest : Inner (separated (expression n) (arguments n (count + 1))) := by
        unfold separated
        refine (expression_inner n).bind fun argument c hc => ?_
        refine .accept (by decide) hc (fun c hc => ?_) (.pure hc)
        exact (arguments_inner n (count + 1) c hc).bind fun _ _ hc' => .pure hc'
      intro c hc
      rw [arguments_succ]
      unfold counted
      refine .ite (fun _ => ?_) fun _ => rest c hc
      exact .peek hc.ne_nil ((Inner.report _ _ c hc).bind fun _ => rest)

end

/-! ## Simple statements -/

section

variable {c : Cursor} (n : Nat)

theorem closing_stays (hc : c.InSegment) (message : String) (f : Position → α) :
    Stays Cursor.Done (do
      let _ ← expect .semicolon message
      return f (← previousEnd)) c :=
  (Stays.expect hc message hc.done).bind fun _ _ hc' => .previousEnd hc' fun _ => .pure hc'

theorem variableDeclaration_stays (hc : c.InSegment) :
    Stays Cursor.Done (variableDeclaration n) c := by
  unfold variableDeclaration
  refine .before hc.ne_nil ?_
  refine (Inner.expect (by decide) _ c hc).bind fun name c hc => ?_
  refine .accept (by decide) hc (fun c hc => ?_) ?_
  · refine Stays.bind (E := Cursor.InSegment) ((expression_inner n c hc).map) fun _ _ hc => ?_
    exact closing_stays hc _ _
  · exact (Inner.pure _ c hc).bind fun _ _ hc => closing_stays hc _ _

theorem expressionStatement_stays (hc : c.InSegment) :
    Stays Cursor.Done (expressionStatement n) c := by
  unfold expressionStatement
  exact (expression_inner n c hc).bind fun _ _ hc' => closing_stays hc' _ _

theorem bareStatement_stays (hc : c.InSegment) : Stays Cursor.Done (statement n) c := by
  have hne := hc.ne_nil
  cases n with
  | zero => exact .outOfFuel
  | succ n =>
      unfold statement
      refine .refused hne (hc.kind_ne (by decide) (by decide)) ?_
      refine .refused hne (hc.kind_ne (by decide) (by decide)) ?_
      refine .refused hne (hc.kind_ne (by decide) (by decide)) ?_
      refine .refused hne (hc.kind_ne (by decide) (by decide)) ?_
      refine .refused hne (hc.kind_ne (by decide) (by decide)) ?_
      refine .refused hne (hc.kind_ne (by decide) (by decide)) ?_
      exact expressionStatement_stays n hc

theorem openedStatement_stays (hne : c.rest ≠ [])
    (hkind : c.kind = .printKw ∨ c.kind = .returnKw) (hc : c.advance.InSegment) :
    Stays Cursor.Done (statement n) c := by
  have hother {k : Kind} (hk : k ≠ .printKw) (hk' : k ≠ .returnKw) : c.kind ≠ k := by
    rintro rfl
    exact hkind.elim hk hk'
  cases n with
  | zero => exact .outOfFuel
  | succ n =>
      unfold statement
      refine .refused hne (hother (by decide) (by decide)) ?_
      refine .refused hne (hother (by decide) (by decide)) ?_
      rcases hkind with hkind | hkind
      · refine .taken hne hkind (.before hc.ne_nil ?_)
        exact (expression_inner n _ hc).bind fun _ _ hc' => closing_stays hc' _ _
      · refine .refused hne (by simp [hkind]) (.taken hne hkind (.before hc.ne_nil ?_))
        refine .at? hc.ne_nil (.ite (fun _ => ?_) fun _ => ?_)
        · exact (Inner.pure _ _ hc).bind fun _ _ hc' => closing_stays hc' _ _
        · refine Stays.bind (E := Cursor.InSegment) (expression_inner n _ hc).map fun _ _ hc' => ?_
          exact closing_stays hc' _ _

theorem declaration_stays (hs : IsSegment c.rest) : Stays Cursor.Done (declaration n) c := by
  cases n with
  | zero => exact .outOfFuel
  | succ n =>
      unfold declaration
      generalize hrest : c.rest = s at hs
      have hne : c.rest ≠ [] := by
        rw [hrest]
        cases hs <;> simp
      cases hs with
      | @bare body stop hbody hstop =>
          have hc : c.InSegment := ⟨body, stop, hrest, hbody, hstop⟩
          refine .refused hne (hc.kind_ne (by decide) (by decide)) ?_
          refine .refused hne (hc.kind_ne (by decide) (by decide)) ?_
          refine .refused hne (hc.kind_ne (by decide) (by decide)) ?_
          exact bareStatement_stays n hc
      | @opened first body stop hfirst hbody hstop =>
          have hkind : c.kind = first.kind := by simp [Cursor.kind, Cursor.peek, hrest]
          have heof : first.kind ≠ .eof := by
            intro heof
            simp [heof, opensSimple] at hfirst
          have hc : c.advance.InSegment :=
            ⟨body, stop, by simp [Cursor.advance, hrest, heof], hbody, hstop⟩
          rw [← hkind] at hfirst
          have hother {k : Kind} (hk : opensSimple k = false) : c.kind ≠ k := by
            rintro rfl
            simp [hk] at hfirst
          refine .refused hne (hother (by decide)) (.refused hne (hother (by decide)) ?_)
          by_cases hvar : c.kind = .varKw
          · exact .taken hne hvar (variableDeclaration_stays n hc)
          · refine .refused hne hvar (openedStatement_stays n hne ?_ hc)
            generalize c.kind = kind at hfirst hvar
            cases kind <;> simp_all [opensSimple]

end

/-! ## Recovery -/

theorem skip_segment {body : List Token} {stop : Token}
    (hbody : ∀ t ∈ body, isInner t.kind = true) (hstop : stop.kind = .semicolon) {before : Token}
    (hbefore : before.kind ≠ .semicolon) (rest : List Token) :
    skip (some before) (body ++ stop :: rest) = (some stop, rest) := by
  induction body generalizing before with
  | nil =>
      have hrest : skip (some stop) rest = (some stop, rest) := by
        cases rest <;> simp [skip, hstop]
      simp [skip, hstop, hbefore, startsStatement, hrest]
  | cons t body ih =>
      obtain ⟨ht, hbody⟩ := List.forall_mem_cons.mp hbody
      have hgo : t.kind ≠ .eof ∧ t.kind ≠ .semicolon ∧ startsStatement t.kind = false := by
        generalize t.kind = kind at ht
        cases kind <;> simp_all [isInner, startsStatement]
      obtain ⟨heof, hsemicolon, hstarts⟩ := hgo
      simp [skip, heof, hbefore, hstarts, ih hbody hsemicolon]

theorem synchronize_onto {c : Cursor} (hc : c.InSegment) (rest : List Token) (last : Token)
    (reported : List Diagnostic) :
    ∃ previous, synchronize (c.onto rest last reported) =
      { previous, rest, last, reported := reported ++ c.reported } := by
  obtain ⟨body, stop, hrest, hbody, hstop⟩ := hc
  refine ⟨some stop, ?_⟩
  cases body with
  | nil =>
      have hskip : skip (some stop) rest = (some stop, rest) := by
        cases rest <;> simp [skip, hstop]
      simp [synchronize, Cursor.advance, Cursor.onto, hrest, hstop, hskip]
  | cons t body =>
      obtain ⟨ht, hbody⟩ := List.forall_mem_cons.mp hbody
      have hkind : t.kind ≠ .eof ∧ t.kind ≠ .semicolon := by
        constructor <;> intro h <;> simp [h, isInner] at ht
      have hskip := skip_segment hbody hstop hkind.2 rest
      simp [synchronize, Cursor.advance, Cursor.onto, hrest, hkind.1, hskip]

def Reply.value? : Reply α → Option α
  | .ok v => some v
  | _ => none

theorem recovering_onto {n : Nat} {c : Cursor} (hs : IsSegment c.rest)
    (henough : (declaration n c).1 ≠ .outOfFuel) (rest : List Token) (last : Token)
    (reported : List Diagnostic) :
    ∃ previous, recovering (declaration n) (c.onto rest last reported) =
      (.ok (declaration n c).1.value?,
        { previous, rest, last, reported := reported ++ (declaration n c).2.reported }) := by
  obtain ⟨hsame, hfailed, hok⟩ := declaration_stays n hs
  unfold recovering
  rw [hsame]
  rcases hrun : declaration n c with ⟨reply, c'⟩
  rw [hrun] at hfailed hok henough
  cases reply with
  | ok s =>
      have hdone := (hok s rfl).1
      exact ⟨c'.previous, by simp [Reply.value?, Cursor.onto, show c'.rest = [] from hdone]⟩
  | failed =>
      obtain ⟨previous, hsync⟩ := synchronize_onto (hfailed rfl) rest last reported
      exact ⟨previous, by simp [Reply.value?, hsync]⟩
  | outOfFuel => exact absurd rfl henough

/-! ## The token before a segment -/

/-- The token before is not looked at before the next one is taken. -/
def Forgets (p : Parse α) : Prop :=
  ∀ (c : Cursor) (previous : Option Token), c.rest ≠ [] → c.kind ≠ .eof →
    p { c with previous } = p c ∨
      ∃ reply reported, (∀ v, reply ≠ .ok v) ∧ p c = (reply, { c with reported }) ∧
        p { c with previous } = (reply, { c with previous, reported })

namespace Forgets

variable {α β : Type} {p : Parse α} {f : α → Parse β}

theorem bind (hp : Forgets p) : Forgets (p >>= f) := by
  intro c previous hrest hkind
  rcases hp c previous hrest hkind with hsame | ⟨reply, reported, hreply, hrun, hrun'⟩
  · exact .inl (bind_congr hsame)
  · have hbind : ∀ c, (p >>= f) c = Parse.bind p f c := fun _ => rfl
    right
    cases reply with
    | ok v => exact absurd rfl (hreply v)
    | failed => exact ⟨.failed, reported, by simp, by simp [hbind, Parse.bind, hrun, hrun']⟩
    | outOfFuel => exact ⟨.outOfFuel, reported, by simp, by simp [hbind, Parse.bind, hrun, hrun']⟩

theorem accept {f : Bool → Parse β} {k : Kind} (hf : Forgets (f false)) :
    Forgets (Parser.accept k >>= f) := by
  intro c previous hrest heof
  by_cases hkind : c.kind = k
  · left
    apply bind_congr
    have hkind' : ({ c with previous } : Cursor).kind = k := hkind
    simp [Parser.accept, hkind, hkind', Cursor.advance_fresh hrest heof previous]
  · have hnone : Parser.accept k c = (.ok false, c) := by simp [Parser.accept, hkind]
    have hnone' : Parser.accept k { c with previous } = (.ok false, { c with previous }) := by
      have hkind' : ({ c with previous } : Cursor).kind ≠ k := hkind
      simp [Parser.accept, hkind']
    rw [bind_of_ok hnone, bind_of_ok hnone']
    exact hf c previous hrest heof

theorem outOfFuel : Forgets (Parser.outOfFuel : Parse α) :=
  fun c _ _ _ => .inr ⟨.outOfFuel, c.reported, by simp, rfl, rfl⟩

end Forgets

theorem operand_forgets (n : Nat) : Forgets (operand n) := by
  cases n with
  | zero => exact .outOfFuel
  | succ n =>
      intro c previous hrest hkind
      have hnext : next { c with previous } = next c := by
        simp only [next, Cursor.advance_fresh hrest hkind previous]
        rfl
      have hpeek : peek c = (.ok c.peek, c) := rfl
      have hpeek' : peek { c with previous } = (.ok c.peek, { c with previous }) := rfl
      unfold operand
      rw [bind_of_ok hpeek, bind_of_ok hpeek']
      generalize c.peek.kind = kind
      cases kind with
      | falseKw | trueKw | nilKw | number | string | thisKw | identifier | superKw | leftParen
      | bang | minus => exact .inl (bind_congr hnext)
      | _ => exact .inr ⟨.failed, _, by simp, rfl, rfl⟩

theorem expression_forgets (n : Nat) : Forgets (expression n) := by
  cases n with
  | zero => exact .outOfFuel
  | succ n =>
      unfold expression
      refine Forgets.bind ?_
      cases n with
      | zero => exact .outOfFuel
      | succ n => exact (operand_forgets n).bind

theorem declaration_forgets (n : Nat) : Forgets (declaration n) := by
  cases n with
  | zero => exact .outOfFuel
  | succ n =>
      unfold declaration
      refine .accept (.accept (.accept ?_))
      cases n with
      | zero => exact .outOfFuel
      | succ n =>
          unfold statement
          refine .accept (.accept (.accept (.accept (.accept (.accept ?_)))))
          exact (expression_forgets n).bind

theorem recovering_previous (n : Nat) {c : Cursor} (hrest : c.rest ≠ []) (hkind : c.kind ≠ .eof)
    (previous : Option Token) :
    recovering (declaration n) { c with previous } = recovering (declaration n) c ∨
      (declaration n c).1 = .outOfFuel := by
  unfold recovering
  rcases declaration_forgets n c previous hrest hkind with hsame |
    ⟨reply, reported, hreply, hrun, hrun'⟩
  · exact .inl (by rw [hsame])
  · rw [hrun, hrun']
    cases reply with
    | ok v => exact absurd rfl (hreply v)
    | failed =>
        have hadvance := Cursor.advance_fresh (c := { c with reported }) hrest hkind previous
        exact .inl (by simp only [synchronize, hadvance])
    | outOfFuel => exact .inr rfl

/-! ## One segment -/

theorem Cursor.remaining_lt {c : Cursor} (hc : c.Closed) : c.remaining < c.rest.length := by
  obtain ⟨e, hmem, he⟩ := hc
  apply Nat.lt_of_le_of_ne (c.rest.takeWhile_prefix _).length_le
  intro hlength
  have hall := (c.rest.takeWhile_prefix fun t => t.kind != .eof).eq_of_length hlength
  have hkind := List.takeWhile_eq_self_iff.mp hall e hmem
  simp [he] at hkind

theorem declaration_enough {n : Nat} {c : Cursor} (hc : c.Closed) (hn : 16 * c.rest.length ≤ n) :
    (declaration n c).1 ≠ .outOfFuel := by
  have hlt := Cursor.remaining_lt hc
  exact (declaration_progress n (Nat.le_refl _) c hc).enough (by omega)

def alone (s : List Token) : Option Stmt × List Diagnostic :=
  let run := declaration (fuelFor s) { rest := s, last := {} }
  (run.1.value?, run.2.reported)

theorem alone_enough {s : List Token} (hs : IsSegment s) :
    (declaration (fuelFor s) { rest := s, last := {} }).1 ≠ .outOfFuel := by
  have hsame := (declaration_stays (c := { rest := s, last := {} }) (fuelFor s) hs).same [{}] {} []
  have henough := declaration_enough (n := fuelFor s)
    (c := ({ rest := s, last := {} } : Cursor).onto [{}] {} []) ⟨{}, by simp [Cursor.onto], rfl⟩
    (by simp [Cursor.onto, fuelFor])
  rwa [hsame] at henough

theorem declaration_more {n m : Nat} (h : n ≤ m) {c : Cursor}
    (henough : (declaration n c).1 ≠ .outOfFuel) : declaration m c = declaration n c :=
  (declaration_agree lockstep_eq h).eq henough

theorem IsSegment.first {s : List Token} (hs : IsSegment s) :
    ∃ t others, s = t :: others ∧ t.kind ≠ .eof := by
  cases hs with
  | @bare body stop hbody hstop =>
      cases body with
      | nil => exact ⟨stop, [], rfl, by simp [hstop]⟩
      | cons t body =>
          refine ⟨t, body ++ [stop], rfl, fun heof => ?_⟩
          simpa [heof, isInner] using hbody t List.mem_cons_self
  | @opened first body stop hfirst =>
      refine ⟨first, body ++ [stop], rfl, fun heof => ?_⟩
      simp [heof, opensSimple] at hfirst

/-- Wherever a segment stands, reading it gives what it gives alone. -/
theorem recovering_segment {n : Nat} {s rest : List Token} {previous : Option Token}
    {last : Token} {reported : List Diagnostic} (hs : IsSegment s)
    (henough : (declaration n ⟨previous, s ++ rest, last, reported⟩).1 ≠ .outOfFuel) :
    ∃ previous', recovering (declaration n) ⟨previous, s ++ rest, last, reported⟩ =
      (.ok (alone s).1, ⟨previous', rest, last, reported ++ (alone s).2⟩) := by
  obtain ⟨t, others, hfirst, ht⟩ := hs.first
  have hne : s ++ rest ≠ [] := by simp [hfirst]
  have hkind : (Cursor.mk none (s ++ rest) last reported).kind ≠ .eof := by
    simpa [Cursor.kind, Cursor.peek, hfirst] using ht
  -- the segment alone, and with what stands around it
  let base : Cursor := { rest := s, last := {} }
  have honto : base.onto rest last reported = ⟨none, s ++ rest, last, reported⟩ := by
    simp [base, Cursor.onto]
  have hmore := declaration_more (Nat.le_max_left n (fuelFor s)) henough
  have hbase : declaration (max n (fuelFor s)) base = declaration (fuelFor s) base :=
    declaration_more (Nat.le_max_right n (fuelFor s)) (alone_enough hs)
  generalize max n (fuelFor s) = m at hmore hbase
  have henough' : (declaration m base).1 ≠ .outOfFuel := hbase ▸ alone_enough hs
  obtain ⟨previous', hrun⟩ := recovering_onto (c := base) hs henough' rest last reported
  have hsame := (declaration_stays (c := base) m hs).same rest last reported
  rw [honto] at hrun hsame
  refine ⟨previous', ?_⟩
  have hrecovering : recovering (declaration n) ⟨previous, s ++ rest, last, reported⟩ =
      recovering (declaration m) ⟨previous, s ++ rest, last, reported⟩ := by
    unfold recovering
    rw [hmore]
  rcases recovering_previous m hne hkind previous with hforget | hnone
  · rw [hrecovering, hforget, hrun, hbase]
    rfl
  · rw [hsame] at hnone
    exact absurd hnone henough'

/-! ## All segments -/

/-- Reading segment after segment gives what each gives alone. -/
theorem declarations_segments {segments : List (List Token)} {n : Nat} {stop : Token}
    (hsegments : ∀ s ∈ segments, IsSegment s) (hstop : stop.kind = .eof)
    (hn : 16 * (segments.flatten ++ [stop]).length < n) (previous : Option Token)
    (reported : List Diagnostic) :
    ∃ previous', declarations n false ⟨previous, segments.flatten ++ [stop], stop, reported⟩ =
      (.ok (segments.flatMap fun s => (alone s).1.toList),
        ⟨previous', [stop], stop, reported ++ segments.flatMap fun s => (alone s).2⟩) := by
  obtain ⟨n, rfl⟩ : ∃ k, n = k + 1 := ⟨n - 1, by omega⟩
  induction segments generalizing n previous reported with
  | nil =>
      refine ⟨previous, ?_⟩
      rw [declarations_end n (by simpa [Cursor.kind, Cursor.peek] using hstop)]
      simp
  | cons s segments ih =>
      obtain ⟨hs, hsegments⟩ := List.forall_mem_cons.mp hsegments
      obtain ⟨t, others, hfirst, ht⟩ := hs.first
      have hpos : 0 < s.length := by simp [hfirst]
      rw [List.flatten_cons, List.append_assoc] at hn ⊢
      generalize hwhole : s ++ (segments.flatten ++ [stop]) = whole at hn
      have hclosed : (Cursor.mk previous whole stop reported).Closed :=
        ⟨stop, by simp [← hwhole], hstop⟩
      have hkind : (Cursor.mk previous whole stop reported).kind ≠ .eof := by
        simpa [Cursor.kind, Cursor.peek, ← hwhole, hfirst] using ht
      have henough := declaration_enough hclosed (Nat.le_of_lt_succ hn)
      obtain ⟨fuel, rfl⟩ : ∃ k, n = k + 1 := ⟨n - 1, by rw [← hwhole] at hn; simp at hn; omega⟩
      rw [declarations_succ _ hkind]
      subst hwhole
      rw [List.length_append] at hn
      obtain ⟨previous₁, hrun⟩ := recovering_segment hs henough
      obtain ⟨previous₂, hrest⟩ :=
        ih hsegments previous₁ (reported ++ (alone s).2) fuel (by omega)
      refine ⟨previous₂, ?_⟩
      rw [bind_of_ok hrun, bind_of_ok hrest]
      simp [pure, Parse.pure]

theorem program_segments {segments : List (List Token)} {stop : Token}
    (hsegments : ∀ s ∈ segments, IsSegment s) (hstop : stop.kind = .eof) :
    program (segments.flatten ++ [stop]) =
      (segments.flatMap fun s => (alone s).1.toList, segments.flatMap fun s => (alone s).2) := by
  have hstart : Cursor.start (segments.flatten ++ [stop]) =
      ⟨none, segments.flatten ++ [stop], stop, []⟩ := by simp [Cursor.start]
  have hfuel : 16 * (segments.flatten ++ [stop]).length < fuelFor (segments.flatten ++ [stop]) := by
    unfold fuelFor
    omega
  obtain ⟨previous, hrun⟩ := declarations_segments hsegments hstop hfuel none []
  unfold program
  rw [hstart, hrun, List.nil_append]

/--
Statements and problems of segments, one after the other, are those of each of them alone: a
problem in one segment changes nothing about the others.
-/
theorem program_flatten {pieces : List (List Token × Token)} {stop : Token}
    (hpieces : ∀ piece ∈ pieces, IsSegment piece.1 ∧ piece.2.kind = .eof)
    (hstop : stop.kind = .eof) :
    program ((pieces.map Prod.fst).flatten ++ [stop]) =
      (pieces.flatMap fun piece => (program (piece.1 ++ [piece.2])).1,
        pieces.flatMap fun piece => (program (piece.1 ++ [piece.2])).2) := by
  have halone : ∀ piece ∈ pieces, program (piece.1 ++ [piece.2]) =
      ((alone piece.1).1.toList, (alone piece.1).2) := by
    intro piece hpiece
    obtain ⟨hs, heof⟩ := hpieces piece hpiece
    have hone : ∀ s ∈ [piece.1], IsSegment s := by simpa using hs
    simpa using program_segments hone heof
  have hsegments : ∀ s ∈ pieces.map Prod.fst, IsSegment s := by
    intro s hs
    obtain ⟨piece, hpiece, rfl⟩ := List.mem_map.mp hs
    exact (hpieces piece hpiece).1
  rw [program_segments hsegments hstop, List.flatMap_map, List.flatMap_map]
  congr 1
  · exact List.flatMap_congr fun piece hpiece => by rw [halone piece hpiece]
  · exact List.flatMap_congr fun piece hpiece => by rw [halone piece hpiece]

/-- A problem at the first token, one at the semicolon, and a statement without any. -/
theorem program_flatten_problems :
    let close : Token := { kind := .rightParen, lexeme := utf8 ")" }
    let word : Token := { kind := .printKw, lexeme := utf8 "print" }
    let name : Token := { kind := .identifier, lexeme := utf8 "x" }
    let stop : Token := { kind := .semicolon, lexeme := utf8 ";" }
    let finish : Token := { kind := .eof }
    let pieces := [([close, name, stop], finish), ([word, stop], finish),
      ([word, name, stop], finish)]
    (∀ piece ∈ pieces, IsSegment piece.1 ∧ piece.2.kind = .eof) ∧
      program ((pieces.map Prod.fst).flatten ++ [finish]) =
        (pieces.flatMap fun piece => (program (piece.1 ++ [piece.2])).1,
          pieces.flatMap fun piece => (program (piece.1 ++ [piece.2])).2) := by
  intro close word name stop finish pieces
  have hfirst : IsSegment ([close, name] ++ [stop]) := .bare (by decide) rfl
  have hsecond : IsSegment (word :: ([] ++ [stop])) := .opened rfl (by decide) rfl
  have hthird : IsSegment (word :: ([name] ++ [stop])) := .opened rfl (by decide) rfl
  have hpieces : ∀ piece ∈ pieces, IsSegment piece.1 ∧ piece.2.kind = .eof := by
    intro piece hpiece
    simp only [pieces, List.mem_cons, List.not_mem_nil, or_false] at hpiece
    rcases hpiece with rfl | rfl | rfl
    · exact ⟨hfirst, rfl⟩
    · exact ⟨hsecond, rfl⟩
    · exact ⟨hthird, rfl⟩
  exact ⟨hpieces, program_flatten hpieces rfl⟩

end Lox.Parser
