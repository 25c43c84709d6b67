import Lox.Proofs.Ranges.Sources
import Lox.Proofs.Safety.Sources

/-!
References are told apart by where they start.

A nested tree has its references inside its range, and its parts follow each other, so no two
of them start at one offset.  This holds of whatever is read from a source, also where other
declarations were dropped.  Hence the table of local references, in the order of their ranges
and kinds, lists every resolved reference once and no two under one key.
-/

namespace Lox

open Lox.Span (Row)

theorem Span.Row.tail {source : Bytes} {low high : Int} {s : Span} {rest : List Span}
    (h : Row source low high (s :: rest)) : Row source s.stop.offset high rest where
  le := (h.between s List.mem_cons_self).2
  standing := fun t ht => h.standing t (List.mem_cons_of_mem s ht)
  between := fun t ht =>
    ⟨(List.pairwise_cons.mp h.ordered).1 t ht, (h.between t (List.mem_cons_of_mem s ht)).2⟩
  ordered := (List.pairwise_cons.mp h.ordered).2

theorem Span.Row.fromFirst {source : Bytes} {low high : Int} {s : Span} {rest : List Span}
    (h : Row source low high (s :: rest)) : Row source s.start.offset high (s :: rest) := by
  have hs := h.standing s List.mem_cons_self
  exact (Span.row_singleton hs (Int.le_refl _) (Int.le_refl _)).append h.tail

namespace Resolution

/-! ## The references of a tree -/

/-- A reference of a tree, with the name it is listed under. -/
structure Use where
  kind : ReferenceKind
  name : Bytes
  reference : Reference
  deriving DecidableEq, Repr

namespace Use

def start (u : Use) : Int := u.reference.span.start.offset

def entry? (u : Use) : Option Entry :=
  u.reference.hops.map fun hops => ⟨u.kind, u.name, u.reference.span, hops⟩

end Use

def Node.use? : Node → Option Use
  | .read r => some ⟨.var, r.name.lexeme, r⟩
  | .assigned r => some ⟨.assign, r.name.lexeme, r⟩
  | .this r => some ⟨.thisRef, utf8 "this", r⟩
  | .super r method => some ⟨.superRef, method.lexeme, r⟩
  | .inherits _ _ | .returned _ _ | .declared _ => none

def uses (points : List Point) : List Use := points.filterMap fun point => point.node.use?

theorem uses_append (points others : List Point) :
    uses (points ++ others) = uses points ++ uses others :=
  List.filterMap_append

/-! ## References apart -/

structure Apart (low high : Int) (points : List Point) : Prop where
  nodup : ((uses points).map Use.start).Nodup
  within : ∀ u ∈ uses points, low ≤ u.start ∧ u.start < high

namespace Apart

variable {source : Bytes} {low mid high : Int} {points others : List Point} {point : Point}

theorem nil : Apart low high [] := ⟨by simp [uses], by simp [uses]⟩

theorem widen {low' high' : Int} (h : Apart low high points) (hlow : low' ≤ low)
    (hhigh : high ≤ high') : Apart low' high' points := by
  refine ⟨h.nodup, fun u hu => ?_⟩
  have := h.within u hu
  omega

theorem append (h : Apart low mid points) (hrest : Apart mid high others) (hlow : low ≤ mid)
    (hhigh : mid ≤ high) : Apart low high (points ++ others) where
  nodup := by
    rw [uses_append, List.map_append]
    refine List.nodup_append.mpr ⟨h.nodup, hrest.nodup, ?_⟩
    intro a ha b hb
    obtain ⟨u, hu, rfl⟩ := List.mem_map.mp ha
    obtain ⟨v, hv, rfl⟩ := List.mem_map.mp hb
    have := h.within u hu
    have := hrest.within v hv
    omega
  within := by
    intro u hu
    rw [uses_append] at hu
    rcases List.mem_append.mp hu with hu | hu
    · have := h.within u hu
      omega
    · have := hrest.within u hu
      omega

theorem perm (h : Apart low high points) (hperm : points.Perm others) : Apart low high others where
  nodup := ((hperm.filterMap _).map _).nodup_iff.mp h.nodup
  within := fun u hu => h.within u ((hperm.filterMap _).mem_iff.mpr hu)

theorem silent (hpoint : point.node.use? = none) (h : Apart low high points) :
    Apart low high (point :: points) := by
  have huses : uses (point :: points) = uses points := List.filterMap_cons_none hpoint
  exact ⟨by rw [huses]; exact h.nodup, by rw [huses]; exact h.within⟩

theorem single {u : Use} (hpoint : point.node.use? = some u) (hlow : low ≤ u.start)
    (hhigh : u.start < high) : Apart low high [point] := by
  have huses : uses [point] = [u] := List.filterMap_cons_some hpoint
  exact ⟨by simp [huses], by simpa [huses] using ⟨hlow, hhigh⟩⟩

theorem cons {s : Span} {rest : List Span} (hrow : Row source low high (s :: rest))
    (h : Apart s.start.offset s.stop.offset points) (hrest : Apart s.stop.offset high others) :
    Apart low high (points ++ others) := by
  obtain ⟨hlow, hhigh⟩ := hrow.between s List.mem_cons_self
  have hordered := (hrow.standing s List.mem_cons_self).ordered
  exact (h.widen hlow (Int.le_refl _)).append hrest (Int.le_trans hlow hordered) hhigh

theorem skip {s : Span} {rest : List Span} (hrow : Row source low high (s :: rest))
    (h : Apart s.stop.offset high points) : Apart low high points := by
  have hlow := (hrow.between s List.mem_cons_self).1
  have hordered := (hrow.standing s List.mem_cons_self).ordered
  exact h.widen (Int.le_trans hlow hordered) (Int.le_refl _)

theorem last {s : Span} {rest : List Span} (hrow : Row source low high (s :: rest))
    (h : Apart s.start.offset s.stop.offset points) : Apart low high points := by
  rw [← List.append_nil points]
  exact cons hrow h nil

theorem expressions {es : List Expr} {place : Place} {pending : Option Bytes} {rest : List Span}
    (hrow : Row source low high (es.map Expr.span ++ rest))
    (h : ∀ e ∈ es, Apart e.span.start.offset e.span.stop.offset (e.points place pending)) :
    Apart low high (Expr.pointsList place pending es) := by
  induction es generalizing low with
  | nil => exact nil
  | cons e es ih =>
      obtain ⟨he, hes⟩ := List.forall_mem_cons.mp h
      exact cons hrow he (ih hrow.tail hes)

theorem optional {e : Option Expr} {place : Place} {pending : Option Bytes}
    (hrow : Row source low high (e.toList.map Expr.span))
    (h : ∀ x ∈ e, Apart x.span.start.offset x.span.stop.offset (x.points place pending)) :
    Apart low high (Expr.points? place pending e) := by
  cases e with
  | none => exact nil
  | some e => exact last hrow (h e rfl)

theorem statements {body : List Stmt} (hrow : Row source low high (body.map Stmt.span))
    (h : ∀ s ∈ body, ∀ place, Apart s.span.start.offset s.span.stop.offset (s.points place))
    (place : Place) : Apart low high (Stmt.pointsList place body) := by
  induction body generalizing low place with
  | nil => exact nil
  | cons s body ih =>
      obtain ⟨hs, hbody⟩ := List.forall_mem_cons.mp h
      exact cons hrow (hs place) (ih hrow.tail hbody _)

theorem declarations (ps : List Token) (place : Place) :
    Apart low high (Resolution.declarations place ps) := by
  induction ps generalizing place with
  | nil => exact nil
  | cons p ps ih => exact silent rfl (ih _)

theorem methods {fs : List FunctionDecl}
    (hrow : Row source low high (fs.map FunctionDecl.span))
    (h : ∀ f ∈ fs, ∀ place initializer,
      Apart f.span.start.offset f.span.stop.offset (f.points place initializer))
    (place : Place) : Apart low high (FunctionDecl.pointsList place fs) := by
  induction fs generalizing low with
  | nil => exact nil
  | cons f fs ih =>
      obtain ⟨hf, hfs⟩ := List.forall_mem_cons.mp h
      exact cons hrow (hf place _) (ih hrow.tail hfs)

end Apart

end Resolution

open Resolution

variable {source : Bytes}

def Token.Nonempty (t : Token) : Prop := t.span.start.offset < t.span.stop.offset

theorem Parser.Among.nonempty {t : Token} (h : Among (scan source).1 t) : t.Nonempty :=
  start_lt_stop_of_mem_scan h.1 h.2

theorem Span.Row.start_lt {s : Span} {t : Token} {rest : List Span}
    (h : Row source s.start.offset s.stop.offset (t.span :: rest)) (ht : t.Nonempty) :
    s.start.offset < t.span.stop.offset ∧ s.start.offset < s.stop.offset := by
  obtain ⟨hlow, hhigh⟩ := h.between t.span List.mem_cons_self
  unfold Token.Nonempty at ht
  omega

theorem Expr.fit_of_mem {T : Token → Prop} {k : Nat} {es : List Expr}
    (h : Expr.FitList T k es) : ∀ e ∈ es, e.Fit T k := by
  induction es with
  | nil => simp
  | cons e es ih =>
      rw [Expr.FitList] at h
      exact List.forall_mem_cons.mpr ⟨h.1, ih h.2⟩

theorem Stmt.fit_of_mem {T : Token → Prop} {k : Nat} {body : List Stmt}
    (h : Stmt.FitList T k body) : ∀ s ∈ body, s.Fit T k := by
  induction body with
  | nil => simp
  | cons s body ih =>
      rw [Stmt.FitList] at h
      exact List.forall_mem_cons.mpr ⟨h.1, ih h.2⟩

theorem Expr.Nested.apart {e : Expr} (h : e.Nested source) {k : Nat}
    (hfit : e.Fit Token.Nonempty k) (place : Place) (pending : Option Bytes) :
    Apart e.span.start.offset e.span.stop.offset (e.points place pending) := by
  induction h with
  | @intro e hholds _ ih =>
      have hrow := hholds.row
      cases e with
      | absent | literal => exact .nil
      | grouping span inner =>
          exact .last hrow (ih inner (by simp [Expr.operands]) hfit)
      | unary span operator operand =>
          simp only [Expr.Fit] at hfit
          exact .skip hrow (.last hrow.tail (ih operand (by simp [Expr.operands]) hfit.2.2))
      | binary span operator left right =>
          simp only [Expr.Fit] at hfit
          refine .cons hrow (ih left (by simp [Expr.operands]) hfit.2.2.1) (.skip hrow.tail ?_)
          exact .last hrow.tail.tail (ih right (by simp [Expr.operands]) hfit.2.2.2)
      | logical span operator left right =>
          simp only [Expr.Fit] at hfit
          refine .cons hrow (ih left (by simp [Expr.operands]) hfit.1) (.skip hrow.tail ?_)
          exact .last hrow.tail.tail (ih right (by simp [Expr.operands]) hfit.2)
      | var r | thisRef r =>
          simp only [Expr.Fit] at hfit
          exact .single rfl (Int.le_refl _) (hrow.start_lt hfit.1).2
      | superRef r method =>
          simp only [Expr.Fit] at hfit
          exact .single rfl (Int.le_refl _) (hrow.start_lt hfit.1.1).2
      | assign target value =>
          simp only [Expr.Fit] at hfit
          have hstart := (hrow.start_lt hfit.1.1).1
          have htarget : Apart target.span.start.offset target.name.span.stop.offset
              [{ place, pending, node := .assigned target }] :=
            .single rfl (Int.le_refl _) hstart
          have hvalue := Apart.last hrow.tail (ih value (by simp [Expr.operands]) hfit.2)
          exact htarget.append hvalue (Int.le_of_lt hstart) hrow.tail.le
      | call span callee paren arguments =>
          simp only [Expr.Fit] at hfit
          refine .cons hrow (ih callee (by simp [Expr.operands]) hfit.1)
            (.expressions hrow.tail ?_)
          exact fun e he => ih e (by simp [Expr.operands, he]) (Expr.fit_of_mem hfit.2.2 e he)
      | get span object name =>
          simp only [Expr.Fit] at hfit
          exact .last hrow (ih object (by simp [Expr.operands]) hfit.1)
      | set span object name value =>
          simp only [Expr.Fit] at hfit
          refine .cons hrow (ih object (by simp [Expr.operands]) hfit.1) (.skip hrow.tail ?_)
          exact .last hrow.tail.tail (ih value (by simp [Expr.operands]) hfit.2.2)

theorem FunctionDecl.apart {f : FunctionDecl} {low high : Int}
    (hrow : Row source low high
      (f.name.span :: f.parameters.map Token.span ++ f.body.map Stmt.span))
    (h : ∀ s ∈ f.body, ∀ place, Apart s.span.start.offset s.span.stop.offset (s.points place))
    (place : Place) (initializer : Bool) : Apart low high (f.points place initializer) := by
  obtain ⟨span, name, ps, body⟩ := f
  have hbody : Row source low high (body.map Stmt.span) :=
    hrow.sublist (List.sublist_append_right _ _)
  exact (Apart.declarations ps _).append (.statements hbody h _) (Int.le_refl _) hbody.le

/--
The references of a statement are inside its range.  A method is one of the statements of its
class, but its points have another place.  The references of a loop start with those of its
condition: the range of the loop that a `for` stands for begins before.
-/
structure Stmt.KeepsApart (s : Stmt) : Prop where
  inside : ∀ place, Apart s.span.start.offset s.span.stop.offset (s.points place)
  method : ∀ f, s = .function f → ∀ place initializer,
    Apart f.span.start.offset f.span.stop.offset (f.points place initializer)
  loop : ∀ span condition body, s = .loop span condition body → ∀ place,
    Apart condition.span.start.offset span.stop.offset (s.points place)

namespace Stmt.KeepsApart

theorem ofInside {s : Stmt}
    (h : ∀ place, Apart s.span.start.offset s.span.stop.offset (s.points place))
    (hfunction : ∀ f, s ≠ .function f := by simp)
    (hloop : ∀ span condition body, s ≠ .loop span condition body := by simp) :
    s.KeepsApart :=
  ⟨h, fun f hf => absurd hf (hfunction f), fun _ _ _ hs => absurd hs (hloop _ _ _)⟩

theorem ofLoop {span : Span} {condition : Expr} {body : Stmt}
    (hlow : span.start.offset ≤ condition.span.start.offset)
    (h : ∀ place, Apart condition.span.start.offset span.stop.offset
      ((Stmt.loop span condition body).points place)) :
    (Stmt.loop span condition body).KeepsApart where
  inside := fun place => (h place).widen hlow (Int.le_refl _)
  method := by simp
  loop := by
    rintro _ _ _ ⟨⟩
    exact h

end Stmt.KeepsApart

theorem Stmt.Nested.keepsApart {s : Stmt} (h : s.Nested source) {k : Nat}
    (hfit : s.Fit Token.Nonempty k) : s.KeepsApart := by
  induction h generalizing k with
  | @intro s _ hholds hexpressions _ ih =>
      have hrow := hholds.row
      cases s with
      | expression span e | print span e =>
          simp only [Stmt.Fit] at hfit
          have he := hexpressions e (by simp [Stmt.expressions])
          exact .ofInside fun place => .last hrow (he.apart hfit _ _)
      | var span name initial | ret span keyword initial =>
          simp only [Stmt.Fit] at hfit
          refine .ofInside fun place => .silent rfl (.skip hrow (.optional hrow.tail ?_))
          intro e he
          exact (hexpressions e (by simpa [Stmt.expressions] using he)).apart (hfit e he) _ _
      | block span body =>
          simp only [Stmt.Fit] at hfit
          refine .ofInside fun place => .statements hrow ?_ (.block [] :: place)
          exact fun t ht => (ih t ht (Stmt.fit_of_mem hfit t ht)).inside
      | branch span condition onTrue onFalse =>
          have hcondition := hexpressions condition (by simp [Stmt.expressions])
          refine .ofInside fun place => ?_
          cases onFalse with
          | none =>
              simp only [Stmt.Fit] at hfit
              have hTrue := (ih onTrue (by simp [Stmt.statements]) hfit.2).inside place
              exact .cons hrow (hcondition.apart hfit.1 _ _) (.last hrow.tail hTrue)
          | some onFalse =>
              simp only [Stmt.Fit] at hfit
              have hTrue := (ih onTrue (by simp [Stmt.statements]) hfit.2.1).inside place
              have hFalse := (ih onFalse (by simp [Stmt.statements]) hfit.2.2).inside place
              rw [Stmt.points, List.append_assoc]
              refine .cons hrow (hcondition.apart hfit.1 _ _) (.cons hrow.tail hTrue ?_)
              exact .last hrow.tail.tail hFalse
      | loop span condition body =>
          simp only [Stmt.Fit] at hfit
          have hcondition := hexpressions condition (by simp [Stmt.expressions])
          have hbody := (ih body (by simp [Stmt.statements]) hfit.2).inside
          refine .ofLoop (hrow.between _ List.mem_cons_self).1 fun place => ?_
          exact .cons hrow.fromFirst (hcondition.apart hfit.1 _ _) (.last hrow.tail (hbody place))
      | function f =>
          simp only [Stmt.Fit, FunctionDecl.fit_iff] at hfit
          have hf := FunctionDecl.apart hrow fun t ht =>
            (ih t ht (Stmt.fit_of_mem hfit t ht)).inside
          refine ⟨fun place => .silent rfl (hf _ _), ?_, by simp⟩
          rintro _ ⟨⟩
          exact hf
      | classDecl span name parent methods =>
          have hmethods {k : Nat} (hfit : FunctionDecl.FitList Token.Nonempty k methods) :
              ∀ f ∈ methods, ∀ place initializer,
                Apart f.span.start.offset f.span.stop.offset (f.points place initializer) :=
            fun f hf => (ih (.function f) (by simpa [Stmt.statements] using hf)
              (FunctionDecl.fit_of_mem hfit f hf)).method f rfl
          refine .ofInside fun place => ?_
          cases parent with
          | none =>
              simp only [Stmt.Fit] at hfit
              exact .silent rfl (.skip hrow (.methods hrow.tail (hmethods hfit) _))
          | some parent =>
              simp only [Stmt.Fit] at hfit
              have hparent := hexpressions (.var parent) (by simp [Stmt.expressions])
              refine .silent rfl (.silent rfl (.skip hrow ?_))
              exact .cons hrow.tail (hparent.apart hfit.1 _ none)
                (.methods hrow.tail.tail (hmethods hfit.2) _)
  | @incremented span condition increment body _ hholds hinner hcondition hincrement _ ih =>
      simp only [Stmt.Fit, Stmt.FitList] at hfit
      obtain ⟨hfitCondition, hfitBody, hfitIncrement, -⟩ := hfit
      have hrow := hholds.row
      refine .ofLoop (hrow.between _ List.mem_cons_self).1 fun place => ?_
      have hlast := hrow.tail.tail.between _ List.mem_cons_self
      have hbody := (Apart.last hinner.row ((ih hfitBody).inside (.block [] :: place))).widen
        hlast.1 hlast.2
      -- the increment stands before the body and is listed after it
      have hboth := (Apart.cons hrow.tail
        (hincrement.apart hfitIncrement (body.placeAfter (.block [] :: place)) none) hbody).perm
          List.perm_append_comm
      rw [← List.append_nil (Expr.points _ _ increment)] at hboth
      exact .cons hrow.fromFirst (hcondition.apart hfitCondition _ _) hboth
  | @initialized span initial condition body _ hholds _ _ ihInitial ihLoop =>
      simp only [Stmt.Fit, Stmt.FitList] at hfit
      obtain ⟨hfitInitial, hfitLoop, -⟩ := hfit
      have hrow := hholds.row
      refine .ofInside fun place => ?_
      have hinitial := (ihInitial hfitInitial).inside (.block [] :: place)
      have hloop := ((ihLoop (by simpa [Stmt.Fit] using hfitLoop)).loop span condition body rfl
        (initial.placeAfter (.block [] :: place))).widen
          (hrow.tail.between _ List.mem_cons_self).1 (Int.le_refl _)
      rw [← List.append_nil (Stmt.points _ _)] at hloop
      exact .cons hrow hinitial hloop

/-! ## The table -/

namespace Resolution

def Entry.Before (a b : Entry) : Prop := a.le b = true ∧ b.le a = false

theorem ReferenceKind.le_total (a b : ReferenceKind) : a.name.le b.name || b.name.le a.name := by
  cases a <;> cases b <;> decide

theorem ReferenceKind.le_trans {a b c : ReferenceKind} (hab : a.name.le b.name = true)
    (hbc : b.name.le c.name = true) : a.name.le c.name = true := by
  revert hab hbc
  cases a <;> cases b <;> cases c <;> decide

theorem Entry.le_iff (a b : Entry) : a.le b = true ↔
    a.span.start.offset < b.span.start.offset ∨
      a.span.start.offset = b.span.start.offset ∧
        (a.span.stop.offset < b.span.stop.offset ∨
          a.span.stop.offset = b.span.stop.offset ∧ a.kind.name.le b.kind.name = true) := by
  unfold Entry.le
  split
  · rw [decide_eq_true_iff]
    omega
  · split
    · rw [decide_eq_true_iff]
      omega
    · simp_all

theorem Entry.le_total (a b : Entry) : a.le b || b.le a := by
  have hkind := ReferenceKind.le_total a.kind b.kind
  rw [Bool.or_eq_true] at hkind ⊢
  rw [Entry.le_iff, Entry.le_iff]
  grind

theorem Entry.le_trans (a b c : Entry) (hab : a.le b = true) (hbc : b.le c = true) :
    a.le c = true := by
  rw [Entry.le_iff] at hab hbc ⊢
  have hkind (h : a.kind.name.le b.kind.name = true) (h' : b.kind.name.le c.kind.name = true) :
      a.kind.name.le c.kind.name = true := ReferenceKind.le_trans h h'
  grind

/-- Entries that start apart are in strict order when they are sorted. -/
theorem sortEntries_before {entries : List Entry}
    (h : (entries.map fun entry => entry.span.start.offset).Nodup) :
    (sortEntries entries).Pairwise Entry.Before := by
  have hsorted := List.pairwise_mergeSort Entry.le_trans Entry.le_total entries
  have hapart : (sortEntries entries).Pairwise
      fun a b => a.span.start.offset ≠ b.span.start.offset :=
    List.pairwise_map.mp (((List.mergeSort_perm entries Entry.le).map _).nodup_iff.mpr h)
  refine (hsorted.and hapart).imp fun {a b} hab => ⟨hab.1, ?_⟩
  rw [Bool.eq_false_iff, ne_eq, Entry.le_iff]
  have hle := (Entry.le_iff a b).mp hab.1
  omega

theorem Point.entry?_located (point : Point) :
    point.located.node.use?.bind Use.entry? = point.entry? := by
  obtain ⟨place, pending, node⟩ := point
  cases node <;> rfl

theorem Point.start_located (point : Point) :
    point.located.node.use?.map Use.start = point.node.use?.map Use.start := by
  obtain ⟨place, pending, node⟩ := point
  cases node <;> rfl

theorem filterMap_entry? (points : List Point) :
    (uses (points.map Point.located)).filterMap Use.entry? = points.filterMap Point.entry? := by
  unfold uses
  rw [List.filterMap_filterMap, List.filterMap_map]
  exact List.filterMap_congr fun point _ => point.entry?_located

theorem map_start_located (points : List Point) :
    (uses (points.map Point.located)).map Use.start = (uses points).map Use.start := by
  unfold uses
  rw [List.map_filterMap, List.map_filterMap, List.filterMap_map]
  exact List.filterMap_congr fun point _ => point.start_located

theorem starts_sublist (found : List Use) :
    ((found.filterMap Use.entry?).map fun entry => entry.span.start.offset).Sublist
      (found.map Use.start) := by
  induction found with
  | nil => exact .slnil
  | cons u found ih =>
      cases hhops : u.reference.hops with
      | none =>
          have hentry : u.entry? = none := by simp [Use.entry?, hhops]
          rw [List.filterMap_cons_none hentry]
          exact ih.cons _
      | some hops =>
          have hentry : u.entry? = some ⟨u.kind, u.name, u.reference.span, hops⟩ := by
            simp [Use.entry?, hhops]
          rw [List.filterMap_cons_some hentry]
          exact ih.cons_cons _

end Resolution

/--
Of all references that are read from a source, in statements or in its one expression, no two
start at the same offset.  The table has an entry for each reference that was resolved, one for
one, and sorting it by start, end and kind loses none and leaves no two of equal rank.
-/
theorem references_identified (source : Bytes) :
    let program := (parse source).1
    let table := resolve program
    ((uses (Stmt.pointsList [] program)).map Use.start).Nodup ∧
      (∀ e ∈ (parseExpression source).1, ((uses (e.points [] none)).map Use.start).Nodup) ∧
      table.entries.Perm ((uses (Stmt.pointsList [] table.program)).filterMap Use.entry?) ∧
      (sortEntries table.entries).Perm table.entries ∧
      (sortEntries table.entries).Pairwise Entry.Before := by
  intro program table
  have hlaid := parse_laid source
  have hfit := Stmt.FitList.imp (fun _ => Parser.Among.nonempty) _ (parse_fit source)
  have hprogram : Apart 0 source.length (Stmt.pointsList [] program) := by
    refine .statements hlaid.row (fun s hs => ?_) []
    exact ((hlaid.all s hs).keepsApart (Stmt.fit_of_mem hfit s hs)).inside
  have hexpression : ∀ e ∈ (parseExpression source).1,
      ((uses (e.points [] none)).map Use.start).Nodup := by
    intro e he
    have hfit := Expr.Fit.imp (fun _ => Parser.Among.nonempty) e (parseExpression_fit source e he)
    exact ((Parser.soleExpression_nested source e he).apart hfit [] none).nodup
  have hsettles := stmts_settles {} program mirrors_start trivial (parse_wellFormed source)
  have hlocated : Stmt.pointsList [] table.program =
      (Stmt.pointsList [] program).map Point.located := hsettles.located
  have hentries : table.entries.Perm
      ((uses (Stmt.pointsList [] table.program)).filterMap Use.entry?) := by
    rw [hlocated, filterMap_entry?]
    exact hsettles.entries
  have hstarts : (table.entries.map fun entry => entry.span.start.offset).Nodup := by
    refine ((hentries.map _).nodup_iff.mpr ((starts_sublist _).nodup ?_))
    rw [hlocated, map_start_located]
    exact hprogram.nodup
  exact ⟨hprogram.nodup, hexpression, hentries, List.mergeSort_perm _ _,
    sortEntries_before hstarts⟩

/-- The increment of a loop is resolved after its body, and starts before it. -/
example :
    let source := utf8
      "\x7bvar a; for (a = 1; a < 2; a = 3) \x7bclass B < a \x7bm() \x7bthis.a;\x7d\x7d\x7d\x7d"
    (resolve (parse source).1).entries.map (fun entry => (entry.kind, entry.span.start.offset)) =
      [(.assign, 13), (.var, 20), (.var, 45), (.thisRef, 53), (.assign, 27)] := by
  decide +kernel

end Lox
