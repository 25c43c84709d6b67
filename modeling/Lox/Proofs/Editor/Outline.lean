import Lox.Editor.Symbols
import Lox.Proofs.Ranges.Sources

/-!
The outline of a document is one that an editor accepts.

An editor compares places by line and then by character.  In a text that is short enough for
its words this is the order of the offsets, so whatever nests in the tree nests in the editor.
-/

namespace Lox

/-! ## Lines and columns -/

namespace Position.StandsIn

variable {source : Bytes} {p q : Position}

/-- A later offset is on a later line, or as many columns further on the same line. -/
theorem line_column (hp : p.StandsIn source) (hq : q.StandsIn source)
    (h : p.offset ≤ q.offset) :
    p.line < q.line ∨ p.line = q.line ∧ q.column - p.column = q.offset - p.offset := by
  have hplace := hp.faithful
  have hplace' := hq.faithful
  have hnonneg := hp.nonneg
  have hle := hq.le
  generalize hi : p.offset.toNat = i at hplace
  generalize hj : q.offset.toNat = j at hplace'
  obtain ⟨between, hbetween⟩ : ∃ between, source.take j = source.take i ++ between := by
    have hsplit := List.take_append_drop i (source.take j)
    rw [List.take_take, Nat.min_eq_left (by omega)] at hsplit
    exact ⟨_, hsplit.symm⟩
  have hlength := congrArg List.length hbetween
  rw [List.length_append, List.length_take, List.length_take] at hlength
  rw [hplace, hplace']
  simp only [ofOffset, hbetween, List.count_append, List.reverse_append]
  by_cases hnewline : 0x0a ∈ between
  · have hpos := List.count_pos_iff.mpr hnewline
    omega
  · have hall : ∀ b ∈ between.reverse, (b != 0x0a) = true := by
      intro b hb
      simpa using fun hb' => hnewline (by simpa [hb'] using hb)
    rw [List.takeWhile_append_of_pos hall, List.count_eq_zero_of_not_mem hnewline,
      List.length_append, List.length_reverse]
    omega

theorem bounds (h : p.StandsIn source) :
    (1 ≤ p.line ∧ p.line ≤ 1 + source.length) ∧ 1 ≤ p.column ∧ p.column ≤ 1 + source.length := by
  have hlines := List.count_le_length (l := source.take p.offset.toNat) (a := 0x0a)
  have hcolumns := (List.takeWhile_sublist (l := (source.take p.offset.toNat).reverse)
    (· != 0x0a)).length_le
  rw [List.length_reverse] at hcolumns
  have hline : p.line = 1 + (source.take p.offset.toNat).count 0x0a :=
    congrArg Position.line h.faithful
  have hcolumn : p.column =
      1 + ((source.take p.offset.toNat).reverse.takeWhile (· != 0x0a)).length :=
    congrArg Position.column h.faithful
  have htake : (source.take p.offset.toNat).length ≤ source.length := List.length_take_le' ..
  omega

end Position.StandsIn

namespace Editor

/-! ## Places in an editor -/

/-- The place with line and column counted from zero, neither of them cut off. -/
structure Location.Marks (l : Location) (p : Position) : Prop where
  line : (l.line : Int) = p.line - 1
  character : (l.character : Int) = p.column - 1

structure Range.Marks (r : Range) (s : Span) : Prop where
  start : r.start.Marks s.start
  stop : r.stop.Marks s.stop

instance : LE Location where
  le a b := a.line < b.line ∨ a.line = b.line ∧ a.character ≤ b.character

instance : LT Location where
  lt a b := a.line < b.line ∨ a.line = b.line ∧ a.character < b.character

structure Range.Inside (inner outer : Range) : Prop where
  start : outer.start ≤ inner.start
  stop : inner.stop ≤ outer.stop

def Range.Before (a b : Range) : Prop := a.stop ≤ b.start

theorem fromZero_eq {n : Int} (hone : 1 ≤ n) (hword : n - 1 < Nat.pow 2 32) :
    (fromZero n : Int) = n - 1 := by
  have hlong : Nat.pow 2 64 = 18446744073709551616 := rfl
  have hshort : Nat.pow 2 32 = 4294967296 := rfl
  unfold fromZero
  rw [Int.bmod_eq_of_le_mul_two (by omega) (by omega), hshort]
  omega

section

variable {text : Bytes} (hshort : text.length < Nat.pow 2 32)
variable {p q : Position} {s : Span} {low high : Int} {parts : List Span}

include hshort

theorem Location.ofPosition_marks (hp : p.StandsIn text) : (ofPosition p).Marks p := by
  obtain ⟨hline, hcolumn⟩ := hp.bounds
  exact ⟨fromZero_eq hline.1 (by omega), fromZero_eq hcolumn.1 (by omega)⟩

theorem Location.ofPosition_le (hp : p.StandsIn text) (hq : q.StandsIn text)
    (h : p.offset ≤ q.offset) : ofPosition p ≤ ofPosition q := by
  obtain ⟨hline, hcharacter⟩ := ofPosition_marks hshort hp
  obtain ⟨hline', hcharacter'⟩ := ofPosition_marks hshort hq
  have hlater := hp.line_column hq h
  change _ < _ ∨ _ = _ ∧ _ ≤ _
  omega

theorem Location.ofPosition_lt (hp : p.StandsIn text) (hq : q.StandsIn text)
    (h : p.offset < q.offset) : ofPosition p < ofPosition q := by
  obtain ⟨hline, hcharacter⟩ := ofPosition_marks hshort hp
  obtain ⟨hline', hcharacter'⟩ := ofPosition_marks hshort hq
  have hlater := hp.line_column hq (Int.le_of_lt h)
  change _ < _ ∨ _ = _ ∧ _ < _
  omega

theorem Range.ofSpan_marks (hs : s.StandsIn text) : (ofSpan s).Marks s :=
  ⟨Location.ofPosition_marks hshort hs.start, Location.ofPosition_marks hshort hs.stop⟩

theorem Range.ofSpan_inside (h : s.Holds text parts) {part : Span} (hpart : part ∈ parts) :
    (ofSpan part).Inside (ofSpan s) := by
  have hstanding := h.row.standing part hpart
  obtain ⟨hstart, hstop⟩ := h.row.between part hpart
  exact ⟨Location.ofPosition_le hshort h.standing.start hstanding.start hstart,
    Location.ofPosition_le hshort hstanding.stop h.standing.stop hstop⟩

theorem Range.ofSpan_pairwise (h : Span.Row text low high parts) :
    (parts.map ofSpan).Pairwise Before := by
  refine List.pairwise_map.mpr (h.ordered.imp_of_mem ?_)
  intro a b ha hb hbefore
  exact Location.ofPosition_le hshort (h.standing a ha).stop (h.standing b hb).start hbefore

end

/-! ## Symbols -/

structure Leaf.Shows (leaf : Leaf) (kind : SymbolKind) (name : Token) (detail : Option Bytes)
    (span : Span) : Prop where
  sort : leaf.kind = kind
  spelled : leaf.name = name.lexeme
  detailed : leaf.detail = detail
  range : leaf.range.Marks span
  selection : leaf.selection.Marks name.span

/-- The entry is that of a declaration: of its own name and, for a class, of all its methods. -/
inductive Entry.Shows : Stmt → Entry → Prop where
  | classDecl {span : Span} {name : Token} {superclass : Option Reference}
      {methods : List FunctionDecl} {own : Leaf} {children : List Leaf} :
      own.Shows .classKind name (superclass.map fun r => utf8 "< " ++ r.name.lexeme) span →
      List.Forall₂ (fun f child => child.Shows .method f.name (some (signature f)) f.span)
        methods children →
      Entry.Shows (.classDecl span name superclass methods) ⟨own, children⟩
  | function {f : FunctionDecl} {own : Leaf} :
      own.Shows .function f.name (some (signature f)) f.span → Entry.Shows (.function f) ⟨own, []⟩
  | var {span : Span} {name : Token} {initial : Option Expr} {own : Leaf} :
      own.Shows .var name none span → Entry.Shows (.var span name initial) ⟨own, []⟩

structure Leaf.Valid (leaf : Leaf) : Prop where
  nonempty : leaf.range.start < leaf.range.stop
  named : leaf.selection.start ≤ leaf.selection.stop
  selected : leaf.selection.Inside leaf.range

structure Entry.Valid (entry : Entry) : Prop where
  own : entry.own.Valid
  children : ∀ child ∈ entry.children, child.Valid ∧ child.range.Inside entry.own.range
  ordered : (entry.children.map Leaf.range).Pairwise Range.Before

theorem entry?_isSome (s : Stmt) : ( entry? s).isSome = s.declared?.isSome := by
  cases s <;> rfl

theorem entry?_range {s : Stmt} {entry : Entry} (h : entry? s = some entry) :
    entry.own.range = .ofSpan s.span := by
  unfold entry? at h
  split at h
  iterate 3
    next =>
      obtain rfl := Option.some.inj h
      rfl
  · cases h

section

variable {text : Bytes} (hshort : text.length < Nat.pow 2 32)

include hshort

theorem leaf_shows (kind : SymbolKind) (name : Token) (detail : Option Bytes) {span : Span}
    {parts : List Span}
    (hnonempty : span.start.offset < span.stop.offset) (hholds : span.Holds text parts)
    (hname : name.span ∈ parts) :
    let leaf : Leaf := ⟨name.lexeme, detail, kind, .ofSpan span, .ofSpan name.span⟩
    leaf.Shows kind name detail span ∧ leaf.Valid := by
  have hstanding := hholds.standing
  have hname' := hholds.row.standing name.span hname
  refine ⟨⟨rfl, rfl, rfl, Range.ofSpan_marks hshort hstanding, Range.ofSpan_marks hshort hname'⟩,
    ?_, ?_, Range.ofSpan_inside hshort hholds hname⟩
  · exact Location.ofPosition_lt hshort hstanding.start hstanding.stop hnonempty
  · exact Location.ofPosition_le hshort hname'.start hname'.stop hname'.ordered

theorem functionLeaf_shows (kind : SymbolKind) {f : FunctionDecl}
    (h : (Stmt.function f).Nested text) :
    (functionLeaf kind f).Shows kind f.name (some (signature f)) f.span ∧
      (functionLeaf kind f).Valid := by
  cases h with
  | intro hnonempty hholds _ _ =>
      exact leaf_shows hshort kind f.name (some (signature f)) hnonempty hholds
        (by simp [Stmt.parts])

theorem entry_shows {s : Stmt} {entry : Entry} (hs : s.Nested text) (h : entry? s = some entry) :
    Entry.Shows s entry ∧ entry.Valid := by
  unfold entry? at h
  split at h
  · next span name superclass methods =>
      obtain rfl := Option.some.inj h
      cases hs with
      | intro hnonempty hholds _ hmethods =>
          have hmethod (f : FunctionDecl) (hf : f ∈ methods) :=
            functionLeaf_shows hshort .method (hmethods (.function f) (List.mem_map_of_mem hf))
          obtain ⟨hown, hvalid⟩ := leaf_shows hshort .classKind name
            (superclass.map fun r => utf8 "< " ++ r.name.lexeme) hnonempty hholds
            (by simp [Stmt.parts])
          refine ⟨.classDecl hown ?_, hvalid, ?_, ?_⟩
          · refine List.forall₂_map_right_iff.mpr (List.forall₂_same.mpr ?_)
            exact fun f hf => (hmethod f hf).1
          · intro child hchild
            obtain ⟨f, hf, rfl⟩ := List.mem_map.mp hchild
            refine ⟨(hmethod f hf).2, Range.ofSpan_inside hshort hholds ?_⟩
            simpa [Stmt.parts] using .inr (.inr ⟨f, hf, rfl⟩)
          · have hrow := hholds.row.sublist (List.sublist_append_right _ _)
            have hordered := Range.ofSpan_pairwise hshort hrow
            rw [List.map_map] at hordered ⊢
            exact hordered
  · next f =>
      obtain rfl := Option.some.inj h
      obtain ⟨hown, hvalid⟩ := functionLeaf_shows hshort .function hs
      exact ⟨.function hown, hvalid, by simp, by simp⟩
  · next span name initial =>
      obtain rfl := Option.some.inj h
      cases hs with
      | intro hnonempty hholds _ _ =>
          obtain ⟨hown, hvalid⟩ := leaf_shows hshort .var name none hnonempty hholds
            (by simp [Stmt.parts])
          exact ⟨.var hown, hvalid, by simp, by simp⟩
  · cases h

theorem outline_shows {program : List Stmt} (h : ∀ s ∈ program, s.Nested text) :
    List.Forall₂ Entry.Shows (program.filter fun s => s.declared?.isSome) (outline program) := by
  unfold outline
  induction program with
  | nil => exact .nil
  | cons s rest ih =>
      obtain ⟨hs, hrest⟩ := List.forall_mem_cons.mp h
      rw [List.filter_cons, List.filterMap_cons, ← entry?_isSome]
      cases hentry : entry? s with
      | none => exact ih hrest
      | some entry => exact .cons (entry_shows hshort hs hentry).1 (ih hrest)

theorem outline_ordered {program : List Stmt} {low high : Int}
    (h : Span.Row text low high (program.map Stmt.span)) :
    ((outline program).map fun entry => entry.own.range).Pairwise Range.Before := by
  have hordered := Range.ofSpan_pairwise hshort h
  rw [List.map_map, List.pairwise_map] at hordered
  refine List.pairwise_map.mpr (hordered.filterMap entry? ?_)
  intro s t hbefore entry hentry entry' hentry'
  rw [entry?_range hentry, entry?_range hentry']
  exact hbefore

end

/--
For every text shorter than a word can count, also one with mistakes: the outline lists the
classes, functions and variables that are declared at the top level, in their order and with
the lines and characters that they have; names stand inside their declarations, methods
inside their classes, and neighbours one after the other.
-/
theorem outline_valid (text : Bytes) (hshort : text.length < Nat.pow 2 32) :
    List.Forall₂ Entry.Shows ((parse text).1.filter fun s => s.declared?.isSome)
        (outline (parse text).1) ∧
      (∀ entry ∈ outline (parse text).1, entry.Valid) ∧
      ((outline (parse text).1).map fun entry => entry.own.range).Pairwise Range.Before := by
  have hlaid := parse_laid text
  refine ⟨outline_shows hshort hlaid.all, ?_, outline_ordered hshort hlaid.row⟩
  intro entry hentry
  obtain ⟨s, hs, hs'⟩ := List.mem_filterMap.mp hentry
  exact (entry_shows hshort (hlaid.all s hs) hs').2

/-- The second declaration is given up at its parenthesis, and the last one has a local variable. -/
def brokenDocument : Bytes :=
  utf8 "class A < B \x7b\n  m(x, y) \x7b\x7d\n\x7d\nfun (\nvar a = 1;\nfun g() \x7b var b; \x7d"

theorem outline_valid_broken :
    brokenDocument.length < Nat.pow 2 32 ∧ (parse brokenDocument).2.diagnostics.length = 1 ∧
      (outline (parse brokenDocument).1).map (fun entry =>
          (entry.own.name, entry.own.range.start.line, entry.children.map Leaf.name)) =
        [(utf8 "A", 0, [utf8 "m"]), (utf8 "a", 4, []), (utf8 "g", 5, [])] ∧
      ∀ entry ∈ outline (parse brokenDocument).1, entry.Valid := by
  have hshort : brokenDocument.length < Nat.pow 2 32 := by decide +kernel
  exact ⟨hshort, by decide +kernel, by decide +kernel, (outline_valid brokenDocument hshort).2.1⟩

end Editor

end Lox
