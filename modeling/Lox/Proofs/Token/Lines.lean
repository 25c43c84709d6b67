import Lox.Proofs.Token.Composition
import Lox.Proofs.Token.Spelling
import Mathlib.Data.List.TakeWhile

/-!
The lines of a source and the lines of its tokens.

A token stands on the line where it ends.  Its last byte is never a newline, also not that
of a string over several lines, so the line of a token is one of those of the source.  After
a line on which no string is left open, the next lines are scanned as a source of their own.
-/

namespace Lox

/-- The number of lines; the last one need not end in a newline. -/
def Bytes.lineCount (source : Bytes) : Nat :=
  source.count 0x0a + if source.getLast?.all (· == 0x0a) then 0 else 1

theorem Bytes.count_newline_lt_lineCount (before after : Bytes) {b : UInt8} (hb : b ≠ 0x0a) :
    before.count 0x0a < lineCount (before ++ b :: after) := by
  unfold lineCount
  rw [List.count_append]
  split
  · next hlast =>
      have hafter : after ≠ [] := by
        rintro rfl
        simp [hb] at hlast
      have hmem : 0x0a ∈ after := by
        rw [List.getLast?_append_of_ne_nil _ (by simp), List.getLast?_cons_of_ne_nil hafter,
          List.getLast?_eq_some_getLast hafter] at hlast
        rw [← beq_iff_eq.mp hlast]
        exact List.getLast_mem hafter
      have hpos := List.count_pos_iff.mpr (List.mem_cons_of_mem b hmem)
      omega
  · omega

namespace Scan

def EndsInLine (text : Bytes) : Prop := ∃ front c, text = front ++ [c] ∧ c ≠ 0x0a

theorem endsInLine_of_forall {text : Bytes} (hne : text ≠ []) (h : ∀ c ∈ text, c ≠ 0x0a) :
    EndsInLine text :=
  ⟨text.dropLast, text.getLast hne, (List.dropLast_append_getLast hne).symm,
    h _ (List.getLast_mem hne)⟩

theorem take_numberLength (s : Bytes) :
    s.take (numberLength s) = s.takeWhile Bytes.isDigit ∨
      ∃ t : Bytes, s.take (numberLength s) =
        s.takeWhile Bytes.isDigit ++ 0x2e :: t.takeWhile Bytes.isDigit := by
  have hwhole := take_length_takeWhile Bytes.isDigit s
  have hsplit : s.takeWhile Bytes.isDigit ++ s.dropWhile Bytes.isDigit = s :=
    List.takeWhile_append_dropWhile
  unfold numberLength numberParts
  generalize s.takeWhile Bytes.isDigit = whole at hwhole hsplit ⊢
  split
  · next digits hparts =>
      have hdigits : digits = whole := by
        split at hparts <;> exact (congrArg Prod.fst hparts).symm
      rw [hdigits]
      exact .inl hwhole
  · next digits fraction hne hparts =>
      split at hparts
      · next rest hrest =>
          cases hparts
          right
          refine ⟨rest, ?_⟩
          rw [hrest] at hsplit
          rw [← hsplit, Nat.add_assoc, List.take_length_add_append, Nat.add_comm,
            List.take_succ_cons, take_length_takeWhile]
      · cases hparts
        exact absurd rfl hne

theorem isDigit_or_point_of_mem_number {s : Bytes} {c : UInt8} (h : c ∈ s.take (numberLength s)) :
    Bytes.isDigit c = true ∨ c = 0x2e := by
  rcases take_numberLength s with hs | ⟨t, hs⟩
  · rw [hs] at h
    exact .inl (List.mem_takeWhile_imp h)
  · rw [hs] at h
    rcases List.mem_append.mp h with h | h
    · exact .inl (List.mem_takeWhile_imp h)
    · rcases List.mem_cons.mp h with rfl | h
      · exact .inr rfl
      · exact .inl (List.mem_takeWhile_imp h)

theorem ne_newline_of_mem_number {s : Bytes} {c : UInt8} (h : c ∈ s.take (numberLength s)) :
    c ≠ 0x0a := by
  rintro rfl
  exact absurd (isDigit_or_point_of_mem_number h) (by decide)

theorem take_quoted {s : Bytes} (h : s.dropWhile (· != 0x22) ≠ []) :
    s.take ((s.takeWhile (· != 0x22)).length + 1) = s.takeWhile (· != 0x22) ++ [0x22] := by
  have hsplit : s.takeWhile (· != 0x22) ++ s.dropWhile (· != 0x22) = s :=
    List.takeWhile_append_dropWhile
  have hstop := List.head_dropWhile_not (· != 0x22) h
  obtain ⟨c, after, hafter⟩ := List.exists_cons_of_ne_nil h
  obtain rfl : c = 0x22 := by simpa [hafter] using hstop
  rw [hafter] at hsplit
  generalize s.takeWhile (· != 0x22) = body at hsplit ⊢
  rw [← hsplit, List.take_length_add_append]
  rfl

theorem ne_newline_of_not_blank {b : UInt8} (h : isBlank b = false) : b ≠ 0x0a := by
  rintro rfl
  exact absurd h (by decide)

/-- A string ends in its quote, and no other token has a newline in it. -/
theorem endsInLine_of_munch {b : UInt8} {rest : Bytes} {k : Kind} {length : Nat}
    (h : munch b rest = (.token k, length)) : EndsInLine ((b :: rest).take length) := by
  cases begins_of_munch h with
  | number hdigit =>
      have hpos := numberLength_pos hdigit rest
      apply endsInLine_of_forall
      · apply List.ne_nil_of_length_pos
        rw [List.length_take, List.length_cons]
        omega
      · intro c hc
        exact ne_newline_of_mem_number hc
  | word hword =>
      rw [List.length_cons, List.take_succ_cons, take_length_takeWhile]
      apply endsInLine_of_forall (by simp)
      rintro c hc rfl
      rcases List.mem_cons.mp hc with rfl | hc
      · exact absurd hword (by decide)
      · exact absurd (List.mem_takeWhile_imp hc) (by decide)
  | string _ hopen =>
      refine ⟨b :: rest.takeWhile (· != 0x22), 0x22, ?_, by decide⟩
      rw [List.take_succ_cons, take_quoted hopen]
      rfl
  | long hext hequal =>
      obtain ⟨rest, rfl⟩ := List.head?_eq_some_iff.mp hequal
      exact ⟨[b], 0x3d, rfl, by decide⟩
  | short hblank | single hblank =>
      exact ⟨[], b, rfl, ne_newline_of_not_blank hblank⟩

theorem stop_line_of_mem_segments {source : Bytes} {s : Segment} {k : Kind}
    (hs : s ∈ segments source) (hshape : s.shape = .token k) :
    1 ≤ s.span.stop.line ∧ s.span.stop.line ≤ source.lineCount := by
  obtain ⟨before, b, rest, length, rfl, hmunch, htext, hspan⟩ := place_of_mem_segmentsFrom hs
  rw [hshape] at hmunch
  obtain ⟨front, c, hends, hc⟩ := endsInLine_of_munch hmunch
  have hsource : before ++ b :: rest = before ++ front ++ c :: (b :: rest).drop length := by
    rw [List.append_assoc, List.append_cons front, ← hends, List.take_append_drop]
  have hcount : (before ++ s.text).count 0x0a = (before ++ front).count 0x0a := by
    rw [htext, hends, ← List.append_assoc, List.count_append, List.count_singleton]
    simp [hc]
  have hbound := Bytes.count_newline_lt_lineCount (before ++ front) ((b :: rest).drop length) hc
  rw [← hsource, ← hcount] at hbound
  rw [hspan, (Position.first.advanceBy_eq _).2]
  simp only [Position.first]
  omega

end Scan

theorem line_of_mem_scan {source : Bytes} {t : Token} (h : t ∈ (scan source).1)
    (hkind : t.kind ≠ .eof) : 1 ≤ t.line ∧ t.line ≤ source.lineCount := by
  rcases List.mem_append.mp h with h | h
  · obtain ⟨s, hs, ht⟩ := List.mem_filterMap.mp h
    unfold Scan.Segment.token? at ht
    split at ht
    · next kind hshape =>
        cases ht
        exact Scan.stop_line_of_mem_segments hs hshape
    · cases ht
  · obtain rfl := List.mem_singleton.mp h
    exact absurd rfl hkind

/-! ## Lines joined into one source -/

/--
Scanning a source and, after a newline, another one gives the tokens of the first before its
end and those of the second, and the problems of both; what the second one gives stands a
number of bytes and of lines further on, in the same columns.
-/
theorem scan_joined_lines (a b : Bytes)
    (hclosed : ∀ d ∈ (scan a).2, d.code ≠ Problem.code .unterminatedString) :
    let joined := scan (a ++ utf8 "\n" ++ b)
    joined.1 = (scan a).1.filter (fun t => t.kind != .eof) ++
        (scan b).1.map (.shift (a.length + 1) (a.count 0x0a + 1)) ∧
      joined.2 = (scan a).2 ++ (scan b).2.map (.shift (a.length + 1) (a.count 0x0a + 1)) := by
  have hjoined : scan (a ++ utf8 "\n" ++ b) = scan (a ++ 0x0a :: b) := by
    rw [List.append_assoc]
    rfl
  intro joined
  simp only [joined, hjoined, scan_append_newline b (Scan.finished_of_code_ne hclosed),
    Scan.filter_scan, and_true]
  rw [scan, List.dropLast_concat]

/-- The first source ends in half a character, and a string of the second is over two lines. -/
theorem scan_joined_lines_half :
    let a := utf8 "x @\n1." ++ [0xe2, 0x82]
    let b := utf8 "\"p\nq\" # \"r"
    (∀ d ∈ (scan a).2, d.code ≠ Problem.code .unterminatedString) ∧
      (scan (a ++ utf8 "\n" ++ b)).1 = (scan a).1.filter (fun t => t.kind != .eof) ++
        (scan b).1.map (.shift 9 2) ∧
      (scan (a ++ utf8 "\n" ++ b)).2 = (scan a).2 ++ (scan b).2.map (.shift 9 2) := by
  intro a b
  have hclosed : ∀ d ∈ (scan a).2, d.code ≠ Problem.code .unterminatedString := by
    decide +kernel
  have h := scan_joined_lines a b hclosed
  exact ⟨hclosed, h.1, h.2⟩

/-- The two last problems are those of the second source, nine bytes and two lines further on. -/
example :
    (scan (utf8 "x @\n1." ++ [0xe2, 0x82] ++ utf8 "\n" ++ utf8 "\"p\nq\" # \"r")).2.map
        (fun d => (d.code, d.span.start.offset, d.line, d.span.start.column)) =
      [(utf8 "E1001", 2, 1, 3), (utf8 "E1001", 6, 2, 3), (utf8 "E1001", 7, 2, 4),
       (utf8 "E1001", 15, 4, 4), (utf8 "E1002", 17, 4, 6)] := by
  decide +kernel

end Lox
