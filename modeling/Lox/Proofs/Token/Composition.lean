import Lox.Proofs.Token.Segment

/-!
Scanning one source after another.

No segment but an unfinished string reaches over the end of a line.  So the segments of
two sources with a newline between them are those of the first, the newline, and those
of the second at later positions.
-/

namespace Lox

/-! ## Later positions -/

def Position.shift (bytes lines : Int) (p : Position) : Position :=
  ⟨p.offset + bytes, p.line + lines, p.column⟩

def Span.shift (bytes lines : Int) (s : Span) : Span :=
  ⟨s.start.shift bytes lines, s.stop.shift bytes lines⟩

def Token.shift (bytes lines : Int) (t : Token) : Token :=
  { t with line := t.line + lines, span := t.span.shift bytes lines }

def Diagnostic.shift (bytes lines : Int) (d : Diagnostic) : Diagnostic :=
  { d with line := d.line + lines, span := d.span.shift bytes lines }

theorem Position.advance_shift (bytes lines : Int) (p : Position) (b : UInt8) :
    (p.shift bytes lines).advance b = (p.advance b).shift bytes lines := by
  unfold advance
  split <;> simp [shift] <;> omega

theorem Position.advanceBy_shift (bytes lines : Int) (p : Position) (s : Bytes) :
    (p.shift bytes lines).advanceBy s = (p.advanceBy s).shift bytes lines := by
  induction s generalizing p with
  | nil => rfl
  | cons b rest ih =>
      have h := ih (p.advance b)
      rw [← advance_shift] at h
      exact h

@[simp] theorem Position.advanceBy_append (p : Position) (s t : Bytes) :
    p.advanceBy (s ++ t) = (p.advanceBy s).advanceBy t := by
  simp [advanceBy]

@[simp] theorem Position.advanceBy_cons (p : Position) (b : UInt8) (s : Bytes) :
    p.advanceBy (b :: s) = (p.advance b).advanceBy s := rfl

namespace Scan

def Segment.shift (bytes lines : Int) (s : Segment) : Segment :=
  { s with span := s.span.shift bytes lines }

theorem segmentsFrom_shift (bytes lines : Int) (skip : Nat) (p : Position) (s : Bytes) :
    segmentsFrom skip (p.shift bytes lines) s =
      (segmentsFrom skip p s).map (Segment.shift bytes lines) := by
  induction s generalizing skip p with
  | nil => simp [segmentsFrom]
  | cons b rest ih =>
      cases skip with
      | zero =>
          simp only [segmentsFrom, Position.advance_shift, ih, Position.advanceBy_shift,
            List.map_cons]
          rfl
      | succ skip => simp only [segmentsFrom, Position.advance_shift, ih]

theorem Segment.token?_shift (bytes lines : Int) (s : Segment) :
    (s.shift bytes lines).token? = s.token?.map (Token.shift bytes lines) := by
  obtain ⟨shape, text, span⟩ := s
  cases shape <;> rfl

theorem Segment.diagnostic?_shift (bytes lines : Int) (s : Segment) :
    (s.shift bytes lines).diagnostic? = s.diagnostic?.map (Diagnostic.shift bytes lines) := by
  obtain ⟨shape, text, span⟩ := s
  cases shape <;> rfl

/-! ## The end of a line -/

theorem takeWhile_append_stop {p : UInt8 → Bool} {x : UInt8} (hx : p x = false) (s t : Bytes) :
    (s ++ x :: t).takeWhile p = s.takeWhile p := by
  induction s with
  | nil => simp [hx]
  | cons b rest ih =>
      by_cases hb : p b = true
      · simp [hb, ih]
      · simp [hb]

theorem dropWhile_append_stop {p : UInt8 → Bool} {x : UInt8} (hx : p x = false) (s t : Bytes) :
    (s ++ x :: t).dropWhile p = s.dropWhile p ++ x :: t := by
  induction s with
  | nil => simp [hx]
  | cons b rest ih =>
      by_cases hb : p b = true
      · simp [hb, ih]
      · simp [hb]

theorem head?_append_newline {c : UInt8} (hc : c ≠ 0x0a) (s t : Bytes) :
    ((s ++ 0x0a :: t).head? == some c) = (s.head? == some c) := by
  cases s with
  | nil => simpa using hc.symm
  | cons b rest => rfl

theorem numberParts_append_newline (s t : Bytes) :
    numberParts (s ++ 0x0a :: t) = numberParts s := by
  have hdigit : Bytes.isDigit 0x0a = false := by decide
  unfold numberParts
  rw [takeWhile_append_stop hdigit, dropWhile_append_stop hdigit]
  cases s.dropWhile Bytes.isDigit with
  | nil => rfl
  | cons b rest =>
      by_cases hb : b = 0x2e
      · subst hb
        simp only [List.cons_append]
        rw [takeWhile_append_stop hdigit]
      · simp [hb]

theorem takeWhile_append_of_ends {p : UInt8 → Bool} {s : Bytes} (h : s.dropWhile p ≠ [])
    (t : Bytes) :
    (s ++ t).takeWhile p = s.takeWhile p ∧ (s ++ t).dropWhile p ≠ [] := by
  induction s with
  | nil => simp at h
  | cons b rest ih =>
      by_cases hb : p b = true
      · simp only [List.dropWhile_cons, hb, if_true] at h
        simpa [hb] using ih h
      · simp [hb]

theorem front?_append_ascii (b : UInt8) {x : UInt8} (hx : x < 0x80) (s t : Bytes) :
    Utf8.front? (b :: s ++ x :: t) = Utf8.front? (b :: s) := by
  have hpayload := payload?_of_ascii hx
  match s with
  | [] => rcases t with _ | ⟨c, _ | ⟨d, t⟩⟩ <;> simp [Utf8.front?, hpayload]
  | [c] => rcases t with _ | ⟨d, t⟩ <;> simp [Utf8.front?, hpayload]
  | [c, d] => simp [Utf8.front?, hpayload]
  | c :: d :: e :: rest => simp [Utf8.front?]

/-- Only an unfinished string would go on after the end of the line. -/
theorem munch_append_newline {b : UInt8} {s : Bytes} (t : Bytes)
    (h : (munch b s).1 ≠ .fault .unterminatedString) :
    munch b (s ++ 0x0a :: t) = munch b s := by
  have hword : (s ++ 0x0a :: t).takeWhile isWordPart = s.takeWhile isWordPart :=
    takeWhile_append_stop (by decide) s t
  have hline : (s ++ 0x0a :: t).takeWhile (fun c => c != 0x0a) =
      s.takeWhile (fun c => c != 0x0a) :=
    takeWhile_append_stop (by decide) s t
  have hslash := head?_append_newline (c := 0x2f) (by decide) s t
  have hequal := head?_append_newline (c := 0x3d) (by decide) s t
  have hnumber : numberLength (b :: (s ++ 0x0a :: t)) = numberLength (b :: s) := by
    have hparts := numberParts_append_newline (b :: s) t
    unfold numberLength
    rw [← hparts]
    rfl
  have hfront : Utf8.front? (b :: (s ++ 0x0a :: t)) = Utf8.front? (b :: s) :=
    front?_append_ascii b (by decide) s t
  unfold munch at h ⊢
  rw [hword, hline, hslash, hequal, hnumber, hfront]
  by_cases hquote : b = 0x22
  · subst hquote
    by_cases hends : s.dropWhile (fun c => c != 0x22) = []
    · simp [hends, Bytes.isDigit, isWordStart, isBlank] at h
    · obtain ⟨htake, hdrop⟩ := takeWhile_append_of_ends hends (0x0a :: t)
      have hends' : ((s ++ 0x0a :: t).dropWhile (fun c => c != 0x22)).isEmpty =
          (s.dropWhile (fun c => c != 0x22)).isEmpty := by
        rw [List.isEmpty_eq_false_iff.mpr hends, List.isEmpty_eq_false_iff.mpr hdrop]
      rw [htake, hends']
  · simp only [hquote, if_false]

/-! ## Two sources -/

theorem segmentsFrom_append_newline (skip : Nat) (p : Position) (a b : Bytes)
    (hskip : skip ≤ a.length)
    (h : ∀ s ∈ segmentsFrom skip p a, s.shape ≠ .fault .unterminatedString) :
    segmentsFrom skip p (a ++ 0x0a :: b) =
      segmentsFrom skip p a ++ segmentsFrom 0 (p.advanceBy a) (0x0a :: b) := by
  induction a generalizing skip p with
  | nil =>
      obtain rfl : skip = 0 := by simpa using hskip
      rfl
  | cons c rest ih =>
      cases skip with
      | succ skip =>
          simp only [segmentsFrom] at h
          exact ih skip (p.advance c) (by simpa using hskip) h
      | zero =>
          simp only [segmentsFrom, List.mem_cons, forall_eq_or_imp] at h
          obtain ⟨hpos, hle⟩ := munch_length c rest
          have hmunch := munch_append_newline b h.1
          have htake : (c :: (rest ++ 0x0a :: b)).take (munch c rest).2 =
              (c :: rest).take (munch c rest).2 := by
            rw [← List.cons_append]
            exact List.take_append_of_le_length (by simpa using hle)
          have hrest := ih ((munch c rest).2 - 1) (p.advance c) (by omega) h.2
          simp only [List.cons_append, segmentsFrom, hmunch, htake, hrest, Position.advanceBy_cons]

theorem segments_append_newline {a : Bytes} (b : Bytes)
    (h : ∀ s ∈ segments a, s.shape ≠ .fault .unterminatedString) :
    segments (a ++ 0x0a :: b) =
      segments a ++ ⟨.blank, [0x0a], ⟨Position.first.advanceBy a,
        (Position.first.advanceBy a).advance 0x0a⟩⟩ ::
        segmentsFrom 0 ((Position.first.advanceBy a).advance 0x0a) b := by
  unfold segments
  rw [segmentsFrom_append_newline 0 .first a b (Nat.zero_le _) h]
  rfl

end Scan

theorem Position.advanceBy_eq (p : Position) (s : Bytes) :
    (p.advanceBy s).offset = p.offset + s.length ∧
      (p.advanceBy s).line = p.line + s.count 0x0a := by
  induction s generalizing p with
  | nil => simp [advanceBy]
  | cons b rest ih =>
      obtain ⟨hoffset, hline⟩ := ih (p.advance b)
      rw [advanceBy_cons, hoffset, hline]
      by_cases hb : b = 0x0a
      · subst hb
        simp only [advance, if_true, List.length_cons, List.count_cons_self]
        omega
      · simp only [advance, hb, if_false, List.length_cons, List.count_cons, beq_iff_eq]
        omega

theorem Position.advance_newline (a : Bytes) :
    (first.advanceBy a).advance 0x0a = first.shift (a.length + 1) (a.count 0x0a + 1) := by
  obtain ⟨hoffset, hline⟩ := first.advanceBy_eq a
  simp only [advance, if_true, hoffset, hline, shift]
  simp only [first, mk.injEq, and_true]
  omega

theorem Scan.endToken_append_newline (a b : Bytes) :
    endToken (a ++ 0x0a :: b) = (endToken b).shift (a.length + 1) (a.count 0x0a + 1) := by
  have hposition : Position.first.advanceBy (a ++ 0x0a :: b) =
      (Position.first.advanceBy b).shift (a.length + 1) (a.count 0x0a + 1) := by
    rw [Position.advanceBy_append, Position.advanceBy_cons, Position.advance_newline,
      Position.advanceBy_shift]
  simp only [endToken, hposition]
  rfl

theorem Scan.finished_of_code_ne {source : Bytes}
    (h : ∀ d ∈ (scan source).2, d.code ≠ Problem.code .unterminatedString) :
    ∀ s ∈ segments source, s.shape ≠ .fault .unterminatedString := by
  intro s hs hshape
  have hproblem : s.diagnostic? = some (.atSpan .unterminatedString s.span) := by
    simp only [Segment.diagnostic?, hshape]
  exact h _ (List.mem_filterMap.mpr ⟨s, hs, hproblem⟩) rfl

/--
Scanning is compositional at a newline: the tokens and problems of the second source
follow those of the first, at later positions.
-/
theorem scan_append_newline {a : Bytes} (b : Bytes)
    (h : ∀ s ∈ Scan.segments a, s.shape ≠ .fault .unterminatedString) :
    scan (a ++ 0x0a :: b) =
      ((scan a).1.dropLast ++ (scan b).1.map (.shift (a.length + 1) (a.count 0x0a + 1)),
        (scan a).2 ++ (scan b).2.map (.shift (a.length + 1) (a.count 0x0a + 1))) := by
  have hsegments := Scan.segments_append_newline b h
  rw [Position.advance_newline, Scan.segmentsFrom_shift] at hsegments
  have htokens : (Scan.Segment.token? ∘ Scan.Segment.shift (a.length + 1) (a.count 0x0a + 1)) =
      fun s => s.token?.map (Token.shift (a.length + 1) (a.count 0x0a + 1)) :=
    funext (Scan.Segment.token?_shift _ _)
  have hproblems :
      (Scan.Segment.diagnostic? ∘ Scan.Segment.shift (a.length + 1) (a.count 0x0a + 1)) =
        fun s => s.diagnostic?.map (Diagnostic.shift (a.length + 1) (a.count 0x0a + 1)) :=
    funext (Scan.Segment.diagnostic?_shift _ _)
  unfold scan
  simp only [hsegments, List.filterMap_append, List.filterMap_cons, List.filterMap_map,
    List.map_append, List.dropLast_concat, Scan.endToken_append_newline]
  rw [htokens, hproblems]
  simp [Scan.segments, List.map_filterMap, Scan.Segment.token?, Scan.Segment.diagnostic?]

end Lox
