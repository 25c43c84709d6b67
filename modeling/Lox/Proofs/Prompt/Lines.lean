import Lox.Command.Repl
import Lox.Proofs.Session.Transcript
import Lox.Proofs.Token.Braces
import Mathlib.Data.List.Infix

/-!
From lines to entries.

The prompt collects lines until the text since the last entry has no more opening than
closing braces, and then performs this text as one entry.  What it counts are the braces in
the text, and not the tokens: the two differ where strings and comments conceal more of the
one kind than of the other.
-/

namespace Lox.Command

theorem Output.nil_append (a : Output) : ({} : Output) ++ a = a := rfl

theorem Output.append_assoc (a b c : Output) : (a ++ b) ++ c = a ++ (b ++ c) := by
  change Output.mk _ _ = Output.mk _ _
  rw [Output.mk.injEq]
  exact ⟨List.append_assoc .., List.append_assoc ..⟩

namespace Repl

/-! ## Entries -/

def textOf (lines : List Bytes) : Bytes := lines.flatMap (· ++ utf8 "\n")

def Closed (text : Bytes) : Prop := text.count 0x7b ≤ text.count 0x7d

def ClosedTokens (text : Bytes) : Prop :=
  (scan text).1.countP (fun t => t.kind = .leftBrace) ≤
    (scan text).1.countP (fun t => t.kind = .rightBrace)

instance (text : Bytes) : Decidable (Closed text) := inferInstanceAs (Decidable (_ ≤ _))

instance (text : Bytes) : Decidable (ClosedTokens text) := inferInstanceAs (Decidable (_ ≤ _))

/-- Strings and comments conceal as many opening as closing braces. -/
def EvenlyConcealed (text : Bytes) : Prop := Scan.concealed 0x7b text = Scan.concealed 0x7d text

instance (text : Bytes) : Decidable (EvenlyConcealed text) := inferInstanceAs (Decidable (_ = _))

theorem closed_iff_closedTokens {text : Bytes} (h : EvenlyConcealed text) :
    Closed text ↔ ClosedTokens text := by
  unfold EvenlyConcealed at h
  unfold Closed ClosedTokens
  rw [Scan.IsBrace.left.count_eq, Scan.IsBrace.right.count_eq, h]
  omega

/-- After none of the lines the text of those so far has `P`. -/
def Held (P : Bytes → Prop) (lines : List Bytes) : Prop :=
  ∀ part, part <+: lines → part ≠ [] → ¬P (textOf part)

def IsEntry (P : Bytes → Prop) (lines : List Bytes) : Prop :=
  ∃ front last, lines = front ++ [last] ∧ Held P front ∧ P (textOf lines)

/--
The lines are cut into entries after exactly those lines at which the text since the last
entry has `P`.
-/
structure Cut (P : Bytes → Prop) (lines : List Bytes) (entries : List (List Bytes))
    (rest : List Bytes) : Prop where
  lines_eq : lines = entries.flatten ++ rest
  complete : ∀ entry ∈ entries, IsEntry P entry
  held : Held P rest

section

variable {P Q : Bytes → Prop} {lines : List Bytes}

theorem held_nil : Held P [] := by
  intro part hpart hne
  exact absurd (List.prefix_nil.mp hpart) hne

theorem held_concat {line : Bytes} :
    Held P (lines ++ [line]) ↔ Held P lines ∧ ¬P (textOf (lines ++ [line])) := by
  constructor
  · intro h
    refine ⟨fun part hpart => h part (hpart.trans (List.prefix_append _ _)), ?_⟩
    exact h _ (List.prefix_refl _) (by simp)
  · rintro ⟨hheld, hlast⟩ part hpart hne
    rcases List.prefix_concat_iff.mp hpart with rfl | hpart
    · exact hlast
    · exact hheld part hpart hne

theorem exists_cut_from {front : List Bytes} (hfront : Held P front) (lines : List Bytes) :
    ∃ entries rest, Cut P (front ++ lines) entries rest := by
  induction lines generalizing front with
  | nil => exact ⟨[], front, by simp, by simp, hfront⟩
  | cons line lines ih =>
      by_cases hline : P (textOf (front ++ [line]))
      · obtain ⟨entries, rest, hcut⟩ := ih held_nil
        refine ⟨(front ++ [line]) :: entries, rest, ?_, ?_, hcut.held⟩
        · have hlines : lines = entries.flatten ++ rest := hcut.lines_eq
          simp [hlines]
        · exact List.forall_mem_cons.mpr ⟨⟨front, line, rfl, hfront, hline⟩, hcut.complete⟩
      · have hcut := ih (held_concat.mpr ⟨hfront, hline⟩)
        rwa [List.append_assoc] at hcut

theorem IsEntry.ne_nil (h : IsEntry P lines) : lines ≠ [] := by
  obtain ⟨front, last, rfl, -⟩ := h
  simp

theorem IsEntry.ends (h : IsEntry P lines) : P (textOf lines) := by
  obtain ⟨front, last, -, -, hlast⟩ := h
  exact hlast

theorem Held.not_starts {entry : List Bytes} (h : Held P lines) (hentry : IsEntry P entry) :
    ¬entry <+: lines :=
  fun hpart => h entry hpart hentry.ne_nil hentry.ends

theorem IsEntry.eq_of_starts {entry : List Bytes} (h : IsEntry P lines) (hentry : IsEntry P entry)
    (hpart : entry <+: lines) : entry = lines := by
  obtain ⟨front, last, rfl, hheld, -⟩ := h
  rcases List.prefix_concat_iff.mp hpart with heq | hpart
  · exact heq
  · exact absurd hpart (hheld.not_starts hentry)

/-- Lines can be cut in one way only. -/
theorem Cut.unique {entries entries' : List (List Bytes)} {rest rest' : List Bytes}
    (h : Cut P lines entries rest) (h' : Cut P lines entries' rest') :
    entries = entries' ∧ rest = rest' := by
  obtain ⟨rfl, hcomplete, hheld⟩ := h
  obtain ⟨hlines, hcomplete', hheld'⟩ := h'
  induction entries generalizing entries' with
  | nil =>
      cases entries' with
      | nil => exact ⟨rfl, hlines⟩
      | cons entry' entries' =>
          have hpart : entry' <+: rest := ⟨entries'.flatten ++ rest', by simpa using hlines.symm⟩
          exact absurd hpart (hheld.not_starts (hcomplete' entry' List.mem_cons_self))
  | cons entry entries ih =>
      obtain ⟨hentry, hentries⟩ := List.forall_mem_cons.mp hcomplete
      cases entries' with
      | nil =>
          have hpart : entry <+: rest' := ⟨entries.flatten ++ rest, by simpa using hlines⟩
          exact absurd hpart (hheld'.not_starts hentry)
      | cons entry' entries' =>
          obtain ⟨hentry', hentries'⟩ := List.forall_mem_cons.mp hcomplete'
          rw [List.flatten_cons, List.flatten_cons, List.append_assoc, List.append_assoc] at hlines
          have hsame : entry = entry' := by
            rcases List.prefix_or_prefix_of_prefix (List.prefix_append entry _)
              (hlines ▸ List.prefix_append entry' _) with hpart | hpart
            · exact hentry'.eq_of_starts hentry hpart
            · exact (hentry.eq_of_starts hentry' hpart).symm
          subst hsame
          obtain ⟨rfl, hrest⟩ := ih hentries (List.append_cancel_left hlines) hentries'
          exact ⟨rfl, hrest⟩

theorem Cut.congr {entries : List (List Bytes)} {rest : List Bytes}
    (h : Cut P lines entries rest)
    (hPQ : ∀ entry ∈ entries ++ [rest], ∀ part, part <+: entry →
      (P (textOf part) ↔ Q (textOf part))) :
    Cut Q lines entries rest where
  lines_eq := h.lines_eq
  complete := by
    intro entry hentry
    have hiff := hPQ entry (List.mem_append_left _ hentry)
    obtain ⟨front, last, rfl, hheld, hlast⟩ := h.complete entry hentry
    refine ⟨front, last, rfl, ?_, (hiff _ (List.prefix_refl _)).mp hlast⟩
    intro part hpart hne
    rw [← hiff part (hpart.trans (List.prefix_append _ _))]
    exact hheld part hpart hne
  held := by
    intro part hpart hne
    rw [← hPQ rest (by simp) part hpart]
    exact h.held part hpart hne

end

/-! ## Reading lines -/

def IsCommand (line : Bytes) : Prop := line.trim = utf8 "exit" ∨ line.trim = utf8 ".globals"

instance (line : Bytes) : Decidable (IsCommand line) := inferInstanceAs (Decidable (_ ∨ _))

def perform (r : Repl) (text : Bytes) : Output × Repl :=
  if text.trim.isEmpty then ({}, r)
  else
    let (output, session) := submit r.colors r.session text
    (output, { r with session })

def performed (r : Repl) : List Bytes → Output
  | [] => {}
  | text :: rest => (r.perform text).1 ++ (r.perform text).2.performed rest

def holding (r : Repl) (lines : List Bytes) : Repl :=
  { r with
    pending := textOf lines
    unclosed := (textOf lines).count 0x7b - (textOf lines).count 0x7d }

def AtStart (r : Repl) : Prop := r.pending = [] ∧ r.unclosed = 0

theorem AtStart.holding_nil {r : Repl} (h : r.AtStart) : r.holding [] = r := by
  obtain ⟨hpending, hunclosed⟩ := h
  cases r
  simp_all [holding, textOf]

theorem AtStart.perform {r : Repl} (h : r.AtStart) (text : Bytes) : (r.perform text).2.AtStart := by
  unfold Repl.perform
  split
  · exact h
  · exact h

theorem textOf_concat (lines : List Bytes) (line : Bytes) :
    textOf (lines ++ [line]) = textOf lines ++ line ++ utf8 "\n" := by
  simp [textOf]

theorem step_line {r : Repl} {line : Bytes} (h : r.unclosed = 0 → ¬IsCommand line) :
    r.step (.line line) = ((r.collect line).1, some (r.collect line).2) := by
  unfold step
  dsimp only
  rw [if_neg fun hexit => h hexit.1 (.inl hexit.2), if_neg fun hlist => h hlist.1 (.inr hlist.2)]

section

variable {r : Repl} {front : List Bytes} {line : Bytes}

theorem not_command_of_held (hfront : Held Closed front)
    (hcommand : ∀ first ∈ (front ++ [line]).head?, ¬IsCommand first)
    (hunclosed : (r.holding front).unclosed = 0) : ¬IsCommand line := by
  cases front with
  | nil => exact hcommand line (by simp)
  | cons first rest =>
      have hopen := hfront _ (List.prefix_refl _) (by simp)
      simp only [holding, Closed] at hunclosed hopen
      omega

theorem count_textOf_concat (front : List Bytes) (line : Bytes) {c : UInt8} (hc : c ≠ 0x0a) :
    (textOf (front ++ [line])).count c = (textOf front).count c + line.count c := by
  have hnewline : (utf8 "\n").count c = 0 := by
    rw [show utf8 "\n" = [0x0a] by decide, List.count_singleton]
    simp [hc.symm]
  rw [textOf_concat, List.count_append, List.count_append, hnewline, Nat.add_zero]

theorem unclosed_holding_concat (hfront : Held Closed front) :
    (r.holding (front ++ [line])).unclosed =
      (r.holding front).unclosed + line.count 0x7b - line.count 0x7d := by
  have hle : (textOf front).count 0x7d ≤ (textOf front).count 0x7b := by
    by_cases hne : front = []
    · simp [hne, textOf]
    · have hopen := hfront front (List.prefix_refl _) hne
      unfold Closed at hopen
      omega
  have hopening := count_textOf_concat front line (c := 0x7b) (by decide)
  have hclosing := count_textOf_concat front line (c := 0x7d) (by decide)
  simp only [holding]
  omega

theorem collect_holding (h : r.AtStart) (hfront : Held Closed front) :
    (r.holding front).collect line =
      if 0 < (r.holding (front ++ [line])).unclosed then ({}, r.holding (front ++ [line]))
      else r.perform (textOf (front ++ [line])) := by
  obtain ⟨colors, prompt, session, pending, unclosed⟩ := r
  obtain ⟨rfl, rfl⟩ : pending = [] ∧ unclosed = 0 := h
  have hpending : textOf front ++ line ++ utf8 "\n" = textOf (front ++ [line]) :=
    (textOf_concat front line).symm
  unfold collect
  rw [← unclosed_holding_concat hfront]
  simp only [holding, hpending]
  rfl

theorem closed_iff_unclosed (lines : List Bytes) :
    Closed (textOf lines) ↔ ¬0 < (r.holding lines).unclosed := by
  simp only [Closed, holding]
  omega

/-- Lines that are held have no effect but to be remembered. -/
theorem converse_held (h : r.AtStart) (hfront : Held Closed front)
    (hcommand : ∀ line ∈ front.head?, ¬IsCommand line) (more : List Input) :
    r.converse (front.map .line ++ more) = (r.holding front).converse more := by
  induction front using List.reverseRecOn generalizing more with
  | nil => rw [h.holding_nil]; rfl
  | append_singleton front line ih =>
      obtain ⟨hheld, hopen⟩ := held_concat.mp hfront
      have hfirst : ∀ first ∈ front.head?, ¬IsCommand first := by
        intro first hfirst
        exact hcommand first (by simp_all)
      have hstep := step_line (not_command_of_held (r := r) hheld hcommand)
      rw [collect_holding h hheld, if_pos (not_not.mp (mt (closed_iff_unclosed _).mpr hopen))]
        at hstep
      rw [List.map_append, List.append_assoc, ih hheld hfirst]
      simp only [List.map_cons, List.map_nil, List.singleton_append, converse, hstep]
      rfl

theorem converse_entry (h : r.AtStart) {entry : List Bytes} (hentry : IsEntry Closed entry)
    (hcommand : ∀ line ∈ entry.head?, ¬IsCommand line) (more : List Input) :
    r.converse (entry.map .line ++ more) =
      (r.perform (textOf entry)).1 ++ (r.perform (textOf entry)).2.converse more := by
  obtain ⟨front, last, rfl, hheld, hclosed⟩ := hentry
  have hfirst : ∀ first ∈ front.head?, ¬IsCommand first := by
    intro first hfirst
    exact hcommand first (by simp_all)
  have hstep := step_line (not_command_of_held (r := r) hheld hcommand)
  rw [collect_holding h hheld, if_neg ((closed_iff_unclosed _).mp hclosed)] at hstep
  rw [List.map_append, List.append_assoc, converse_held h hheld hfirst]
  simp only [List.map_cons, List.map_nil, List.singleton_append, converse, hstep]

theorem converse_cut (h : r.AtStart) {lines : List Bytes} {entries : List (List Bytes)}
    {rest : List Bytes} (hcut : Cut Closed lines entries rest)
    (hcommand : ∀ entry ∈ entries ++ [rest], ∀ line ∈ entry.head?, ¬IsCommand line) :
    r.converse (lines.map .line) = r.performed (entries.map textOf) ++ farewell := by
  obtain ⟨rfl, hcomplete, hheld⟩ := hcut
  induction entries generalizing r with
  | nil =>
      have hread := converse_held h hheld (hcommand rest (by simp)) []
      rw [List.append_nil] at hread
      simpa [performed, Output.nil_append, converse] using hread
  | cons entry entries ih =>
      obtain ⟨hentry, hentries⟩ := List.forall_mem_cons.mp hcomplete
      obtain ⟨hfirst, hlater⟩ := List.forall_mem_cons.mp hcommand
      rw [List.flatten_cons, List.append_assoc, List.map_append,
        converse_entry h hentry hfirst, ih (h.perform _) hlater hentries]
      rw [List.map_cons, performed, Output.append_assoc]

end

/--
The entries of the lines that are typed outside of entries end after exactly those lines at
which the text since the last entry has no more opening than closing braces.  Unless one of
them begins with a command, they are performed one after the other, and nothing else is
written.  They are the entries that the tokens ask for if strings and comments conceal as many
opening as closing braces, as far as the entry is read.
-/
theorem entries_completed (r : Repl) (hr : r.AtStart) (lines : List Bytes) :
    ∃ entries rest, Cut Closed lines entries rest ∧
      ((∀ entry ∈ entries ++ [rest], ∀ line ∈ entry.head?, ¬IsCommand line) →
        r.converse (lines.map .line) = r.performed (entries.map textOf) ++ farewell) ∧
      ((∀ entry ∈ entries ++ [rest], ∀ part, part <+: entry → EvenlyConcealed (textOf part)) →
        Cut ClosedTokens lines entries rest) := by
  obtain ⟨entries, rest, hcut⟩ := exists_cut_from (P := Closed) held_nil lines
  refine ⟨entries, rest, hcut, converse_cut hr hcut, ?_⟩
  intro hconcealed
  apply Cut.congr hcut
  exact fun entry hentry part hpart =>
    closed_iff_closedTokens (hconcealed entry hentry part hpart)

/-- A block over three lines with braces in a string, and a statement after it. -/
theorem entries_completed_block :
    let r := start false [] (.fresh [] 0 [])
    let lines := [utf8 "if (true) \x7b", utf8 "print \"\x7b\x7d\";", utf8 "\x7d print 2;"]
    r.AtStart ∧ Cut Closed lines [lines] [] ∧ Cut ClosedTokens lines [lines] [] ∧
      r.converse (lines.map .line) = { out := utf8 "\x7b\x7d\n2\n\n" } := by
  intro r lines
  have hstart : r.AtStart := ⟨rfl, rfl⟩
  have hheld : Held Closed (lines.take 2) :=
    held_concat.mpr ⟨held_concat.mpr ⟨held_nil, by decide⟩, by decide⟩
  have hblock : Cut Closed lines [lines] [] := by
    refine ⟨rfl, List.forall_mem_singleton.mpr ?_, held_nil⟩
    exact ⟨lines.take 2, utf8 "\x7d print 2;", rfl, hheld, by decide⟩
  obtain ⟨entries, rest, hcut, hperformed, htokens⟩ := entries_completed r hstart lines
  obtain ⟨rfl, rfl⟩ := hcut.unique hblock
  refine ⟨hstart, hblock, htokens ?_, (hperformed ?_).trans (by decide +kernel)⟩
  · have hparts : ∀ part ∈ lines.inits, EvenlyConcealed (textOf part) := by decide +kernel
    intro entry hentry part hpart
    refine hparts part ((List.mem_inits part lines).mpr (hpart.trans ?_))
    rcases List.mem_pair.mp hentry with rfl | rfl
    · exact List.prefix_refl lines
    · exact List.nil_prefix
  · decide

/-- A brace in a string holds an entry back, and one in a comment completes it too early. -/
theorem concealed_braces_miscounted :
    let r := start false [] (.fresh [] 0 [])
    let quoted := utf8 "print \"\x7b\";"
    let commented := utf8 "\x7b // \x7d"
    (ClosedTokens (textOf [quoted]) ∧
      (r.perform (textOf [quoted])).1 = { out := utf8 "\x7b\n" } ∧
      r.converse [.line quoted] = farewell) ∧
    ¬ClosedTokens (textOf [commented]) ∧
      (r.converse [.line commented]).err = (r.perform (textOf [commented])).1.err ∧
      (r.perform (textOf [commented])).1.err ≠ [] := by
  decide +kernel

end Repl

end Lox.Command
