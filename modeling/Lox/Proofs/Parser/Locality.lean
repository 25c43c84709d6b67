import Lox.Proofs.Parser.Lists

/-!
What a parser has not seen does not matter.

The same tokens are read twice: once before the end, once before further tokens.  A
reading without problems that stops short of the end, or takes whole statements, is the
same in both.  More fuel on the second side changes nothing.
-/

namespace Lox.Parser

/-- Two ways to go on: with the end, or with tokens of which the first is not `else`. -/
structure Ending where
  stop : Token
  eof : stop.kind = .eof
  first : Token
  notElse : first.kind ≠ .elseKw
  others : List Token
  last : Token

instance : Inhabited Ending :=
  ⟨{ stop := {}, eof := rfl, first := {}, notElse := by decide, others := [], last := {} }⟩

namespace Ending

variable (E : Ending) (previous : Option Token) (t : Token) (xs : List Token)

def short : Cursor := { previous, rest := xs ++ [E.stop], last := E.stop }

def long : Cursor := { previous, rest := xs ++ E.first :: E.others, last := E.last }

@[simp] theorem short_reported : (E.short previous xs).reported = [] := rfl

@[simp] theorem short_peek_nil : (E.short previous []).peek = E.stop := rfl

@[simp] theorem short_kind_nil : (E.short previous []).kind = .eof := E.eof

@[simp] theorem short_peek : (E.short previous (t :: xs)).peek = t := rfl

@[simp] theorem short_kind : (E.short previous (t :: xs)).kind = t.kind := rfl

@[simp] theorem long_peek : (E.long previous (t :: xs)).peek = t := rfl

@[simp] theorem long_kind : (E.long previous (t :: xs)).kind = t.kind := rfl

@[simp] theorem long_kind_nil : (E.long previous []).kind = E.first.kind := rfl

@[simp] theorem short_advance_nil : (E.short previous []).advance = E.short previous [] := by
  simp [short, Cursor.advance, E.eof]

theorem short_advance (h : t.kind ≠ .eof) :
    (E.short previous (t :: xs)).advance = E.short (some t) xs := by
  simp [short, Cursor.advance, h]

theorem long_advance (h : t.kind ≠ .eof) :
    (E.long previous (t :: xs)).advance = E.long (some t) xs := by
  simp [long, Cursor.advance, h]

theorem short_advance_eof (h : t.kind = .eof) :
    (E.short previous (t :: xs)).advance = E.short previous (t :: xs) := by
  simp [short, Cursor.advance, h]

theorem long_advance_eof (h : t.kind = .eof) :
    (E.long previous (t :: xs)).advance = E.long previous (t :: xs) := by
  simp [long, Cursor.advance, h]

end Ending

/-! ## Readings without problems -/

structure Honest (p : Parse α) : Prop where
  logs : ∀ c, c.reported ≠ [] → (p c).2.reported ≠ []
  fails : ∀ c, (p c).1 = .failed → (p c).2.reported ≠ []

/-- The second parser reads as the first does, unless the first comes to the end. -/
structure Local (E : Ending) (p q : Parse α) : Prop extends Honest p where
  reads : ∀ previous xs v c, p (E.short previous xs) = (.ok v, c) → c.reported = [] →
    ∃ previous' ys, c = E.short previous' ys ∧ ys <:+ xs ∧
      (ys ≠ [] → q (E.long previous xs) = (.ok v, E.long previous' ys))

/-- The second parser reads as the first does, which takes a token at least. -/
structure Whole (E : Ending) (p q : Parse α) : Prop extends Honest p where
  reads : ∀ previous xs v c, p (E.short previous xs) = (.ok v, c) → c.reported = [] →
    ∃ t ys, c = E.short (some t) ys ∧ ys <:+ xs ∧ ys ≠ xs ∧
      q (E.long previous xs) = (.ok v, E.long (some t) ys)

structure Pass (E : Ending) (p q : Parse α) : Prop extends Honest p where
  reads : ∀ (t : Token) xs v c, p (E.short (some t) xs) = (.ok v, c) → c.reported = [] →
    ∃ t' ys, c = E.short (some t') ys ∧ ys <:+ xs ∧
      q (E.long (some t) xs) = (.ok v, E.long (some t') ys)

section Rules

variable {E : Ending} {α β : Type} {p q : Parse α} {f g : α → Parse β}

theorem Whole.local (h : Whole E p q) : Local E p q where
  toHonest := h.toHonest
  reads := by
    intro previous xs v c hrun hclean
    obtain ⟨t, ys, hc, hys, -, hq⟩ := h.reads previous xs v c hrun hclean
    exact ⟨some t, ys, hc, hys, fun _ => hq⟩

theorem Whole.pass (h : Whole E p q) : Pass E p q where
  toHonest := h.toHonest
  reads := by
    intro t xs v c hrun hclean
    obtain ⟨t', ys, hc, hys, -, hq⟩ := h.reads (some t) xs v c hrun hclean
    exact ⟨t', ys, hc, hys, hq⟩

theorem bind_eq_ok {w : β} {c c₂ : Cursor} (h : (p >>= f) c = (.ok w, c₂)) :
    ∃ v c₁, p c = (.ok v, c₁) ∧ f v c₁ = (.ok w, c₂) := by
  change Parse.bind p f c = _ at h
  unfold Parse.bind at h
  rcases hp : p c with ⟨reply, c₁⟩
  rw [hp] at h
  cases reply with
  | ok v => exact ⟨v, c₁, rfl, h⟩
  | failed | outOfFuel => cases h

theorem bind_of_ok {v : α} {c c₁ : Cursor} (h : p c = (.ok v, c₁)) : (p >>= f) c = f v c₁ := by
  change Parse.bind p f c = _
  simp [Parse.bind, h]

theorem bind_congr {p' : Parse α} {c c' : Cursor} (h : p c = p' c') :
    (p >>= f) c = (p' >>= f) c' := by
  change Parse.bind p f c = Parse.bind p' f c'
  simp [Parse.bind, h]

theorem bind_assoc {γ : Type} (g : β → Parse γ) (c : Cursor) :
    ((p >>= f) >>= g) c = (p >>= fun v => f v >>= g) c := by
  change Parse.bind (Parse.bind p f) g c = Parse.bind p (fun v => Parse.bind (f v) g) c
  unfold Parse.bind
  rcases p c with ⟨reply, c'⟩
  cases reply <;> rfl

theorem map_map {γ : Type} (h : α → β) (k : β → γ) (c : Cursor) :
    ((p >>= fun v => pure (h v)) >>= fun w => pure (k w)) c =
      (p >>= fun v => pure (k (h v))) c := by
  change Parse.bind (Parse.bind p fun v => Parse.pure (h v)) (fun w => Parse.pure (k w)) c =
    Parse.bind p (fun v => Parse.pure (k (h v))) c
  simp only [Parse.bind, Parse.pure]
  rcases p c with ⟨reply, c'⟩
  cases reply <;> rfl

theorem map_id (c : Cursor) : (p >>= fun v => pure v) c = p c := by
  change Parse.bind p (fun v => Parse.pure v) c = p c
  simp only [Parse.bind, Parse.pure]
  rcases p c with ⟨reply, c'⟩
  cases reply <;> rfl

namespace Honest

theorem clean {c : Cursor} (h : Honest p) (hclean : (p c).2.reported = []) : c.reported = [] :=
  Classical.byContradiction fun hc => h.logs c hc hclean

theorem bind (hp : Honest p) (hf : ∀ v, Honest (f v)) : Honest (p >>= f) := by
  have hrun : ∀ c, (p >>= f) c = Parse.bind p f c := fun _ => rfl
  refine ⟨fun c hc => ?_, fun c hfailed => ?_⟩
  · have hlogs := hp.logs c hc
    rw [hrun, Parse.bind]
    rcases hpc : p c with ⟨reply, c'⟩
    rw [hpc] at hlogs
    cases reply with
    | ok v => exact (hf v).logs c' hlogs
    | failed | outOfFuel => exact hlogs
  · have hfails := hp.fails c
    rw [hrun, Parse.bind] at hfailed ⊢
    rcases hpc : p c with ⟨reply, c'⟩
    rw [hpc] at hfails hfailed
    cases reply with
    | ok v => exact (hf v).fails c' hfailed
    | failed => exact hfails rfl
    | outOfFuel => cases hfailed

end Honest

theorem Local.bind (hp : Local E p q) (hf : ∀ v, Local E (f v) (g v)) :
    Local E (p >>= f) (q >>= g) where
  toHonest := hp.toHonest.bind fun v => (hf v).toHonest
  reads := by
    intro previous xs w c₂ hrun hclean
    obtain ⟨v, c₁, hp₁, hf₁⟩ := bind_eq_ok hrun
    have hclean₁ : c₁.reported = [] := (hf v).toHonest.clean (by rw [hf₁]; exact hclean)
    obtain ⟨previous₁, ys, rfl, hys, hq⟩ := hp.reads previous xs v c₁ hp₁ hclean₁
    obtain ⟨previous₂, zs, rfl, hzs, hg⟩ := (hf v).reads previous₁ ys w c₂ hf₁ hclean
    refine ⟨previous₂, zs, rfl, hzs.trans hys, fun hne => ?_⟩
    have hne' : ys ≠ [] := by
      rintro rfl
      exact hne (List.suffix_nil.mp hzs)
    rw [bind_of_ok (hq hne')]
    exact hg hne

theorem Local.bindWhole (hp : Local E p q) (hf : ∀ v, Whole E (f v) (g v)) :
    Whole E (p >>= f) (q >>= g) where
  toHonest := hp.toHonest.bind fun v => (hf v).toHonest
  reads := by
    intro previous xs w c₂ hrun hclean
    obtain ⟨v, c₁, hp₁, hf₁⟩ := bind_eq_ok hrun
    have hclean₁ : c₁.reported = [] := (hf v).toHonest.clean (by rw [hf₁]; exact hclean)
    obtain ⟨previous₁, ys, rfl, hys, hq⟩ := hp.reads previous xs v c₁ hp₁ hclean₁
    obtain ⟨t, zs, rfl, hzs, hne, hg⟩ := (hf v).reads previous₁ ys w c₂ hf₁ hclean
    have hlt : zs.length < ys.length := by
      rcases Nat.lt_or_ge zs.length ys.length with hlt | hge
      · exact hlt
      · exact absurd (hzs.eq_of_length_le hge) hne
    have hle := hys.length_le
    refine ⟨t, zs, rfl, hzs.trans hys, fun heq => ?_, ?_⟩
    · rw [heq] at hlt
      omega
    · have hne' : ys ≠ [] := by
        rintro rfl
        simp at hlt
      rw [bind_of_ok (hq hne')]
      exact hg

theorem Whole.bindPass (hp : Whole E p q) (hf : ∀ v, Pass E (f v) (g v)) :
    Whole E (p >>= f) (q >>= g) where
  toHonest := hp.toHonest.bind fun v => (hf v).toHonest
  reads := by
    intro previous xs w c₂ hrun hclean
    obtain ⟨v, c₁, hp₁, hf₁⟩ := bind_eq_ok hrun
    have hclean₁ : c₁.reported = [] := (hf v).toHonest.clean (by rw [hf₁]; exact hclean)
    obtain ⟨t, ys, rfl, hys, hne, hq⟩ := hp.reads previous xs v c₁ hp₁ hclean₁
    obtain ⟨t', zs, rfl, hzs, hg⟩ := (hf v).reads t ys w c₂ hf₁ hclean
    refine ⟨t', zs, rfl, hzs.trans hys, fun heq => ?_, ?_⟩
    · rw [heq] at hzs
      exact hne (hys.eq_of_length_le hzs.length_le)
    · rw [bind_of_ok hq]
      exact hg

theorem Pass.bind (hp : Pass E p q) (hf : ∀ v, Pass E (f v) (g v)) :
    Pass E (p >>= f) (q >>= g) where
  toHonest := hp.toHonest.bind fun v => (hf v).toHonest
  reads := by
    intro t xs w c₂ hrun hclean
    obtain ⟨v, c₁, hp₁, hf₁⟩ := bind_eq_ok hrun
    have hclean₁ : c₁.reported = [] := (hf v).toHonest.clean (by rw [hf₁]; exact hclean)
    obtain ⟨t₁, ys, rfl, hys, hq⟩ := hp.reads t xs v c₁ hp₁ hclean₁
    obtain ⟨t₂, zs, rfl, hzs, hg⟩ := (hf v).reads t₁ ys w c₂ hf₁ hclean
    refine ⟨t₂, zs, rfl, hzs.trans hys, ?_⟩
    rw [bind_of_ok hq]
    exact hg

/-! ### Choices and images -/

theorem Local.map {h : α → β} (hp : Local E p q) : Local E (h <$> p) (h <$> q) where
  toHonest := hp.toHonest.bind fun v => ⟨fun _ hc => hc, fun _ hc => by cases hc⟩
  reads := by
    intro previous xs w c hrun hclean
    obtain ⟨v, c₁, hp₁, ⟨⟩⟩ := bind_eq_ok (f := fun v => Pure.pure (h v)) hrun
    obtain ⟨previous', ys, rfl, hys, hq⟩ := hp.reads previous xs v c hp₁ hclean
    refine ⟨previous', ys, rfl, hys, fun hne => ?_⟩
    exact bind_of_ok (f := fun v => Pure.pure (h v)) (hq hne)

theorem Local.ite {b : Prop} [Decidable b] {p' q' : Parse α} (hp : b → Local E p q)
    (hq : ¬b → Local E p' q') : Local E (if b then p else p') (if b then q else q') := by
  by_cases h : b
  · simpa [h] using hp h
  · simpa [h] using hq h

theorem Whole.map {h : α → β} (hp : Whole E p q) : Whole E (h <$> p) (h <$> q) where
  toHonest := hp.local.map.toHonest
  reads := by
    intro previous xs w c hrun hclean
    obtain ⟨v, c₁, hp₁, ⟨⟩⟩ := bind_eq_ok (f := fun v => Pure.pure (h v)) hrun
    obtain ⟨t, ys, rfl, hys, hne, hq⟩ := hp.reads previous xs v c hp₁ hclean
    exact ⟨t, ys, rfl, hys, hne, bind_of_ok (f := fun v => Pure.pure (h v)) hq⟩

theorem Whole.ite {b : Prop} [Decidable b] {p' q' : Parse α} (hp : b → Whole E p q)
    (hq : ¬b → Whole E p' q') : Whole E (if b then p else p') (if b then q else q') := by
  by_cases h : b
  · simpa [h] using hp h
  · simpa [h] using hq h

theorem Whole.iteBind {b : Prop} [Decidable b] {p' q' : Parse α} (hp : Local E p q)
    (hq : Local E p' q') (hf : ∀ v, Whole E (f v) (g v)) :
    Whole E (if b then p >>= f else p' >>= f) (if b then q >>= g else q' >>= g) :=
  .ite (fun _ => hp.bindWhole hf) fun _ => hq.bindWhole hf

end Rules

/-! ## Steps -/

section Steps

variable {E : Ending} {α β : Type}

theorem Honest.of_same {p : Parse α} (h : ∀ c, (p c).2.reported = c.reported)
    (hfailed : ∀ c, (p c).1 ≠ .failed) : Honest p where
  logs := fun c hc => by rwa [h c]
  fails := fun c hc => absurd hc (hfailed c)

@[simp] theorem Cursor.advance_reported (c : Cursor) : c.advance.reported = c.reported := by
  unfold Cursor.advance
  split
  · rfl
  · split <;> rfl

theorem Local.pure (v : α) : Local E (Pure.pure v) (Pure.pure v) where
  toHonest := .of_same (fun _ => rfl) fun _ h => by cases h
  reads := by
    rintro previous xs v c ⟨⟩ -
    exact ⟨previous, xs, rfl, List.suffix_refl xs, fun _ => rfl⟩

theorem Pass.pure (v : α) : Pass E (Pure.pure v) (Pure.pure v) where
  toHonest := (Local.pure (E := E) v).toHonest
  reads := by
    rintro t xs v c ⟨⟩ -
    exact ⟨t, xs, rfl, List.suffix_refl xs, rfl⟩

theorem Pass.previousEnd : Pass E previousEnd previousEnd where
  toHonest := .of_same (fun _ => rfl) fun _ h => by cases h
  reads := by
    rintro t xs v c ⟨⟩ -
    exact ⟨t, xs, rfl, List.suffix_refl xs, rfl⟩

theorem Local.view {f : Cursor → α} (h : ∀ (previous : Option Token) (t : Token)
    (rest : List Token), f (E.long previous (t :: rest)) = f (E.short previous (t :: rest))) :
    Local E (fun c => (.ok (f c), c)) fun c => (.ok (f c), c) where
  toHonest := .of_same (fun _ => rfl) fun _ h => by cases h
  reads := by
    rintro previous xs v c ⟨⟩ -
    refine ⟨previous, xs, rfl, List.suffix_refl xs, fun hne => ?_⟩
    obtain ⟨t, rest, rfl⟩ := List.exists_cons_of_ne_nil hne
    rw [h]

theorem Local.before : Local E before before := .view fun _ _ _ => rfl

theorem Local.peek : Local E peek peek := .view fun _ _ _ => rfl

theorem Local.at? (kind : Kind) : Local E (at? kind) (at? kind) := .view fun _ _ _ => rfl

theorem Local.next : Local E next next where
  toHonest := .of_same (fun c => c.advance_reported) fun _ h => by cases h
  reads := by
    rintro previous xs v c ⟨⟩ -
    cases xs with
    | nil => exact ⟨previous, [], by simp, List.suffix_refl [], fun hne => absurd rfl hne⟩
    | cons t xs =>
        by_cases ht : t.kind = .eof
        · rw [E.short_advance_eof previous t xs ht]
          refine ⟨previous, t :: xs, rfl, List.suffix_refl _, fun _ => ?_⟩
          simp [Parser.next, E.long_advance_eof previous t xs ht]
        · rw [E.short_advance previous t xs ht]
          refine ⟨some t, xs, rfl, List.suffix_cons t xs, fun _ => ?_⟩
          simp [Parser.next, E.long_advance previous t xs ht]

theorem Honest.accept (kind : Kind) : Honest (accept kind) where
  logs := by
    intro c hc
    unfold Parser.accept
    split
    · simpa using hc
    · exact hc
  fails := by
    intro c hc
    unfold Parser.accept at hc
    split at hc <;> cases hc

theorem Local.accept {kind : Kind} (hkind : kind ≠ .eof) :
    Local E (accept kind) (accept kind) where
  toHonest := .accept kind
  reads := by
    intro previous xs v c hrun _
    cases xs with
    | nil =>
        simp only [Parser.accept, E.short_kind_nil, hkind.symm, if_false] at hrun
        cases hrun
        exact ⟨previous, [], rfl, List.suffix_refl [], fun hne => absurd rfl hne⟩
    | cons t xs =>
        by_cases ht : t.kind = kind
        · have heof : t.kind ≠ .eof := ht ▸ hkind
          simp only [Parser.accept, E.short_kind, ht, if_true, E.short_advance _ _ _ heof] at hrun
          cases hrun
          refine ⟨some t, xs, rfl, List.suffix_cons t xs, fun _ => ?_⟩
          simp [Parser.accept, ht, E.long_advance _ _ _ heof]
        · simp only [Parser.accept, E.short_kind, ht, if_false] at hrun
          cases hrun
          refine ⟨previous, t :: xs, rfl, List.suffix_refl _, fun _ => ?_⟩
          simp [Parser.accept, ht]

theorem Whole.expect {kind : Kind} (hkind : kind ≠ .eof) (message : String) :
    Whole E (expect kind message) (expect kind message) where
  logs := by
    intro c hc
    unfold Parser.expect
    split
    · simpa using hc
    · simp [Cursor.report]
  fails := by
    intro c hc
    unfold Parser.expect at hc ⊢
    split
    · simp_all
    · simp [Cursor.report]
  reads := by
    intro previous xs v c hrun _
    cases xs with
    | nil => simp [Parser.expect, hkind.symm] at hrun
    | cons t xs =>
        by_cases ht : t.kind = kind
        · have heof : t.kind ≠ .eof := ht ▸ hkind
          simp only [Parser.expect, E.short_kind, ht, if_true, E.short_advance _ _ _ heof] at hrun
          cases hrun
          refine ⟨t, xs, rfl, List.suffix_cons t xs, by simp, ?_⟩
          simp [Parser.expect, ht, E.long_advance _ _ _ heof]
        · simp [Parser.expect, ht] at hrun

theorem Local.report (problem : Problem) (t : Token) {q : Parse Unit} :
    Local E (report problem t) q where
  logs := fun c _ => by simp [Parser.report, Cursor.report]
  fails := fun c h => by cases h
  reads := by
    rintro previous xs v c ⟨⟩ hclean
    simp [Cursor.report] at hclean

theorem Local.fail (problem : Problem) (t : Token) {q : Parse α} :
    Local E (fail problem t) q where
  logs := fun c _ => by simp [Parser.fail, Cursor.report]
  fails := fun c _ => by simp [Parser.fail, Cursor.report]
  reads := by
    rintro previous xs v c ⟨⟩

theorem Local.outOfFuel {q : Parse α} : Local E Parser.outOfFuel q where
  toHonest := .of_same (fun _ => rfl) fun _ h => by cases h
  reads := by
    rintro previous xs v c ⟨⟩

theorem Whole.outOfFuel {q : Parse α} : Whole E Parser.outOfFuel q where
  toHonest := (Local.outOfFuel (E := E) (q := q)).toHonest
  reads := by
    rintro previous xs v c ⟨⟩

theorem Whole.accept {kind : Kind} (hkind : kind ≠ .eof) {f g : Bool → Parse β}
    (hthen : Pass E (f true) (g true)) (helse : Whole E (f false) (g false)) :
    Whole E (Parser.accept kind >>= f) (Parser.accept kind >>= g) where
  toHonest := (Honest.accept kind).bind fun b => by
    cases b
    · exact helse.toHonest
    · exact hthen.toHonest
  reads := by
    intro previous xs w c hrun hclean
    obtain ⟨b, c₁, haccept, hrest⟩ := bind_eq_ok hrun
    have hclean₁ : c₁.reported = [] := by
      cases b
      · exact helse.toHonest.clean (by rw [hrest]; exact hclean)
      · exact hthen.toHonest.clean (by rw [hrest]; exact hclean)
    cases b with
    | true =>
        cases xs with
        | nil => simp [Parser.accept, hkind.symm] at haccept
        | cons t xs =>
            by_cases ht : t.kind = kind
            · have heof : t.kind ≠ .eof := ht ▸ hkind
              simp only [Parser.accept, E.short_kind, ht, if_true,
                E.short_advance _ _ _ heof] at haccept
              cases haccept
              obtain ⟨t', ys, rfl, hys, hg⟩ := hthen.reads t xs w c hrest hclean
              refine ⟨t', ys, rfl, hys.trans (List.suffix_cons t xs), fun heq => ?_, ?_⟩
              · have hle := hys.length_le
                rw [heq, List.length_cons] at hle
                omega
              · have hlong : Parser.accept kind (E.long previous (t :: xs)) =
                    (.ok true, E.long (some t) xs) := by
                  simp [Parser.accept, ht, E.long_advance _ _ _ heof]
                rw [bind_of_ok hlong]
                exact hg
            · simp [Parser.accept, ht] at haccept
    | false =>
        have hsame : c₁ = E.short previous xs := by
          unfold Parser.accept at haccept
          split at haccept <;> cases haccept
          rfl
        subst hsame
        obtain ⟨t', ys, rfl, hys, hne, hg⟩ := helse.reads previous xs w c hrest hclean
        refine ⟨t', ys, rfl, hys, hne, ?_⟩
        cases xs with
        | nil => exact absurd (List.suffix_nil.mp hys) hne
        | cons t xs =>
            have ht : t.kind ≠ kind := by
              intro ht
              simp [Parser.accept, ht] at haccept
            have hlong : Parser.accept kind (E.long previous (t :: xs)) =
                (.ok false, E.long previous (t :: xs)) := by
              simp [Parser.accept, ht]
            rw [bind_of_ok hlong]
            exact hg

theorem Pass.acceptElse : Pass E (Parser.accept .elseKw) (Parser.accept .elseKw) where
  toHonest := .accept _
  reads := by
    intro t xs v c hrun hclean
    cases xs with
    | nil =>
        simp [Parser.accept] at hrun
        obtain ⟨rfl, rfl⟩ := hrun
        refine ⟨t, [], rfl, List.suffix_refl [], ?_⟩
        simp [Parser.accept, E.notElse]
    | cons u xs =>
        by_cases hu : u.kind = .elseKw
        · have heof : u.kind ≠ .eof := by simp [hu]
          simp only [Parser.accept, E.short_kind, hu, if_true, E.short_advance _ _ _ heof] at hrun
          cases hrun
          refine ⟨u, xs, rfl, List.suffix_cons u xs, ?_⟩
          simp [Parser.accept, hu, E.long_advance _ _ _ heof]
        · simp only [Parser.accept, E.short_kind, hu, if_false] at hrun
          cases hrun
          refine ⟨t, u :: xs, rfl, List.suffix_refl _, ?_⟩
          simp [Parser.accept, hu]

theorem Whole.recovering {p q : Parse Stmt} (h : Whole E p q) :
    Whole E (Parser.recovering p) (Parser.recovering q) where
  logs := by
    intro c hc
    have hlogs := h.logs c hc
    unfold Parser.recovering
    rcases hp : p c with ⟨reply, c'⟩
    rw [hp] at hlogs
    cases reply <;> simpa [synchronize] using hlogs
  fails := by
    intro c hfailed
    unfold Parser.recovering at hfailed
    split at hfailed <;> cases hfailed
  reads := by
    intro previous xs v c hrun hclean
    unfold Parser.recovering at hrun
    rcases hp : p (E.short previous xs) with ⟨reply, c'⟩
    have hfails := h.fails (E.short previous xs)
    rw [hp] at hrun hfails
    cases reply with
    | ok s =>
        cases hrun
        obtain ⟨t, ys, rfl, hys, hne, hq⟩ := h.reads previous xs s c hp hclean
        exact ⟨t, ys, rfl, hys, hne, by simp [Parser.recovering, hq]⟩
    | failed =>
        cases hrun
        exact absurd (by simpa [synchronize] using hclean) (hfails rfl)
    | outOfFuel => cases hrun

theorem Local.counted {problem : Problem} {count : Nat} {items others : Parse (List α)}
    (h : Local E items others) :
    Local E (counted problem count items) (counted problem count others) := by
  unfold Parser.counted
  refine .ite (fun _ => ?_) fun _ => h
  exact Local.peek.bind fun _ => (Local.report _ _).bind fun _ => h

theorem Local.separated {item item' : Parse α} {more more' : Parse (List α)}
    (hitem : Local E item item') (hmore : Local E more more') :
    Local E (separated item more) (separated item' more') := by
  unfold Parser.separated
  refine hitem.bind fun first => (Local.accept (by decide)).bind fun _ => ?_
  exact .ite (fun _ => hmore.bind fun rest => .pure _) fun _ => .pure _

end Steps

/-! ## Expressions -/

section Functions

variable {E : Ending}

mutual

theorem expression_local {n m : Nat} (h : n ≤ m) : Local E (expression n) (expression m) := by
  match n, m, h with
  | 0, _, _ => exact .outOfFuel
  | n + 1, m + 1, h =>
      have h : n ≤ m := by omega
      unfold expression
      refine (operation_local h 0).bind fun left => ?_
      refine (Local.accept (by decide)).bind fun found => .ite (fun _ => ?_) fun _ => .pure _
      refine Local.before.bind fun equals => (expression_local h).bind fun value => ?_
      cases left with
      | var | get => exact .pure _
      | _ => exact (Local.report _ _).bind fun _ => .pure _

theorem operation_local {n m : Nat} (h : n ≤ m) (power : Nat) :
    Local E (operation n power) (operation m power) := by
  match n, m, h with
  | 0, _, _ => exact .outOfFuel
  | n + 1, m + 1, h =>
      have h : n ≤ m := by omega
      unfold operation
      exact (operand_local h).bind fun left => operations_local h power left

theorem operations_local {n m : Nat} (h : n ≤ m) (power : Nat) (left : Expr) :
    Local E (operations n power left) (operations m power left) := by
  match n, m, h with
  | 0, _, _ => exact .outOfFuel
  | n + 1, m + 1, h =>
      have h : n ≤ m := by omega
      unfold operations
      refine Local.peek.bind fun t => .ite (fun _ => ?_) fun _ => .pure _
      exact (operator_local h left).bind fun left' => operations_local h power left'

theorem operand_local {n m : Nat} (h : n ≤ m) : Local E (operand n) (operand m) := by
  match n, m, h with
  | 0, _, _ => exact .outOfFuel
  | n + 1, m + 1, h =>
      have h : n ≤ m := by omega
      unfold operand
      refine Local.peek.bind fun t => ?_
      generalize t.kind = kind
      cases kind with
      | falseKw | trueKw | nilKw | number | string | thisKw | identifier =>
          exact Local.next.bind fun _ => .pure _
      | superKw =>
          refine Local.next.bind fun _ => (Whole.expect (by decide) _).local.bind fun _ => ?_
          exact (Whole.expect (by decide) _).local.bind fun _ => .pure _
      | leftParen =>
          refine Local.next.bind fun _ => (expression_local h).bind fun _ => ?_
          exact (Whole.expect (by decide) _).local.bind fun _ => .pure _
      | bang | minus =>
          exact Local.next.bind fun _ => (operation_local h unaryPower).bind fun _ => .pure _
      | _ => exact .fail _ _

theorem operator_local {n m : Nat} (h : n ≤ m) (left : Expr) :
    Local E (operator n left) (operator m left) := by
  match n, m, h with
  | 0, _, _ => exact .outOfFuel
  | n + 1, m + 1, h =>
      have h : n ≤ m := by omega
      unfold operator
      refine Local.next.bind fun t => ?_
      generalize t.kind = kind
      cases kind with
      | leftParen =>
          refine (Local.at? _).bind fun _ => ?_
          have close (arguments : List Expr) : Whole E (do
              let paren ← expect .rightParen "Expect ')' after arguments."
              return Expr.call ⟨left.span.start, paren.span.stop⟩ left paren arguments)
              (do
                let paren ← expect .rightParen "Expect ')' after arguments."
                return Expr.call ⟨left.span.start, paren.span.stop⟩ left paren arguments) :=
            (Whole.expect (by decide) _).bindPass fun _ => .pure _
          exact (Whole.iteBind (.pure _) (arguments_local h 0) close).local
      | dot => exact (Whole.expect (by decide) _).local.bind fun _ => .pure _
      | _ => exact (operation_local h _).bind fun _ => .pure _

theorem arguments_local {n m : Nat} (h : n ≤ m) (count : Nat) :
    Local E (arguments n count) (arguments m count) := by
  match n, m, h with
  | 0, _, _ => exact .outOfFuel
  | n + 1, m + 1, h =>
      have h : n ≤ m := by omega
      rw [arguments_succ, arguments_succ]
      exact .counted (.separated (expression_local h) (arguments_local h (count + 1)))

end

/-! ## Statements -/

theorem parameters_local {n m : Nat} (h : n ≤ m) (count : Nat) :
    Local E (parameters n count) (parameters m count) := by
  induction n generalizing m count with
  | zero => exact .outOfFuel
  | succ n ih =>
      obtain ⟨m, rfl⟩ : ∃ k, m = k + 1 := ⟨m - 1, by omega⟩
      have h : n ≤ m := by omega
      rw [parameters_succ, parameters_succ]
      exact .counted (.separated (Whole.expect (by decide) _).local (ih h (count + 1)))

theorem closing_whole {α : Type} (message : String) (f : Position → α) :
    Whole E (do
      let _ ← expect .semicolon message
      return f (← previousEnd)) (do
      let _ ← expect .semicolon message
      return f (← previousEnd)) :=
  (Whole.expect (by decide) _).bindPass fun _ => Pass.previousEnd.bind fun _ => .pure _

section

variable {n m : Nat} (h : n ≤ m)

include h

theorem variableDeclaration_whole :
    Whole E (variableDeclaration n) (variableDeclaration m) := by
  unfold variableDeclaration
  refine Local.before.bindWhole fun keyword => ?_
  refine (Whole.expect (by decide) _).local.bindWhole fun name => ?_
  refine (Local.accept (by decide)).bindWhole fun found => ?_
  exact .iteBind (expression_local h).map (.pure _) fun initial => closing_whole _ _

theorem expressionStatement_whole :
    Whole E (expressionStatement n) (expressionStatement m) := by
  unfold expressionStatement
  exact (expression_local h).bindWhole fun e => closing_whole _ _

theorem forInitial_whole : Whole E (forInitial n) (forInitial m) := by
  unfold forInitial
  refine .accept (by decide) (.pure _) ?_
  apply Whole.accept (by decide)
  · exact (variableDeclaration_whole h).pass.bind fun _ => .pure _
  · exact (expressionStatement_whole h).bindPass fun _ => .pure _

end

mutual

theorem declarations_local {n m : Nat} (h : n ≤ m) :
    Local E (declarations n true) (declarations m true) := by
  match n, m, h with
  | 0, _, _ => exact .outOfFuel
  | n + 1, m + 1, h =>
      have h : n ≤ m := by omega
      unfold declarations
      refine (Local.at? _).bind fun _ => (Local.at? _).bind fun _ => ?_
      refine .ite (fun _ => .pure _) fun _ => ?_
      refine (declaration_whole h).recovering.local.bind fun first => ?_
      exact (declarations_local h).bind fun _ => .pure _

theorem block_whole {n m : Nat} (h : n ≤ m) : Whole E (block n) (block m) := by
  match n, m, h with
  | 0, _, _ => exact .outOfFuel
  | n + 1, m + 1, h =>
      have h : n ≤ m := by omega
      unfold block
      refine (declarations_local h).bindWhole fun body => ?_
      exact (Whole.expect (by decide) _).bindPass fun _ => .pure _

theorem declaration_whole {n m : Nat} (h : n ≤ m) :
    Whole E (declaration n) (declaration m) := by
  match n, m, h with
  | 0, _, _ => exact .outOfFuel
  | n + 1, m + 1, h =>
      have h : n ≤ m := by omega
      unfold declaration
      refine .accept (by decide) (classDeclaration_whole h).pass ?_
      apply Whole.accept (by decide)
      · refine (Local.before.bindWhole fun keyword => ?_).pass
        exact (function_whole h _ _).bindPass fun _ => .pure _
      · exact .accept (by decide) (variableDeclaration_whole h).pass (statement_whole h)

theorem classDeclaration_whole {n m : Nat} (h : n ≤ m) :
    Whole E (classDeclaration n) (classDeclaration m) := by
  match n, m, h with
  | 0, _, _ => exact .outOfFuel
  | n + 1, m + 1, h =>
      have h : n ≤ m := by omega
      unfold classDeclaration
      refine Local.before.bindWhole fun keyword => ?_
      refine (Whole.expect (by decide) _).local.bindWhole fun name => ?_
      refine (Local.accept (by decide)).bindWhole fun found => ?_
      have rest (parent : Option Reference) : Whole E (do
          let _ ← expect .leftBrace "Expect '\x7b' before class body."
          let methods ← methods n
          let _ ← expect .rightBrace "Expect '\x7d' after class body."
          return Stmt.classDecl ⟨keyword.span.start, ← previousEnd⟩ name parent methods) (do
          let _ ← expect .leftBrace "Expect '\x7b' before class body."
          let methods ← methods m
          let _ ← expect .rightBrace "Expect '\x7d' after class body."
          return Stmt.classDecl ⟨keyword.span.start, ← previousEnd⟩ name parent methods) := by
        refine (Whole.expect (by decide) _).local.bindWhole fun _ => ?_
        refine (methods_local h).bindWhole fun methods => ?_
        refine (Whole.expect (by decide) _).bindPass fun _ => ?_
        exact Pass.previousEnd.bind fun _ => .pure _
      refine .ite (fun _ => ?_) fun _ => (Local.pure _).bindWhole rest
      exact (Whole.expect (by decide) _).local.bindWhole fun _ => (Local.pure _).bindWhole rest

theorem methods_local {n m : Nat} (h : n ≤ m) : Local E (methods n) (methods m) := by
  match n, m, h with
  | 0, _, _ => exact .outOfFuel
  | n + 1, m + 1, h =>
      have h : n ≤ m := by omega
      unfold methods
      refine (Local.at? _).bind fun _ => (Local.at? _).bind fun _ => ?_
      refine .ite (fun _ => .pure _) fun _ => ?_
      refine Local.peek.bind fun t => (function_whole h _ _).local.bind fun first => ?_
      exact (methods_local h).bind fun _ => .pure _

theorem function_whole {n m : Nat} (h : n ≤ m) (role : String) (start : Position) :
    Whole E (function n role start) (function m role start) := by
  match n, m, h with
  | 0, _, _ => exact .outOfFuel
  | n + 1, m + 1, h =>
      have h : n ≤ m := by omega
      unfold function
      refine (Whole.expect (by decide) _).local.bindWhole fun name => ?_
      refine (Whole.expect (by decide) _).local.bindWhole fun _ => ?_
      refine (Local.at? _).bindWhole fun _ => ?_
      refine .iteBind (.pure _) (parameters_local h 0) fun ps => ?_
      refine (Whole.expect (by decide) _).local.bindWhole fun _ => ?_
      refine (Whole.expect (by decide) _).local.bindWhole fun _ => ?_
      exact (block_whole h).bindPass fun _ => Pass.previousEnd.bind fun _ => .pure _

theorem statement_whole {n m : Nat} (h : n ≤ m) : Whole E (statement n) (statement m) := by
  match n, m, h with
  | 0, _, _ => exact .outOfFuel
  | n + 1, m + 1, h =>
      have h : n ≤ m := by omega
      unfold statement
      refine .accept (by decide) (forStatement_whole h).pass ?_
      refine .accept (by decide) (ifStatement_whole h).pass ?_
      apply Whole.accept (by decide)
      · refine (Local.before.bindWhole fun keyword => ?_).pass
        exact (expression_local h).bindWhole fun e => closing_whole _ _
      apply Whole.accept (by decide)
      · refine (Local.before.bindWhole fun keyword => (Local.at? _).bindWhole fun _ => ?_).pass
        exact .iteBind (.pure _) (expression_local h).map fun value => closing_whole _ _
      apply Whole.accept (by decide)
      · refine (Local.before.bindWhole fun keyword => ?_).pass
        refine (Whole.expect (by decide) _).local.bindWhole fun _ => ?_
        refine (expression_local h).bindWhole fun condition => ?_
        refine (Whole.expect (by decide) _).local.bindWhole fun _ => ?_
        refine (statement_whole h).bindPass fun body => ?_
        exact Pass.previousEnd.bind fun _ => .pure _
      refine .accept (by decide) ?_ (expressionStatement_whole h)
      refine (Local.before.bindWhole fun brace => ?_).pass
      exact (block_whole h).bindPass fun _ => Pass.previousEnd.bind fun _ => .pure _

theorem forStatement_whole {n m : Nat} (h : n ≤ m) :
    Whole E (forStatement n) (forStatement m) := by
  match n, m, h with
  | 0, _, _ => exact .outOfFuel
  | n + 1, m + 1, h =>
      have h : n ≤ m := by omega
      unfold forStatement
      refine Local.before.bindWhole fun keyword => ?_
      refine (Whole.expect (by decide) _).local.bindWhole fun _ => ?_
      refine (forInitial_whole h).local.bindWhole fun initial => (Local.at? _).bindWhole fun _ => ?_
      refine .iteBind (.pure _) (expression_local h).map fun condition => ?_
      refine (Whole.expect (by decide) _).local.bindWhole fun _ => (Local.at? _).bindWhole fun _ => ?_
      refine .iteBind (.pure _) (expression_local h).map fun increment => ?_
      refine (Whole.expect (by decide) _).local.bindWhole fun _ => ?_
      exact (statement_whole h).bindPass fun _ => Pass.previousEnd.bind fun _ => .pure _

theorem ifStatement_whole {n m : Nat} (h : n ≤ m) :
    Whole E (ifStatement n) (ifStatement m) := by
  match n, m, h with
  | 0, _, _ => exact .outOfFuel
  | n + 1, m + 1, h =>
      have h : n ≤ m := by omega
      unfold ifStatement
      refine Local.before.bindWhole fun keyword => ?_
      refine (Whole.expect (by decide) _).local.bindWhole fun _ => ?_
      refine (expression_local h).bindWhole fun condition => ?_
      refine (Whole.expect (by decide) _).local.bindWhole fun _ => ?_
      refine (statement_whole h).bindPass fun onTrue => ?_
      refine Pass.acceptElse.bind fun found => ?_
      have finish (onFalse : Option Stmt) : Pass E (do
          return Stmt.branch ⟨keyword.span.start, ← previousEnd⟩ condition onTrue onFalse)
          (do return Stmt.branch ⟨keyword.span.start, ← previousEnd⟩ condition onTrue onFalse) :=
        Pass.previousEnd.bind fun _ => .pure _
      cases found with
      | true => exact (statement_whole h).map.pass.bind finish
      | false => exact (Pass.pure _).bind finish

end

/-! ## Programs -/

theorem declaration_honest (n : Nat) : Honest (declaration n) :=
  (declaration_whole (E := default) (Nat.le_refl n)).toHonest

theorem declarations_honest (n : Nat) (inBlock : Bool) : Honest (declarations n inBlock) := by
  have quiet {α : Type} {p : Parse α} (h : Local default p p) : Honest p := h.toHonest
  induction n with
  | zero => exact quiet .outOfFuel
  | succ n ih =>
      unfold declarations
      refine (quiet (.at? _)).bind fun _ => (quiet (.at? _)).bind fun _ => ?_
      split
      · exact quiet (.pure _)
      · refine (quiet (declaration_whole (Nat.le_refl n)).recovering.local).bind fun _ => ?_
        exact ih.bind fun _ => quiet (.pure _)

theorem declarations_succ (n : Nat) {c : Cursor} (hkind : c.kind ≠ .eof) :
    declarations (n + 1) false c =
      (recovering (declaration n) >>= fun first =>
        declarations n false >>= fun rest => pure (first.toList ++ rest)) c := by
  have hend : at? .eof c = (.ok false, c) := by simp [at?, hkind]
  have hbrace : at? .rightBrace c = (.ok (decide (c.kind = .rightBrace)), c) := rfl
  rw [declarations, bind_of_ok hend, bind_of_ok hbrace]
  rfl

theorem declarations_end (n : Nat) {c : Cursor} (hkind : c.kind = .eof) :
    declarations (n + 1) false c = (.ok [], c) := by
  have hend : at? .eof c = (.ok true, c) := by simp [at?, hkind]
  have hbrace : at? .rightBrace c = (.ok false, c) := by simp [at?, hkind]
  rw [declarations, bind_of_ok hend, bind_of_ok hbrace]
  rfl

/--
A program read without problems up to the end is read before other tokens as well, and
reading goes on with them.  Every declaration took one unit of fuel and a token.
-/
theorem declarations_reads (n : Nat) {previous : Option Token} {xs : List Token}
    {body : List Stmt} {c : Cursor} (hxs : ∀ t ∈ xs, t.kind ≠ .eof)
    (hrun : declarations n false (E.short previous xs) = (.ok body, c))
    (hclean : c.reported = []) :
    ∃ k previous', k ≤ xs.length ∧ c = E.short previous' [] ∧ ∀ m, n ≤ m + k →
      declarations (m + k) false (E.long previous xs) =
        (declarations m false >>= fun rest => pure (body ++ rest)) (E.long previous' []) := by
  induction n generalizing previous xs body with
  | zero => cases hrun
  | succ n ih =>
      cases xs with
      | nil =>
          rw [declarations_end n (E.short_kind_nil previous)] at hrun
          cases hrun
          exact ⟨0, previous, Nat.le_refl 0, rfl, fun m _ => (map_id _).symm⟩
      | cons t xs =>
          have ht : t.kind ≠ .eof := hxs t (by simp)
          rw [declarations_succ n (by simpa using ht)] at hrun
          obtain ⟨first, c₁, hfirst, hrest⟩ := bind_eq_ok hrun
          obtain ⟨rest, c₂, hrest, ⟨⟩⟩ := bind_eq_ok hrest
          have hclean₁ : c₁.reported = [] :=
            (declarations_honest n false).clean (by rw [hrest]; exact hclean)
          have hread {m : Nat} (h : n ≤ m) := (declaration_whole (E := E) h).recovering.reads
            previous (t :: xs) first c₁ hfirst hclean₁
          obtain ⟨u, ys, rfl, hys, hne, -⟩ := hread (Nat.le_refl n)
          obtain ⟨k, previous', hk, rfl, hlong⟩ :=
            ih (fun v hv => hxs v (hys.subset hv)) hrest
          have hlt : ys.length < (t :: xs).length := by
            rcases Nat.lt_or_ge ys.length (t :: xs).length with hlt | hge
            · exact hlt
            · exact absurd (hys.eq_of_length_le hge) hne
          refine ⟨k + 1, previous', by omega, rfl, fun m hm => ?_⟩
          obtain ⟨u', ys', hsame, -, -, hfirst'⟩ := hread (m := m + k) (by omega)
          obtain ⟨rfl, rfl⟩ : u = u' ∧ ys = ys' := by
            simpa [Ending.short] using hsame
          rw [← Nat.add_assoc, declarations_succ (m + k) (by simpa using ht),
            bind_of_ok hfirst', bind_congr (hlong m (by omega)), map_map]
          simp only [List.append_assoc]

end Functions

end Lox.Parser
