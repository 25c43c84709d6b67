import Lox.Editor.Server
import Lox.Proofs.Bindings
import Lox.Proofs.Editor.Outline
import Mathlib.Data.List.Induction

/-!
The documents of the language server.

A client opens, changes and closes documents in any order, also documents that it never
opened.  After all of this the server knows of each document the whole text that it was last
given, and what it answers about one document has nothing to do with the others.  The problems
of a text are published as they were found.
-/

namespace Lox.Editor

/-! ## Notices -/

inductive Numbered : Severity → Nat → Prop where
  | error : Numbered .error 1
  | warning : Numbered .warning 2

/-- The notice says what a diagnostic says, and shows it where it stands in the text. -/
structure Notice.Conveys (n : Notice) (d : Diagnostic) (text : Bytes) : Prop where
  range : text.length < Nat.pow 2 32 → n.range.Marks d.span
  severity : Numbered d.severity n.severity
  code : n.code = d.code
  message : n.message = d.message

theorem Notice.ofDiagnostic_conveys {d : Diagnostic} {text : Bytes}
    (h : d ∈ (check text).report.diagnostics) : (ofDiagnostic d).Conveys d text where
  range hshort := Range.ofSpan_marks hshort (standsIn_of_mem_check h)
  severity := by
    have herror : d.severity = .error := checkFrom_reported {} text d h
    simp only [ofDiagnostic, herror]
    exact .error
  code := rfl
  message := rfl

namespace Server

/-! ## Steps -/

inductive Step where
  | connect
  | connected
  | setTrace (value : Bytes)
  | shutdown
  | opened (uri text : Bytes)
  | changed (uri : Bytes) (changes : List Change)
  | closed (uri : Bytes)
  | symbols (uri : Bytes)
  deriving DecidableEq, Repr

structure Answer where
  result : Option Json := none
  symbols : Option (List Entry) := none
  published : Option Publication := none
  refusal : Option Bytes := none
  trace : Option Bytes := none

variable (protocol : Protocol)

def answer (s : Server) : Step → Answer × Server
  | .connect => ({ result := some (greeting protocol) }, s)
  | .connected => ({}, s)
  | .setTrace value =>
      ({ trace := some (s.setTrace protocol value).trace }, s.setTrace protocol value)
  | .shutdown => ({ trace := some (s.shutdown protocol).trace }, s.shutdown protocol)
  | .opened uri text => ({ published := some (s.put uri text).1 }, (s.put uri text).2)
  | .changed uri changes =>
      match s.change uri changes with
      | .ok (published, s) => ({ published }, s)
      | .error message => ({ refusal := some message }, s)
  | .closed uri => ({ published := some (s.close uri).1 }, (s.close uri).2)
  | .symbols uri => ({ symbols := s.symbols uri }, s)

def after (s : Server) (steps : List Step) : Server :=
  steps.foldl (fun s step => (s.answer protocol step).2) s

def transcript (s : Server) : List Step → List (Step × Answer)
  | [] => []
  | step :: rest =>
      (step, (s.answer protocol step).1) :: transcript (s.answer protocol step).2 rest

/-! ## The text of a document -/

/-- The step gives a text to a document: it opens it, or its last change carries the whole text. -/
inductive Step.Gives (uri : Bytes) : Step → Bytes → Prop where
  | opened {text : Bytes} : Gives uri (.opened uri text) text
  | changed {changes : List Change} {text : Bytes} : changes.getLast? = some (.whole text) →
      Gives uri (.changed uri changes) text

theorem Step.Gives.text_eq {uri text text' : Bytes} {step : Step} (h : step.Gives uri text)
    (h' : step.Gives uri text') : text = text' := by
  cases h with
  | opened => cases h' with | opened => rfl
  | changed hlast => cases h' with | changed hlast' => simpa [hlast] using hlast'

structure Step.Keeps (uri : Bytes) (step : Step) : Prop where
  silent : ∀ text, ¬step.Gives uri text
  opened : step ≠ .closed uri

/-- The text that the document was given last, and after which it was not closed. -/
def LastGiven (uri : Bytes) (steps : List Step) (text : Bytes) : Prop :=
  ∃ before step after, steps = before ++ step :: after ∧ step.Gives uri text ∧
    ∀ later ∈ after, later.Keeps uri

theorem lastGiven_concat {uri : Bytes} {steps : List Step} {step : Step} {text : Bytes} :
    LastGiven uri (steps ++ [step]) text ↔
      step.Gives uri text ∨ LastGiven uri steps text ∧ step.Keeps uri := by
  constructor
  · rintro ⟨before, given, later, hsteps, hgives, hlater⟩
    rcases List.eq_nil_or_concat later with rfl | ⟨later', last, rfl⟩
    · obtain ⟨-, hlast⟩ := List.append_inj' hsteps rfl
      obtain rfl := List.singleton_inj.mp hlast
      exact .inl hgives
    · rw [List.concat_eq_append, ← List.cons_append, ← List.append_assoc] at hsteps
      obtain ⟨rfl, hlast⟩ := List.append_inj' hsteps rfl
      obtain rfl := List.singleton_inj.mp hlast
      refine .inr ⟨⟨before, given, later', rfl, hgives, ?_⟩, hlater step (by simp)⟩
      exact fun x hx => hlater x (by simp [hx])
  · rintro (hgives | ⟨⟨before, given, later, rfl, hgives, hlater⟩, hkeeps⟩)
    · exact ⟨steps, step, [], rfl, hgives, by simp⟩
    · refine ⟨before, given, later ++ [step], by simp, hgives, ?_⟩
      intro x hx
      rcases List.mem_append.mp hx with hx | hx
      · exact hlater x hx
      · obtain rfl := List.mem_singleton.mp hx
        exact hkeeps

theorem get?_put (s : Server) (uri text other : Bytes) :
    (s.put uri text).2.documents.get? other =
      if uri = other then some text else s.documents.get? other :=
  Bindings.get?_set ..

theorem get?_close (s : Server) (uri other : Bytes) :
    (s.close uri).2.documents.get? other =
      if uri = other then none else s.documents.get? other :=
  Bindings.get?_erase ..

/-- No change, or one that does not end with the whole text. -/
def Refused (changes : List Change) : Prop :=
  changes = [] ∨ ∃ text, changes.getLast? = some (.part text)

theorem accepted_or_refused (changes : List Change) :
    (∃ text, changes.getLast? = some (.whole text)) ∨ Refused changes := by
  cases hlast : changes.getLast? with
  | none => exact .inr (.inl (List.getLast?_eq_none_iff.mp hlast))
  | some last =>
      cases last with
      | whole text => exact .inl ⟨text, rfl⟩
      | part text => exact .inr (.inr ⟨text, hlast⟩)

theorem Refused.not_gives {changes : List Change} (h : Refused changes) (uri other text : Bytes) :
    ¬(Step.changed other changes).Gives uri text := by
  rintro ⟨⟩
  rcases h with rfl | ⟨_, hpart⟩ <;> simp_all

theorem answer_changed_of_refused (s : Server) (uri : Bytes) {changes : List Change}
    (h : Refused changes) :
    (s.answer protocol (.changed uri changes)).2 = s ∧
      (s.answer protocol (.changed uri changes)).1.published = none := by
  rcases h with rfl | ⟨text, hlast⟩
  · exact ⟨rfl, rfl⟩
  · simp [answer, change, hlast]

theorem answer_of_gives (s : Server) {step : Step} {uri text : Bytes}
    (h : step.Gives uri text) :
    s.answer protocol step = ({ published := some (publish uri text) }, (s.put uri text).2) := by
  cases h with
  | opened => rfl
  | changed hlast => simp [answer, change, hlast, put]

theorem get?_answer (s : Server) (step : Step) (uri : Bytes) :
    (∃ text, step.Gives uri text ∧ (s.answer protocol step).2.documents.get? uri = some text) ∨
      step = .closed uri ∧ (s.answer protocol step).2.documents.get? uri = none ∨
      step.Keeps uri ∧ (s.answer protocol step).2.documents.get? uri = s.documents.get? uri := by
  cases step with
  | connect | connected | setTrace | shutdown | symbols =>
      exact .inr (.inr ⟨⟨nofun, nofun⟩, rfl⟩)
  | opened other text =>
      by_cases huri : other = uri
      · subst huri
        exact .inl ⟨text, .opened, by simp [answer, get?_put]⟩
      · refine .inr (.inr ⟨⟨?_, nofun⟩, by simp [answer, get?_put, huri]⟩)
        rintro _ ⟨⟩
        exact huri rfl
  | closed other =>
      by_cases huri : other = uri
      · subst huri
        exact .inr (.inl ⟨rfl, by simp [answer, get?_close]⟩)
      · refine .inr (.inr ⟨⟨nofun, by simpa using huri⟩, by simp [answer, get?_close, huri]⟩)
  | changed other changes =>
      rcases accepted_or_refused changes with ⟨text, hlast⟩ | hrefused
      · have hgives : (Step.changed other changes).Gives other text := .changed hlast
        rw [s.answer_of_gives protocol hgives, get?_put]
        by_cases huri : other = uri
        · subst huri
          exact .inl ⟨text, hgives, by simp⟩
        · refine .inr (.inr ⟨⟨?_, nofun⟩, by simp [huri]⟩)
          rintro _ ⟨⟩
          exact huri rfl
      · rw [(s.answer_changed_of_refused protocol other hrefused).1]
        exact .inr (.inr ⟨⟨hrefused.not_gives uri other, nofun⟩, rfl⟩)

@[simp] theorem after_concat (s : Server) (steps : List Step) (step : Step) :
    s.after protocol (steps ++ [step]) = ((s.after protocol steps).answer protocol step).2 := by
  simp [after]

/-- A new server knows exactly the text that a document was given last. -/
theorem get?_after (uri : Bytes) (steps : List Step) (text : Bytes) :
    (after protocol {} steps).documents.get? uri = some text ↔ LastGiven uri steps text := by
  induction steps using List.reverseRecOn with
  | nil => simp [after, LastGiven]
  | append_singleton steps step ih =>
      rw [after_concat, lastGiven_concat, ← ih]
      rcases get?_answer protocol (after protocol {} steps) step uri with
        ⟨given, hgives, hget⟩ | ⟨rfl, hget⟩ | ⟨hkeeps, hget⟩
      · rw [hget]
        constructor
        · rintro ⟨⟩
          exact .inl hgives
        · rintro (htext | ⟨-, hkeeps⟩)
          · rw [hgives.text_eq htext]
          · exact absurd hgives (hkeeps.silent given)
      · rw [hget]
        constructor
        · nofun
        · rintro (⟨⟨⟩⟩ | ⟨-, hkeeps⟩)
          exact absurd rfl hkeeps.opened
      · rw [hget]
        constructor
        · exact fun htext => .inr ⟨htext, hkeeps⟩
        · rintro (htext | ⟨htext, -⟩)
          · exact absurd htext (hkeeps.silent text)
          · exact htext

/-! ## One document among others -/

def Step.document? : Step → Option Bytes
  | .opened uri _ | .changed uri _ | .closed uri | .symbols uri => some uri
  | .connect | .connected | .setTrace _ | .shutdown => none

def Step.spares (uri : Bytes) (step : Step) : Bool := step.document?.all (· == uri)

theorem Step.spares_of_document? {uri : Bytes} {step : Step} (h : step.document? = some uri) :
    step.spares uri = true := by
  simp [spares, h]

theorem Step.Gives.document? {uri text : Bytes} {step : Step} (h : step.Gives uri text) :
    step.document? = some uri := by
  cases h <;> rfl

theorem answer_trace (s : Server) {step : Step} (h : step.document?.isSome = true) :
    (s.answer protocol step).2.trace = s.trace := by
  cases step with
  | connect | connected | setTrace | shutdown => cases h
  | opened | closed | symbols => rfl
  | changed uri changes =>
      rcases accepted_or_refused changes with ⟨text, hlast⟩ | hrefused
      · rw [s.answer_of_gives protocol (.changed hlast)]
        rfl
      · rw [(s.answer_changed_of_refused protocol uri hrefused).1]

structure Alike (uri : Bytes) (s t : Server) : Prop where
  text : s.documents.get? uri = t.documents.get? uri
  trace : s.trace = t.trace

namespace Alike

variable {uri : Bytes} {s t : Server} {step : Step}

theorem other (h : Alike uri s t) (hstep : step.spares uri = false) :
    Alike uri (s.answer protocol step).2 t where
  text := by
    rw [← h.text]
    rcases get?_answer protocol s step uri with ⟨text, hgives, -⟩ | ⟨rfl, -⟩ | ⟨-, hget⟩
    · rw [Step.spares_of_document? hgives.document?] at hstep
      cases hstep
    · rw [Step.spares_of_document? rfl] at hstep
      cases hstep
    · exact hget
  trace := by
    rw [← h.trace]
    apply answer_trace
    cases hdocument : step.document? with
    | none => simp [Step.spares, hdocument] at hstep
    | some document => rfl

theorem put (h : Alike uri s t) (text : Bytes) : Alike uri (s.put uri text).2 (t.put uri text).2 :=
  ⟨by simp [get?_put], h.trace⟩

theorem answer (h : Alike uri s t) (hstep : step.spares uri = true) :
    (s.answer protocol step).1 = (t.answer protocol step).1 ∧
      Alike uri (s.answer protocol step).2 (t.answer protocol step).2 := by
  cases step with
  | connect | connected => exact ⟨rfl, h⟩
  | setTrace | shutdown => exact ⟨rfl, h.text, rfl⟩
  | opened other text =>
      obtain rfl : other = uri := by simpa [Step.spares, Step.document?] using hstep
      exact ⟨rfl, h.put text⟩
  | changed other changes =>
      obtain rfl : other = uri := by simpa [Step.spares, Step.document?] using hstep
      rcases accepted_or_refused changes with ⟨text, hlast⟩ | rfl | ⟨text, hlast⟩
      · rw [s.answer_of_gives protocol (.changed hlast),
          t.answer_of_gives protocol (.changed hlast)]
        exact ⟨rfl, h.put text⟩
      · exact ⟨rfl, h⟩
      · simpa [Server.answer, change, hlast] using h
  | closed other =>
      obtain rfl : other = uri := by simpa [Step.spares, Step.document?] using hstep
      exact ⟨rfl, by simp [Server.answer, get?_close], h.trace⟩
  | symbols other =>
      obtain rfl : other = uri := by simpa [Step.spares, Step.document?] using hstep
      refine ⟨?_, h⟩
      simp [Server.answer, symbols, h.text]

end Alike

theorem transcript_filter {uri : Bytes} {s t : Server} (h : Alike uri s t) (steps : List Step) :
    transcript protocol t (steps.filter (Step.spares uri)) =
      (transcript protocol s steps).filter fun line => line.1.spares uri := by
  induction steps generalizing s t with
  | nil => rfl
  | cons step rest ih =>
      simp only [transcript, List.filter_cons]
      cases hstep : step.spares uri with
      | true =>
          obtain ⟨hanswer, hafter⟩ := h.answer protocol hstep
          simp [transcript, hanswer, ih hafter]
      | false => simpa using ih (h.other protocol hstep)

def listed (text : Bytes) : Option (List Entry) :=
  match outline (parse text).1 with
  | [] => none
  | entries => some entries

theorem symbols_eq (s : Server) (uri : Bytes) :
    s.symbols uri = (s.documents.get? uri).bind listed := rfl

/--
For every sequence of steps, what the server answers then: the symbols of a document are
those of the text that it was given last, and there are none if it was given no text since it
was closed; whatever gives a text to a document publishes the problems of this text, each with
its own severity, code, message and range; a refused change does nothing and publishes nothing.
The steps about other documents can be left out, and all other steps have the same answers.
-/
theorem last_text_tracked (steps : List Step) (uri : Bytes) :
    let s := after protocol {} steps
    ((∀ text, LastGiven uri steps text →
        (s.answer protocol (.symbols uri)).1.symbols = listed text) ∧
      ((∀ text, ¬LastGiven uri steps text) →
        (s.answer protocol (.symbols uri)).1.symbols = none)) ∧
    (∀ step text, step.Gives uri text →
      (s.answer protocol step).1.published =
        some ⟨uri, (check text).report.diagnostics.map Notice.ofDiagnostic⟩ ∧
      ∀ d ∈ (check text).report.diagnostics, (Notice.ofDiagnostic d).Conveys d text) ∧
    (∀ changes, Refused changes → (s.answer protocol (.changed uri changes)).2 = s ∧
      (s.answer protocol (.changed uri changes)).1.published = none) ∧
    transcript protocol {} (steps.filter (Step.spares uri)) =
      (transcript protocol {} steps).filter fun line => line.1.spares uri := by
  intro s
  refine ⟨⟨?_, ?_⟩, ?_, fun changes => s.answer_changed_of_refused protocol uri,
    transcript_filter protocol ⟨rfl, rfl⟩ steps⟩
  · intro text hlast
    have hget : s.documents.get? uri = some text :=
      (get?_after protocol uri steps text).mpr hlast
    simp [answer, symbols_eq, hget]
  · intro hnever
    have hget : s.documents.get? uri = none := by
      apply Option.eq_none_iff_forall_ne_some.mpr
      exact fun text => mt (get?_after protocol uri steps text).mp (hnever text)
    simp [answer, symbols_eq, hget]
  · intro step text hgives
    refine ⟨?_, fun d hd => Notice.ofDiagnostic_conveys hd⟩
    rw [s.answer_of_gives protocol hgives]
    rfl

def plainProtocol : Protocol where
  capabilities := [("documentSymbolProvider", .bool true)]
  traceAfter value := if value = utf8 "messages" then utf8 "message" else value

/-- A document that is changed without having been opened, beside one that is closed. -/
def mixedSteps : List Step :=
  [.opened (utf8 "b") (utf8 "var x;"),
    .changed (utf8 "a") [.part [], .whole (utf8 "fun f() \x7b\x7d")], .closed (utf8 "b"),
    .changed (utf8 "a") [.whole (utf8 "var y;"), .part []], .shutdown]

/-- What is published last is the problem on the second line of a text. -/
theorem last_text_tracked_mixed :
    let s := after plainProtocol {} mixedSteps
    LastGiven (utf8 "a") mixedSteps (utf8 "fun f() \x7b\x7d") ∧
      (s.answer plainProtocol (.symbols (utf8 "a"))).1.symbols =
        listed (utf8 "fun f() \x7b\x7d") ∧
      (listed (utf8 "fun f() \x7b\x7d")).isSome = true ∧
      (s.answer plainProtocol (.symbols (utf8 "b"))).1.symbols = none ∧
      (s.answer plainProtocol (.opened (utf8 "b") (utf8 "\nvar = 1;"))).1.published =
        some ⟨utf8 "b", [⟨⟨⟨1, 4⟩, ⟨1, 5⟩⟩, 1, utf8 "E2002", utf8 "Expect variable name."⟩]⟩ := by
  have hgiven : LastGiven (utf8 "a") mixedSteps (utf8 "fun f() \x7b\x7d") :=
    (get?_after plainProtocol _ _ _).mp (by decide +kernel)
  have hclosed : ∀ text, ¬LastGiven (utf8 "b") mixedSteps text := by
    have hget : (after plainProtocol {} mixedSteps).documents.get? (utf8 "b") = none := by
      decide +kernel
    intro text hgiven
    rw [(get?_after plainProtocol _ _ _).mpr hgiven] at hget
    cases hget
  obtain ⟨⟨hsymbols, -⟩, -⟩ := last_text_tracked plainProtocol mixedSteps (utf8 "a")
  obtain ⟨⟨-, hnone⟩, hpublished, -⟩ := last_text_tracked plainProtocol mixedSteps (utf8 "b")
  refine ⟨hgiven, hsymbols _ hgiven, by decide +kernel, hnone hclosed, ?_⟩
  refine (hpublished _ _ .opened).1.trans ?_
  decide +kernel

end Server

end Lox.Editor
