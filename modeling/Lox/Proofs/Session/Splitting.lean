import Lox.Proofs.Layout.Resolving
import Lox.Proofs.Layout.Running
import Lox.Proofs.Parser.Composition
import Lox.Proofs.Session.Transcript
import Lox.Proofs.Token.Composition

/-!
Two entries of a session run as one source.

With a newline between them, two sources without problems are scanned, read and resolved
one after the other.  The second comes out at later places, and places have no influence
on what a program does.
-/

namespace Lox

/-! ## Reading both -/

theorem parse_clean_iff (source : Bytes) :
    (parse source).2.diagnostics = [] ↔
      (scan source).2 = [] ∧ (Parser.program (scan source).1).2 = [] :=
  List.append_eq_nil_iff

theorem parse_append_newline {a b : Bytes} (ha : (parse a).2.diagnostics = [])
    (hb : (parse b).2.diagnostics = []) :
    (parse (a ++ 0x0a :: b)).2.diagnostics = [] ∧
      ∃ later, (parse (a ++ 0x0a :: b)).1 = (parse a).1 ++ later ∧
        Stmt.relabelList .unplace later = Stmt.relabelList .unplace (parse b).1 := by
  obtain ⟨hscan₁, hprogram₁⟩ := (parse_clean_iff a).mp ha
  obtain ⟨hscan₂, hprogram₂⟩ := (parse_clean_iff b).mp hb
  have hclosed : ∀ d ∈ (scan a).2, d.code ≠ Problem.code .unterminatedString := by simp [hscan₁]
  have hscan := scan_append_newline b (Scan.finished_of_code_ne hclosed)
  generalize hmove : Token.shift (a.length + 1) (a.count 0x0a + 1) = move at hscan
  have hunplace : ∀ t, (move t).unplace = t.unplace := fun t => by rw [← hmove]; rfl
  have hkind : ∀ t, (move t).kind = t.kind := fun t => by rw [← hmove]; rfl
  obtain ⟨xs, hxs, hxs_eof⟩ := scan_tokens a
  obtain ⟨ys, hys, hys_eof⟩ := scan_tokens b
  have hnonempty : (scan b).1.map move ≠ [] := by simp [hys]
  have hsame : ((scan b).1.map move).map Token.unplace = (scan b).1.map Token.unplace := by
    simp [Function.comp_def, hunplace]
  obtain ⟨hlater, hproblems⟩ := Parser.program_of_unplace_eq hnonempty hsame
  rw [hprogram₂] at hproblems
  have hclean : (Parser.program ((scan b).1.map move)).2 = [] := List.map_eq_nil_iff.mp hproblems
  have hwhole : Parser.program (scan (a ++ 0x0a :: b)).1 =
      ((Parser.program (scan a).1).1 ++ (Parser.program ((scan b).1.map move)).1, []) := by
    rw [hscan, hxs, hys, List.dropLast_concat]
    rw [hxs] at hprogram₁
    rw [hys] at hclean
    simp only [List.map_append, List.map_cons, List.map_nil] at hclean ⊢
    refine Parser.program_append rfl (hkind _) hxs_eof ?_ hprogram₁ hclean
    intro t ht
    obtain ⟨u, hu, rfl⟩ := List.mem_map.mp ht
    rw [hkind]
    exact hys_eof u hu
  refine ⟨(parse_clean_iff _).mpr ⟨?_, congrArg Prod.snd hwhole⟩, _,
    congrArg Prod.fst hwhole, hlater⟩
  simp [hscan, hscan₁, hscan₂]

/-! ## Resolving both -/

/-- The second source is checked as it is on its own, but for the places. -/
theorem check_append_newline {a b : Bytes} (ha : (check a).report.diagnostics = [])
    (hb : (check b).report.diagnostics = []) :
    (check (a ++ 0x0a :: b)).report.diagnostics = [] ∧
      ∃ later, (check (a ++ 0x0a :: b)).program = (check a).program ++ later ∧
        Stmt.relabelList .unplace later = Stmt.relabelList .unplace (check b).program := by
  obtain ⟨hparse₁, hresolve₁⟩ := (check_clean_iff a).mp ha
  obtain ⟨hparse₂, hresolve₂⟩ := (check_clean_iff b).mp hb
  obtain ⟨hparse, later, hprogram, hlater⟩ := parse_append_newline hparse₁ hparse₂
  obtain ⟨hresolved, hproblems⟩ := Resolution.resolve_append (parse a).1 later
  obtain ⟨hsame, hnone, -⟩ := Resolution.resolve_of_unplace_eq hlater
  rw [hresolve₂] at hnone
  rw [← hprogram] at hresolved hproblems
  rw [hresolve₁, List.map_eq_nil_iff.mp hnone] at hproblems
  have hclean := (check_clean_iff (a ++ 0x0a :: b)).mpr ⟨hparse, hproblems⟩
  refine ⟨hclean, (Resolution.resolve later).program, ?_, ?_⟩
  · rw [check_program hclean, check_program ha, hresolved]
  · rw [check_program hb, hsame]

/-! ## Running both -/

namespace Machine

theorem execProgram_append (n : Nat) (first second : List Stmt) {m m' : Machine}
    (h : execProgram n first m = .done () m') :
    execProgram n (first ++ second) m = execProgram n second m' := by
  induction first generalizing m with
  | nil =>
      cases h
      rfl
  | cons s rest ih =>
      change Run.bind (exec n s) (fun _ => execProgram n rest) m = _ at h
      change Run.bind (exec n s) (fun _ => execProgram n (rest ++ second)) m = _
      unfold Run.bind at h ⊢
      cases hs : exec n s m with
      | done _ m₁ =>
          rw [hs] at h
          exact ih h
      | fault cause m₁ =>
          rw [hs] at h
          cases h

/-- What a program does after another, and what it does at other places with its output apart. -/
theorem execProgram_in_parts {n : Nat} {first second later : List Stmt} {m m' : Machine}
    (hfirst : execProgram n first m = .done () m')
    (hlater : Stmt.relabelList .unplace later = Stmt.relabelList .unplace second) :
    let once := execProgram n (first ++ later) m
    let rest := execProgram n second { m' with printed := [] }
    once.machine.output = m'.output ++ rest.machine.output ∧
      once.machine.globals = rest.machine.globals ∧
      once.failure?.map RuntimeError.message = rest.failure?.map RuntimeError.message := by
  have hstart : m'.unplace [] = ({ m' with printed := [] } : Machine).unplace m'.printed := by
    simp [unplace]
  have honce := execProgram_unplaced n later [] m'
  have hrest := execProgram_unplaced n second m'.printed { m' with printed := [] }
  rw [hlater, hstart, hrest] at honce
  dsimp only
  rw [execProgram_append n first later hfirst]
  exact Outcome.of_unplace_eq honce.symm

end Machine

namespace Session

theorem answer_of_clean {s : Session} (h : s.resolution.AtTop) {source : Bytes}
    (hclean : (check source).report.diagnostics = []) :
    let out := Machine.interpret (check source).program s.machine
    (s.answer (.run source)).1 =
        { printed := out.machine.output, report := { failure := out.failure? } } ∧
      (s.answer (.run source)).2.machine = { out.machine with printed := [] } ∧
      (s.answer (.run source)).2.globals = out.machine.globals := by
  obtain ⟨hprogram, hreport⟩ := checkFrom_eq_check h source
  have hfailure : (check source).report.failure = none := checkFrom_failure {} source
  have hempty : (check source).report = {} := by
    cases hr : (check source).report
    simp_all
  unfold answer run
  simp only [hprogram, hreport, hempty]
  cases Machine.interpret (check source).program s.machine <;> exact ⟨rfl, rfl, rfl⟩

/--
Two entries without problems, of which the first ends without an error, print together
what one source with both prints, and leave the same names and the same outcome.
-/
theorem entries_run_as_one (natives : List Native) (limit : Nat) (clock : List Int) (a b : Bytes)
    (ha : (check a).report.diagnostics = []) (hb : (check b).report.diagnostics = [])
    (hfirst : ((fresh natives limit clock).answer (.run a)).1.report.failure = none) :
    let whole := a ++ utf8 "\n" ++ b
    let first := (fresh natives limit clock).answer (.run a)
    let second := first.2.answer (.run b)
    let once := (fresh natives limit clock).answer (.run whole)
    (check whole).report.diagnostics = [] ∧
      first.1.printed ++ second.1.printed = once.1.printed ∧
      second.2.globals = once.2.globals ∧
      second.1.report.exitCode = once.1.report.exitCode ∧
      second.1.report.failure.map RuntimeError.message =
        once.1.report.failure.map RuntimeError.message := by
  have hnewline : a ++ utf8 "\n" ++ b = a ++ 0x0a :: b := by simp [utf8]; rfl
  rw [hnewline]
  obtain ⟨hclean, later, hprogram, hlater⟩ := check_append_newline ha hb
  have hready := ready_fresh natives limit clock
  have hnext := hready.answer (.run a)
  obtain ⟨hanswer₁, hmachine₁, -⟩ := answer_of_clean hready.atTop ha
  obtain ⟨hanswer₂, -, hnames₂⟩ := answer_of_clean hnext.atTop hb
  obtain ⟨hanswer, -, hnames⟩ := answer_of_clean hready.atTop hclean
  rw [hprogram] at hanswer hnames
  rw [hmachine₁] at hanswer₂ hnames₂
  rw [hanswer₁] at hfirst
  dsimp only
  rw [hanswer₁, hanswer₂, hanswer, hnames₂, hnames]
  generalize (fresh natives limit clock).machine = m at hfirst ⊢
  unfold Machine.interpret at hfirst ⊢
  cases hrun : Machine.execProgram Machine.ample (check a).program m with
  | fault cause m' =>
      rw [hrun] at hfirst
      cases hfirst
  | done _ m' =>
      obtain ⟨houtput, hglobals, hmessage⟩ := Machine.execProgram_in_parts hrun hlater
      have hsome := congrArg Option.isSome hmessage
      rw [Option.isSome_map, Option.isSome_map] at hsome
      have hcode : ∀ failure : Option RuntimeError,
          Report.exitCode { failure } = if failure.isSome then 70 else 0 := fun _ => rfl
      rw [hcode, hcode, hsome]
      exact ⟨hclean, houtput.symm, hglobals.symm, rfl, hmessage.symm⟩

/-- A branch without `else` and a comment end the first entry; the second ends in an error. -/
def openingEntry : Bytes :=
  utf8 "var log = \"a\"; fun add(s) \x7b log = log + s; return log; \x7d if (nil) print log; // done"

def closingEntry : Bytes :=
  utf8 "print add(\"b\");\n\x7b var add = nil; add(log); \x7d"

theorem entries_run_as_one_shared_function :
    let s := fresh Machine.standardNatives 1 [7]
    let whole := openingEntry ++ utf8 "\n" ++ closingEntry
    let first := s.answer (.run openingEntry)
    let second := first.2.answer (.run closingEntry)
    let once := s.answer (.run whole)
    (check openingEntry).report.diagnostics = [] ∧
      (check closingEntry).report.diagnostics = [] ∧ first.1.report.failure = none ∧
      (check whole).report.diagnostics = [] ∧
      first.1.printed ++ second.1.printed = once.1.printed ∧
      second.2.globals = once.2.globals ∧
      second.1.report.exitCode = once.1.report.exitCode ∧
      second.1.report.failure.map RuntimeError.message =
        once.1.report.failure.map RuntimeError.message := by
  have hopening : (check openingEntry).report.diagnostics = [] := by decide +kernel
  have hclosing : (check closingEntry).report.diagnostics = [] := by decide +kernel
  have hfirst : ((fresh Machine.standardNatives 1 [7]).answer
      (.run openingEntry)).1.report.failure = none := by decide +kernel
  exact ⟨hopening, hclosing, hfirst, entries_run_as_one Machine.standardNatives 1 [7]
    openingEntry closingEntry hopening hclosing hfirst⟩

/-- The error is on the third line of the whole, and on the second of its entry. -/
example :
    let s := fresh Machine.standardNatives 1 [7]
    let second := (s.answer (.run openingEntry)).2.answer (.run closingEntry)
    let once := s.answer (.run (openingEntry ++ utf8 "\n" ++ closingEntry))
    [second.1, once.1].map (fun answer => answer.report.failure.map RuntimeError.line) =
        [some 2, some 3] ∧
      once.1.printed = utf8 "ab\n" := by decide +kernel

end Session

end Lox
