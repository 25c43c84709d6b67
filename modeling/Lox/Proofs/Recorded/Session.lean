import Lox.Proofs.Recorded.Traced
import Lox.Proofs.Session.Transcript

/-!
Steps of a session that are recorded.
-/

namespace Lox.Recorded

def task {T : Type → Type} [Recorder T] (fuel : Nat) (s : Session) :
    Session.Step → T (Option Value)
  | .run source =>
      if (checkFrom s.resolution source).1.report.failed then pure none
      else do
        execProgram fuel (checkFrom s.resolution source).1.program
        return none
  | .evaluate source =>
      if (parseExpression source).2.failed then pure none
      else do
        let v ← eval fuel { checked := false } ((parseExpression source).1.getD .absent)
        return some v
  | .globals => pure none

/-! ## Answers with a log -/

variable {ε : Type} [Log ε]

def run (s : Session) (source : Bytes) : (Report × Session) × List ε :=
  let (checked, resolution) := checkFrom s.resolution source
  if checked.report.failed then ((checked.report, { s with resolution }), [])
  else
    match (execProgram Machine.ample checked.program : Traced ε Unit) s.machine with
    | (.done _ machine, log) => ((checked.report, { machine, resolution }), log)
    | (.fault cause machine, log) =>
        (({ checked.report with failure := some cause.toRuntimeError },
          { machine, resolution }), log)

/-- The names of the expression are not resolved, so it counts as not checked. -/
def evaluate (s : Session) (source : Bytes) : (Option Value × Report × Session) × List ε :=
  let (e, report) := parseExpression source
  if report.failed then ((none, report, s), [])
  else
    match (eval Machine.ample { checked := false } (e.getD .absent) : Traced ε Value) s.machine with
    | (.done v machine, log) => ((some v, report, { s with machine }), log)
    | (.fault cause machine, log) =>
        ((none, { report with failure := some cause.toRuntimeError }, { s with machine }), log)

def answer (s : Session) : Session.Step → (Session.Answer × Session) × List ε
  | .run source =>
      let ((report, s), log) := run s source
      let (printed, s) := s.takeOutput
      (({ printed, report }, s), log)
  | .evaluate source =>
      let ((value, report, s), log) := evaluate s source
      let (printed, s) := s.takeOutput
      (({ printed, value, report }, s), log)
  | .globals =>
      let globals := s.globals
      let (printed, s) := s.takeOutput
      (({ printed, globals }, s), [])

end Lox.Recorded
