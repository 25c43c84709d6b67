import Lox.Machine.Eval
import Lox.Pipeline

/-!
Running sources, one after the other, on one machine.

A source runs only if checking it found no error.  Later sources see what earlier
ones declared.
-/

namespace Lox

structure Session where
  machine : Machine
  resolution : Resolution.State := {}

namespace Session

def run (s : Session) (source : Bytes) : Report × Session :=
  let (checked, resolution) := checkFrom s.resolution source
  if checked.report.failed then (checked.report, { s with resolution })
  else
    match Machine.interpret checked.program s.machine with
    | .done _ machine => (checked.report, { machine, resolution })
    | .fault cause machine =>
        ({ checked.report with failure := some cause.toRuntimeError }, { machine, resolution })

/-- The value of one expression, whose names are not resolved: all are global. -/
def evaluate (s : Session) (source : Bytes) : Option Value × Report × Session :=
  let (e, report) := parseExpression source
  if report.failed then (none, report, s)
  else
    match Machine.evaluate (e.getD .absent) s.machine with
    | .done v machine => (some v, report, { s with machine })
    | .fault cause machine =>
        (none, { report with failure := some cause.toRuntimeError }, { s with machine })

def globals (s : Session) : List Bytes := s.machine.globals

def takeOutput (s : Session) : Bytes × Session :=
  let (output, machine) := s.machine.takeOutput
  (output, { s with machine })

end Session

end Lox
