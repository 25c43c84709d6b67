import Lox.Diagnostic
import Lox.Machine.Fault

/-!
The outcome of one run of the pipeline: diagnostics of the front end and at most
one runtime error.
-/

namespace Lox

structure Report where
  diagnostics : List Diagnostic := []
  failure : Option RuntimeError := none
  deriving DecidableEq, Repr, Inhabited

namespace Report

def rejected (r : Report) : Bool := Diagnostic.hasErrors r.diagnostics

def failed (r : Report) : Bool := r.rejected || r.failure.isSome

/-- 65 for a rejected program, 70 for a failing one, 0 otherwise. -/
def exitCode (r : Report) : Nat :=
  if r.rejected then 65 else if r.failure.isSome then 70 else 0

def messages (r : Report) : List Bytes :=
  r.diagnostics.map Diagnostic.text ++ r.failure.toList.map RuntimeError.report

inductive Stage where
  | grammar
  | resolution
  | runtime
  deriving DecidableEq, Repr

def isResolution (d : Diagnostic) : Bool := (utf8 "E3").isPrefixOf d.code

def summary? (r : Report) : Option (Stage × Bytes) :=
  if r.rejected then
    let stage := if r.diagnostics.all isResolution then Stage.resolution else .grammar
    let headline := utf8 (if stage = .resolution then "resolution error" else "syntax error")
    some (stage, headline ++ utf8 ": " ++ Bytes.ofNat r.diagnostics.length ++
      utf8 " diagnostic(s), first: " ++ (r.diagnostics.head?.map Diagnostic.text).getD [])
  else r.failure.map fun e => (.runtime, e.message)

end Report

end Lox
