import Lox.Parser.Statement
import Lox.Report
import Lox.Resolution
import Lox.Token.Scan

/-!
From source text to checked programs.

Every step reports the diagnostics of the steps before it as well.
-/

namespace Lox

def tokenize (source : Bytes) : List Token × Report :=
  let (tokens, diagnostics) := scan source
  (tokens, { diagnostics })

def parseExpression (source : Bytes) : Option Expr × Report :=
  let (tokens, lexical) := scan source
  let (e, problems) := Parser.soleExpression tokens
  (e, { diagnostics := lexical ++ problems })

def parse (source : Bytes) : List Stmt × Report :=
  let (tokens, lexical) := scan source
  let (program, problems) := Parser.program tokens
  (program, { diagnostics := lexical ++ problems })

/-- A parsed program and, unless the source was malformed, its local references. -/
structure Checked where
  program : List Stmt
  entries : Option (List Resolution.Entry)
  report : Report

/-- Names are resolved only in a well-formed source, after those of earlier sources. -/
def checkFrom (s : Resolution.State) (source : Bytes) : Checked × Resolution.State :=
  let (program, report) := parse source
  if report.failed then (⟨program, none, report⟩, s)
  else
    let (outcome, s) := Resolution.resolveFrom s program
    (⟨outcome.program, some outcome.entries,
      { report with diagnostics := report.diagnostics ++ outcome.diagnostics }⟩, s)

def check (source : Bytes) : Checked := (checkFrom {} source).1

end Lox
