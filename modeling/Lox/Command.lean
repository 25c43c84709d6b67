import Lox.Command.Flags
import Lox.Command.Repl
import Lox.Config
import Lox.Token.Stream
import Lox.Tree.Dump
import Lox.Tree.Printed

/-!
The commands of the command line.
-/

namespace Lox.Command

def usage : Bytes :=
  Bytes.lines
    [utf8 "Usage:",
     utf8 "  lox [--config file] [-v] <command> [args]",
     utf8 "",
     utf8 "Commands:",
     utf8 "  tokenize <file> [--format text|json|cbor]   Print tokens",
     utf8 "  parse    <file> [--program] [--json]        Print the syntax tree",
     utf8 "  evaluate <file>                             Evaluate one expression",
     utf8 "  run      <file>                             Run a program",
     utf8 "  repl                                        Start interactive REPL",
     utf8 "  lsp                                         Serve the language server on stdio"]

structure Libraries where
  overlay : Config.Overlay
  codec : Codec

def failure (message : Bytes) : Bytes := utf8 "error: " ++ message ++ utf8 "\n"

/-! ## Reports -/

def diagnosticJson (d : Diagnostic) : Json :=
  .object
    ([("code", .text d.code), ("column", .integer d.span.start.column),
      ("line", .integer d.line), ("message", .text d.message),
      ("offset", .integer d.span.start.offset), ("severity", .text d.severity.name)] ++
     if d.place = [] then [] else [("where", .text d.place)])

def diagnosticsJson (report : Report) : Json := .array (report.diagnostics.map diagnosticJson)

def diagnosticLines (report : Report) : Bytes :=
  Bytes.lines (report.diagnostics.map Diagnostic.text)

def conclude (report : Report) (output : Output) : Completion :=
  { exit := report.exitCode, output }

def jsonOutput (j : Json) : Output :=
  match Json.encode Json.indented j with
  | .ok text => { out := text ++ utf8 "\n" }
  | .error message => { err := failure (utf8 "JSON encoding failed: " ++ message) }

/-! ## Commands on one source -/

def tokenizeSource (codec : Codec) (format source : Bytes) : Completion :=
  let (tokens, report) := tokenize source
  let records := tokens.map Record.ofToken
  if format = utf8 "text" then
    conclude report
      { out := Bytes.lines (tokens.map Token.text), err := diagnosticLines report }
  else if format = utf8 "json" then
    conclude report (jsonOutput
      (.object [("diagnostics", diagnosticsJson report), ("tokens", Stream.json records)]))
  else if format = utf8 "cbor" then
    let err := diagnosticLines report
    match Stream.encode codec records with
    | .ok out => conclude report { out, err }
    | .error message => refuse (err ++ failure (utf8 "CBOR encoding failed: " ++ message))
  else refuse (failure (utf8 "unknown format '" ++ format ++ utf8 "'"))

/-- Trees are shown as JSON, or printed unless the source is malformed. -/
def showTrees (json : Bool) (report : Report) (tree : Json) (printed : List Bytes) : Completion :=
  conclude report <|
    if json then jsonOutput (.object [("ast", tree), ("diagnostics", diagnosticsJson report)])
    else
      { out := if report.failed then [] else Bytes.lines printed, err := diagnosticLines report }

def parseSource (program json : Bool) (source : Bytes) : Completion :=
  if program then
    let (statements, report) := parse source
    showTrees json report (.array (Stmt.dumpList statements)) (statements.map Stmt.printed)
  else
    let (e, report) := parseExpression source
    let e := e.getD .absent
    showTrees json report e.dump [e.printed]

def evaluateSource (session : Session) (source : Bytes) : Completion :=
  let (v, report, session) := session.evaluate source
  let shown := v.toList.map Value.display
  conclude report
    { out := session.machine.output ++ Bytes.lines shown, err := Bytes.lines report.messages }

def runSource (session : Session) (source : Bytes) : Completion :=
  let (report, session) := session.run source
  conclude report { out := session.machine.output, err := Bytes.lines report.messages }

/-! ## Command lines -/

def globalFlags : List Flag :=
  [{ name := utf8 "config", shape := .text [], help := utf8 "path to lox.toml" },
   { name := utf8 "v", shape := .counter, help := utf8 "raise log verbosity (repeatable)" }]

def tokenizeFlags : List Flag :=
  [{ name := utf8 "format", shape := .text (utf8 "text"),
     help := utf8 "output format: text, json or cbor" }]

def parseFlags : List Flag :=
  [{ name := utf8 "json", shape := .switch, help := utf8 "print the tree as JSON" },
   { name := utf8 "program", shape := .switch,
     help := utf8 "parse a whole program instead of one expression" }]

def soleArgument (command : Bytes) (flags : List Flag) (arguments : List Bytes) :
    Except Bytes (List Flags.Setting × Bytes) :=
  match Flags.parseAll flags arguments with
  | .error problem => .error (problem.report ++ Flags.usage command flags)
  | .ok (settings, [file]) => .ok (settings, file)
  | .ok _ => .error (failure (command ++ utf8 " expects exactly one file argument"))

def onFile [Monad m] (host : Host m) (command : Bytes) (flags : List Flag)
    (arguments : List Bytes) (body : List Flags.Setting → Bytes → Completion) : m Completion := do
  match soleArgument command flags arguments with
  | .error message => return refuse message
  | .ok (settings, file) =>
      match ← host.read file with
      | .error fault =>
          return refuse (failure (utf8 "cannot read file " ++ file ++ utf8 ": " ++
            fault.describe file))
      | .ok source => return body settings source

/-- A command that has done its work, or a prompt that waits for input. -/
inductive Stage where
  | finished (completion : Completion)
  | prompting (repl : Repl)

def newSession (clock : List Int) (c : Config) : Session :=
  { machine := .start Machine.standardNatives c.maxCallDepth.toNat clock }

def perform [Monad m] (libraries : Libraries) (host : Host m) (c : Config) (command : Bytes)
    (arguments : List Bytes) : m Stage := do
  let session := newSession host.clock c
  let onFile := fun flags body => do
    return Stage.finished (← onFile host command flags arguments body)
  if command = utf8 "tokenize" then
    onFile tokenizeFlags fun settings source =>
      tokenizeSource libraries.codec
        ((Flags.last? settings (utf8 "format")).getD (utf8 "text")) source
  else if command = utf8 "parse" then
    onFile parseFlags fun settings source =>
      parseSource (Flags.isOn settings (utf8 "program")) (Flags.isOn settings (utf8 "json")) source
  else if command = utf8 "evaluate" then onFile [] fun _ source => evaluateSource session source
  else if command = utf8 "run" then onFile [] fun _ source => runSource session source
  else if command = utf8 "repl" then return .prompting (.start c.color c.prompt session)
  else if command = utf8 "lsp" then return .finished { exit := 0 }
  else
    return .finished (refuse (failure (utf8 "unknown command '" ++ command ++ utf8 "'") ++ usage))

/-- The settings in the file that was asked for, or else in the nearest one. -/
def configure [Monad m] (overlay : Config.Overlay) (host : Host m) (path : Bytes) :
    m (Except Config.Problem Config) :=
  if path = [] then Config.find overlay host else Config.load overlay host path

def launch [Monad m] (libraries : Libraries) (host : Host m) (arguments : List Bytes) :
    m Stage := do
  match Flags.parse globalFlags arguments with
  | .error problem => return .finished (refuse (problem.report ++ usage))
  | .ok (settings, rest) =>
      match ← configure libraries.overlay host
          ((Flags.last? settings (utf8 "config")).getD []) with
      | .error problem => return .finished (refuse (failure problem.message))
      | .ok config =>
          match rest with
          | [] => return .finished (refuse usage)
          | command :: rest => perform libraries host config command rest

def run [Monad m] (libraries : Libraries) (host : Host m) (arguments : List Bytes)
    (stream : Bytes) : m Completion := do
  match ← launch libraries host arguments with
  | .finished completion => return completion
  | .prompting repl => return repl.run stream

end Lox.Command
