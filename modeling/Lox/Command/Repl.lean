import Lox.Command.Output
import Lox.Session
import Lox.Text.Blank

/-!
The interactive prompt.

Lines are collected until no brace is left open; the text so far is then one entry.
An entry that does not look like a statement is first tried as an expression, whose
value is shown.
-/

namespace Lox.Command

/-! ## Colours -/

structure Palette where
  reset : Bytes := []
  red : Bytes := []
  green : Bytes := []
  cyan : Bytes := []
  gray : Bytes := []
  bold : Bytes := []
  deriving DecidableEq, Repr

def Palette.ansi : Palette where
  reset := utf8 "\x1b[0m"
  red := utf8 "\x1b[31m"
  green := utf8 "\x1b[32m"
  cyan := utf8 "\x1b[36m"
  gray := utf8 "\x1b[90m"
  bold := utf8 "\x1b[1m"

def Palette.choose (color : Bool) : Palette := if color then .ansi else {}

/-! ## Input -/

/-- What is typed: a whole line or an interrupt, which drops the line begun. -/
inductive Input where
  | line (text : Bytes)
  | interrupt
  deriving DecidableEq, Repr

/-- The inputs in a stream of bytes, after the bytes of a line begun, the latest first. -/
def inputsFrom (begun : Bytes) : Bytes → List Input
  | [] => if begun.isEmpty then [] else [.line begun.reverse]
  | b :: rest =>
      if b = 0x0a || b = 0x0d then .line begun.reverse :: inputsFrom [] rest
      else if b = 0x03 then .interrupt :: inputsFrom [] rest
      else inputsFrom (b :: begun) rest

/-- A last line need not end in a newline. -/
def inputs (stream : Bytes) : List Input := inputsFrom [] stream

/-! ## Entries -/

/--
`pending` is the text of an entry whose braces are still open, and `unclosed` the
number of those braces.
-/
structure Repl where
  colors : Palette
  prompt : Bytes
  session : Session
  pending : Bytes := []
  unclosed : Nat := 0

namespace Repl

def complaints (colors : Palette) (report : Report) : Bytes :=
  report.messages.flatMap fun message => colors.red ++ message ++ colors.reset ++ utf8 "\n"

def echo (colors : Palette) (v : Option Value) : Bytes :=
  match v with
  | some v => colors.gray ++ v.display ++ colors.reset ++ utf8 "\n"
  | none => []

def looksFinished (entry : Bytes) : Bool :=
  match entry.trim.getLast? with
  | some b => b == 0x3b || b == 0x7d
  | none => false

def runEntry (colors : Palette) (s : Session) (entry : Bytes) : Output × Session :=
  let (report, s) := s.run entry
  let (printed, s) := s.takeOutput
  ({ out := printed, err := complaints colors report }, s)

/--
Runs an entry.  Unless it looks like a statement, it is tried as an expression; only
if it is malformed as such does it run as a program.
-/
def submit (colors : Palette) (s : Session) (entry : Bytes) : Output × Session :=
  if looksFinished entry then runEntry colors s entry
  else
    let (v, report, s) := s.evaluate entry
    if report.failure.isSome || !report.failed then
      let (printed, s) := s.takeOutput
      ({ out := printed ++ echo colors v, err := complaints colors report }, s)
    else runEntry colors s entry

/-! ## Steps -/

def start (color : Bool) (prompt : Bytes) (session : Session) : Repl :=
  { colors := .choose color, prompt, session }

def banner (r : Repl) : Bytes :=
  r.colors.bold ++ r.colors.cyan ++ utf8 "Lox REPL" ++ r.colors.reset ++ utf8 " " ++
    r.colors.gray ++ utf8 "(type 'exit' or Ctrl+D to quit, '.globals' to list globals)" ++
    r.colors.reset ++ utf8 "\n\n"

def promptText (r : Repl) : Bytes :=
  if 0 < r.unclosed then r.colors.gray ++ utf8 "... " ++ r.colors.reset
  else r.colors.green ++ r.prompt ++ r.colors.reset

def hint (r : Repl) : Bytes :=
  utf8 "\n" ++ r.colors.gray ++ utf8 "(use 'exit' or Ctrl+D to quit)" ++ r.colors.reset ++
    utf8 "\n"

def collect (r : Repl) (text : Bytes) : Output × Repl :=
  let unclosed := r.unclosed + text.count 0x7b - text.count 0x7d
  let pending := r.pending ++ text ++ utf8 "\n"
  if 0 < unclosed then ({}, { r with pending, unclosed })
  else
    let r := { r with pending := [], unclosed := 0 }
    if pending.trim.isEmpty then ({}, r)
    else
      let (output, session) := submit r.colors r.session pending
      (output, { r with session })

/-- The prompt after an input, `none` once it is left.  Commands stand outside of entries. -/
def step (r : Repl) : Input → Output × Option Repl
  | .interrupt =>
      if 0 < r.unclosed then ({}, some { r with pending := [], unclosed := 0 })
      else ({ out := r.hint }, some r)
  | .line text =>
      if r.unclosed = 0 ∧ text.trim = utf8 "exit" then ({}, none)
      else if r.unclosed = 0 ∧ text.trim = utf8 ".globals" then
        ({ out := Bytes.join (utf8 " ") r.session.globals ++ utf8 "\n" }, some r)
      else
        let (output, r) := r.collect text
        (output, some r)

def farewell : Output := { out := utf8 "\n" }

def converse (r : Repl) : List Input → Output
  | [] => farewell
  | input :: rest =>
      match r.step input with
      | (output, none) => output
      | (output, some r) => output ++ r.converse rest

def run (r : Repl) (stream : Bytes) : Completion :=
  { exit := 0, output := { out := r.banner } ++ r.converse (inputs stream) }

end Repl

end Lox.Command
