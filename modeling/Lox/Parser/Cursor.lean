import Lox.Diagnostic

/-!
Reading tokens one after the other.

A cursor stands before the next token.  It never moves past an `eof` token, and
past the last token of a list it sees that token again and again.  Parsers are
functions of the cursor that report problems on the way.
-/

namespace Lox.Parser

structure Cursor where
  previous : Option Token := none
  rest : List Token
  last : Token
  reported : List Diagnostic := []
  deriving DecidableEq, Repr

namespace Cursor

/-- Before the first token; an empty list is seen as `eof` on the first line. -/
def start (tokens : List Token) : Cursor :=
  { rest := tokens, last := tokens.getLast?.getD { kind := .eof, line := 1 } }

def peek (c : Cursor) : Token := c.rest.head?.getD c.last

def kind (c : Cursor) : Kind := c.peek.kind

/-- The token before the cursor; at the very start the token after it. -/
def before (c : Cursor) : Token := c.previous.getD c.peek

/-- Where the token before the cursor ends; at the very start where the next begins. -/
def previousEnd (c : Cursor) : Position :=
  match c.previous with
  | some t => t.span.stop
  | none => c.peek.span.start

/-- One token on, except at `eof` and after the last token. -/
def advance (c : Cursor) : Cursor :=
  match c.rest with
  | [] => c
  | t :: rest => if t.kind = .eof then c else { c with previous := some t, rest }

def report (c : Cursor) (p : Problem) (t : Token) : Cursor :=
  { c with reported := c.reported ++ [.atToken p t] }

end Cursor

/-! ## Parsers -/

/-- `failed` unwinds to the nearest declaration; the problem has been reported. -/
inductive Reply (α : Type) where
  | ok (value : α)
  | failed
  | outOfFuel
  deriving Repr

abbrev Parse (α : Type) := Cursor → Reply α × Cursor

namespace Parse

@[inline] def pure (value : α) : Parse α := fun c => (.ok value, c)

@[inline] def bind (first : Parse α) (next : α → Parse β) : Parse β := fun c =>
  match first c with
  | (.ok value, c) => next value c
  | (.failed, c) => (.failed, c)
  | (.outOfFuel, c) => (.outOfFuel, c)

end Parse

instance : Monad Parse where
  pure := Parse.pure
  bind := Parse.bind

def outOfFuel : Parse α := fun c => (.outOfFuel, c)

def peek : Parse Token := fun c => (.ok c.peek, c)

def before : Parse Token := fun c => (.ok c.before, c)

def previousEnd : Parse Position := fun c => (.ok c.previousEnd, c)

def next : Parse Token := fun c => (.ok c.peek, c.advance)

def at? (k : Kind) : Parse Bool := fun c => (.ok (c.kind = k), c)

def accept (k : Kind) : Parse Bool := fun c =>
  if c.kind = k then (.ok true, c.advance) else (.ok false, c)

def report (p : Problem) (t : Token) : Parse Unit := fun c => (.ok (), c.report p t)

def fail (p : Problem) (t : Token) : Parse α := fun c => (.failed, c.report p t)

def expect (k : Kind) (message : String) : Parse Token := fun c =>
  if c.kind = k then (.ok c.peek, c.advance)
  else (.failed, c.report (.expect message) c.peek)

end Lox.Parser
