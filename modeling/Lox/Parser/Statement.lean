import Lox.Parser.Expression

/-!
Statements, declarations and programs.

A problem unwinds to the declaration it is in, which is dropped; reading goes on
after the next semicolon or before the next word that starts a statement.  A
`for` loop is read as the block and `while` loop it stands for.
-/

namespace Lox.Parser

/-! ## Recovery -/

def startsStatement : Kind → Bool
  | .classKw | .funKw | .varKw | .forKw | .ifKw | .whileKw | .printKw | .returnKw => true
  | _ => false

/-- Skips to `eof`, to just after a semicolon or to the start of a statement. -/
def skip : Option Token → List Token → Option Token × List Token
  | previous, [] => (previous, [])
  | previous, t :: rest =>
      if t.kind = .eof || previous.any (fun p => p.kind == .semicolon)
          || startsStatement t.kind then (previous, t :: rest)
      else skip (some t) rest

def synchronize (c : Cursor) : Cursor :=
  let c := c.advance
  let (previous, rest) := skip c.previous c.rest
  { c with previous, rest }

/-- A declaration that fails is dropped, and reading goes on after it. -/
def recovering (declaration : Parse Stmt) : Parse (Option Stmt) := fun c =>
  match declaration c with
  | (.ok s, c) => (.ok (some s), c)
  | (.failed, c) => (.ok none, synchronize c)
  | (.outOfFuel, c) => (.outOfFuel, c)

/-! ## Declarations -/

def parameters : Nat → (count : Nat) → Parse (List Token)
  | 0, _ => outOfFuel
  | n + 1, count => do
      if argumentLimit ≤ count then report .tooManyParameters (← peek)
      let parameter ← expect .identifier "Expect parameter name."
      if ← accept .comma then
        let rest ← parameters n (count + 1)
        return parameter :: rest
      else return [parameter]

def variableDeclaration (n : Nat) : Parse Stmt := do
  let keyword ← before
  let name ← expect .identifier "Expect variable name."
  let initial ← if ← accept .equal then some <$> expression n else pure none
  let _ ← expect .semicolon "Expect ';' after variable declaration."
  return .var ⟨keyword.span.start, ← previousEnd⟩ name initial

def expressionStatement (n : Nat) : Parse Stmt := do
  let expr ← expression n
  let _ ← expect .semicolon "Expect ';' after expression."
  return .expression ⟨expr.span.start, ← previousEnd⟩ expr

def forInitial (n : Nat) : Parse (Option Stmt) := do
  if ← accept .semicolon then return none
  else if ← accept .varKw then return some (← variableDeclaration n)
  else return some (← expressionStatement n)

/--
The loop that `for` stands for: the increment runs after the body, a missing
condition is true, and the initial statement is in a scope around the loop.
-/
def forLoop (start stop : Position) (initial : Option Stmt) (condition : Option Expr)
    (conditionEnd : Position) (increment : Option Expr) (body : Stmt) : Stmt :=
  let body :=
    match increment with
    | some e => .block ⟨body.span.start, stop⟩ [body, .expression e.span e]
    | none => body
  let condition := condition.getD (.literal ⟨conditionEnd, conditionEnd⟩ (.bool true))
  let loop := .loop ⟨start, stop⟩ condition body
  match initial with
  | some s => .block ⟨start, stop⟩ [s, loop]
  | none => loop

mutual

def declarations : Nat → (inBlock : Bool) → Parse (List Stmt)
  | 0, _ => outOfFuel
  | n + 1, inBlock => do
      if (← at? .eof) || (inBlock && (← at? .rightBrace)) then return []
      else
        let first ← recovering (declaration n)
        let rest ← declarations n inBlock
        return first.toList ++ rest

def block : Nat → Parse (List Stmt)
  | 0 => outOfFuel
  | n + 1 => do
      let body ← declarations n true
      let _ ← expect .rightBrace "Expect '\x7d' after block."
      return body

def declaration : Nat → Parse Stmt
  | 0 => outOfFuel
  | n + 1 => do
      if ← accept .classKw then classDeclaration n
      else if ← accept .funKw then
        let keyword ← before
        return .function (← function n "function" keyword.span.start)
      else if ← accept .varKw then variableDeclaration n
      else statement n

def classDeclaration : Nat → Parse Stmt
  | 0 => outOfFuel
  | n + 1 => do
      let keyword ← before
      let name ← expect .identifier "Expect class name."
      let superclass ←
        if ← accept .less then do
          let name ← expect .identifier "Expect superclass name."
          pure (some { span := name.span, name := name })
        else pure none
      let _ ← expect .leftBrace "Expect '\x7b' before class body."
      let methods ← methods n
      let _ ← expect .rightBrace "Expect '\x7d' after class body."
      return .classDecl ⟨keyword.span.start, ← previousEnd⟩ name superclass methods

def methods : Nat → Parse (List FunctionDecl)
  | 0 => outOfFuel
  | n + 1 => do
      if (← at? .rightBrace) || (← at? .eof) then return []
      else
        let t ← peek
        let first ← function n "method" t.span.start
        let rest ← methods n
        return first :: rest

/-- A function from its name on; `role` is the word for it in messages. -/
def function : Nat → (role : String) → (start : Position) → Parse FunctionDecl
  | 0, _, _ => outOfFuel
  | n + 1, role, start => do
      let name ← expect .identifier ("Expect " ++ role ++ " name.")
      let _ ← expect .leftParen ("Expect '(' after " ++ role ++ " name.")
      let parameters ← if ← at? .rightParen then pure [] else parameters n 0
      let _ ← expect .rightParen "Expect ')' after parameters."
      let _ ← expect .leftBrace ("Expect '\x7b' before " ++ role ++ " body.")
      let body ← block n
      return .mk ⟨start, ← previousEnd⟩ name parameters body

def statement : Nat → Parse Stmt
  | 0 => outOfFuel
  | n + 1 => do
      if ← accept .forKw then forStatement n
      else if ← accept .ifKw then ifStatement n
      else if ← accept .printKw then
        let keyword ← before
        let value ← expression n
        let _ ← expect .semicolon "Expect ';' after value."
        return .print ⟨keyword.span.start, ← previousEnd⟩ value
      else if ← accept .returnKw then
        let keyword ← before
        let value ← if ← at? .semicolon then pure none else some <$> expression n
        let _ ← expect .semicolon "Expect ';' after return value."
        return .ret ⟨keyword.span.start, ← previousEnd⟩ keyword value
      else if ← accept .whileKw then
        let keyword ← before
        let _ ← expect .leftParen "Expect '(' after 'while'."
        let condition ← expression n
        let _ ← expect .rightParen "Expect ')' after condition."
        let body ← statement n
        return .loop ⟨keyword.span.start, ← previousEnd⟩ condition body
      else if ← accept .leftBrace then
        let brace ← before
        let body ← block n
        return .block ⟨brace.span.start, ← previousEnd⟩ body
      else expressionStatement n

def forStatement : Nat → Parse Stmt
  | 0 => outOfFuel
  | n + 1 => do
      let keyword ← before
      let _ ← expect .leftParen "Expect '(' after 'for'."
      let initial ← forInitial n
      let condition ← if ← at? .semicolon then pure none else some <$> expression n
      let conditionEnd ← expect .semicolon "Expect ';' after loop condition."
      let increment ← if ← at? .rightParen then pure none else some <$> expression n
      let _ ← expect .rightParen "Expect ')' after for clauses."
      let body ← statement n
      return forLoop keyword.span.start (← previousEnd) initial condition
        conditionEnd.span.start increment body

def ifStatement : Nat → Parse Stmt
  | 0 => outOfFuel
  | n + 1 => do
      let keyword ← before
      let _ ← expect .leftParen "Expect '(' after 'if'."
      let condition ← expression n
      let _ ← expect .rightParen "Expect ')' after if condition."
      let onTrue ← statement n
      let onFalse ← if ← accept .elseKw then some <$> statement n else pure none
      return .branch ⟨keyword.span.start, ← previousEnd⟩ condition onTrue onFalse

end

/-! ## Whole inputs -/

/-- More than the depth to which any list of this many tokens nests. -/
def fuelFor (tokens : List Token) : Nat := 16 * (tokens.length + 1)

def program (tokens : List Token) : List Stmt × List Diagnostic :=
  match declarations (fuelFor tokens) false (.start tokens) with
  | (.ok body, c) => (body, c.reported)
  | (_, c) => ([], c.reported)

/-- One expression with an optional semicolon; what comes after it is ignored. -/
def soleExpression (tokens : List Token) : Option Expr × List Diagnostic :=
  match expression (fuelFor tokens) (.start tokens) with
  | (.ok e, c) => (some e, c.reported)
  | (_, c) => (none, c.reported)

end Lox.Parser
