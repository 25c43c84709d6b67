import Lox.Text.Bytes

/-!
The kinds of token, numbered from zero in the order of `Kind.all`.
-/

namespace Lox

inductive Kind where
  | leftParen | rightParen | leftBrace | rightBrace | comma | dot | minus | plus
  | semicolon | slash | star
  | bang | bangEqual | equal | equalEqual | greater | greaterEqual | less | lessEqual
  | identifier | string | number
  | andKw | classKw | elseKw | falseKw | funKw | forKw | ifKw | nilKw | orKw | printKw
  | returnKw | superKw | thisKw | trueKw | varKw | whileKw
  | eof
  deriving DecidableEq, Repr, Inhabited

namespace Kind

def all : List Kind :=
  [.leftParen, .rightParen, .leftBrace, .rightBrace, .comma, .dot, .minus, .plus,
   .semicolon, .slash, .star,
   .bang, .bangEqual, .equal, .equalEqual, .greater, .greaterEqual, .less, .lessEqual,
   .identifier, .string, .number,
   .andKw, .classKw, .elseKw, .falseKw, .funKw, .forKw, .ifKw, .nilKw, .orKw, .printKw,
   .returnKw, .superKw, .thisKw, .trueKw, .varKw, .whileKw,
   .eof]

def name : Kind → String
  | .leftParen => "LEFT_PAREN"
  | .rightParen => "RIGHT_PAREN"
  | .leftBrace => "LEFT_BRACE"
  | .rightBrace => "RIGHT_BRACE"
  | .comma => "COMMA"
  | .dot => "DOT"
  | .minus => "MINUS"
  | .plus => "PLUS"
  | .semicolon => "SEMICOLON"
  | .slash => "SLASH"
  | .star => "STAR"
  | .bang => "BANG"
  | .bangEqual => "BANG_EQUAL"
  | .equal => "EQUAL"
  | .equalEqual => "EQUAL_EQUAL"
  | .greater => "GREATER"
  | .greaterEqual => "GREATER_EQUAL"
  | .less => "LESS"
  | .lessEqual => "LESS_EQUAL"
  | .identifier => "IDENTIFIER"
  | .string => "STRING"
  | .number => "NUMBER"
  | .andKw => "AND"
  | .classKw => "CLASS"
  | .elseKw => "ELSE"
  | .falseKw => "FALSE"
  | .funKw => "FUN"
  | .forKw => "FOR"
  | .ifKw => "IF"
  | .nilKw => "NIL"
  | .orKw => "OR"
  | .printKw => "PRINT"
  | .returnKw => "RETURN"
  | .superKw => "SUPER"
  | .thisKw => "THIS"
  | .trueKw => "TRUE"
  | .varKw => "VAR"
  | .whileKw => "WHILE"
  | .eof => "EOF"

def ofName? (s : Bytes) : Option Kind := all.find? fun k => utf8 k.name == s

def reserved : List (Bytes × Kind) :=
  [(utf8 "and", .andKw), (utf8 "class", .classKw), (utf8 "else", .elseKw),
   (utf8 "false", .falseKw), (utf8 "for", .forKw), (utf8 "fun", .funKw),
   (utf8 "if", .ifKw), (utf8 "nil", .nilKw), (utf8 "or", .orKw),
   (utf8 "print", .printKw), (utf8 "return", .returnKw), (utf8 "super", .superKw),
   (utf8 "this", .thisKw), (utf8 "true", .trueKw), (utf8 "var", .varKw),
   (utf8 "while", .whileKw)]

def ofWord (word : Bytes) : Kind := (reserved.lookup word).getD .identifier

def isKeyword (k : Kind) : Bool := reserved.any fun entry => entry.2 == k

def isLiteral : Kind → Bool
  | .identifier | .string | .number => true
  | _ => false

def ofIndex? : Int → Option Kind
  | .ofNat n => all[n]?
  | .negSucc _ => none

/-- The name of a kind by number; a number without a kind is shown as it is. -/
def nameOfIndex (n : Int) : Bytes :=
  match ofIndex? n with
  | some k => utf8 k.name
  | none => utf8 "Kind(" ++ Bytes.ofInt n ++ utf8 ")"

end Kind

end Lox
