import Lox.Value.Text

/-! # Tokens

The kinds of token, the keywords, and the token itself: a kind, its text, the literal value that the
text denotes (nil for most kinds) and the line on which it ends.
-/

namespace Lox

inductive Kind
  | leftParen | rightParen | leftBrace | rightBrace
  | comma | dot | minus | plus | semicolon | slash | star | questionMark | colon
  | bang | bangEqual | equal | equalEqual | greater | greaterEqual | less | lessEqual
  | identifier | string | number
  | kwAnd | kwClass | kwElse | kwFalse | kwFun | kwFor | kwIf | kwNil | kwOr | kwPrint | kwReturn
  | kwSuper | kwThis | kwTrue | kwVar | kwWhile
  | eof
  deriving DecidableEq

namespace Kind

def names : List (Kind × String) := [
  (leftParen, "LEFT_PAREN"), (rightParen, "RIGHT_PAREN"), (leftBrace, "LEFT_BRACE"),
  (rightBrace, "RIGHT_BRACE"), (comma, "COMMA"), (dot, "DOT"), (minus, "MINUS"), (plus, "PLUS"),
  (semicolon, "SEMICOLON"), (slash, "SLASH"), (star, "STAR"), (questionMark, "QUESTION_MARK"),
  (colon, "COLON"), (bang, "BANG"), (bangEqual, "BANG_EQUAL"), (equal, "EQUAL"),
  (equalEqual, "EQUAL_EQUAL"), (greater, "GREATER"), (greaterEqual, "GREATER_EQUAL"),
  (less, "LESS"), (lessEqual, "LESS_EQUAL"), (identifier, "IDENTIFIER"), (string, "STRING"),
  (number, "NUMBER"), (kwAnd, "AND"), (kwClass, "CLASS"), (kwElse, "ELSE"), (kwFalse, "FALSE"),
  (kwFun, "FUN"), (kwFor, "FOR"), (kwIf, "IF"), (kwNil, "NIL"), (kwOr, "OR"), (kwPrint, "PRINT"),
  (kwReturn, "RETURN"), (kwSuper, "SUPER"), (kwThis, "THIS"), (kwTrue, "TRUE"), (kwVar, "VAR"),
  (kwWhile, "WHILE"), (eof, "EOF")]

def name (k : Kind) : String := (names.lookup k).getD ""

def ofName? (s : String) : Option Kind := (names.find? (·.2 == s)).map (·.1)

def keywords : List (String × Kind) := [
  ("and", kwAnd), ("class", kwClass), ("else", kwElse), ("false", kwFalse), ("for", kwFor),
  ("fun", kwFun), ("if", kwIf), ("nil", kwNil), ("or", kwOr), ("print", kwPrint),
  ("return", kwReturn), ("super", kwSuper), ("this", kwThis), ("true", kwTrue), ("var", kwVar),
  ("while", kwWhile)]

def keyword? (word : String) : Option Kind := keywords.lookup word

end Kind

structure Token where
  kind : Kind
  lexeme : String
  literal : Value
  line : Int
  deriving DecidableEq

namespace Token

def eof (line : Int) : Token := ⟨.eof, "", .nil, line⟩

/-- Equal kinds, texts and lines, and literals alike. -/
def same (a b : Token) : Bool :=
  a.kind == b.kind && a.lexeme == b.lexeme && a.literal.alike b.literal && a.line == b.line

def record (t : Token) : String :=
  "Token(" ++ t.kind.name ++ ", " ++ Text.quoted t.lexeme ++ ", " ++ t.literal.record true
    ++ ", line=" ++ toString t.line ++ ")"

/-- The token in short: its kind, its text and its literal. -/
def brief (t : Token) : String := t.kind.name ++ " " ++ t.lexeme ++ " " ++ t.literal.record false

end Token
end Lox
