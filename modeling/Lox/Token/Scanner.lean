import Lox.Token.Basic
import Lox.Number.Reading

/-! # From characters to tokens

A `Scanner` stands somewhere in a source text: `taken` is the lexeme it has read so far and `rest`
what follows. Each function that reads a lexeme splits `rest` into a longest first part and what is
left. `scan` reads a whole source, one lexeme after another; a lexeme gives a token, a fault, or
nothing if it is a blank or a comment.
-/

namespace Lox

inductive LexicalError
  | unexpectedCharacter
  | unterminatedString
  | unterminatedComment
  deriving DecidableEq

def LexicalError.message : LexicalError → String
  | .unexpectedCharacter => "Unexpected character."
  | .unterminatedString => "Unterminated string."
  | .unterminatedComment => "Unterminated block comment."

inductive Scanned
  | token (t : Token)
  | fault (line : Int) (error : LexicalError)
  /-- A lexeme read as a number that is no numeral; none is, if the lexeme starts at a digit. -/
  | malformed (text : List Char)

namespace Scanned

def token? : Scanned → Option Token
  | token t => some t
  | _ => none

def fault? : Scanned → Option (Int × LexicalError)
  | fault line e => some (line, e)
  | _ => none

end Scanned

def isDigit (c : Char) : Bool := decide ('0' ≤ c ∧ c ≤ '9')

def isAlpha (c : Char) : Bool := decide ('a' ≤ c ∧ c ≤ 'z' ∨ 'A' ≤ c ∧ c ≤ 'Z' ∨ c = '_')

def isAlphaNumeric (c : Char) : Bool := isAlpha c || isDigit c

structure Scanner where
  /-- How many characters lie before the lexeme. -/
  start : Nat
  taken : List Char
  rest : List Char
  line : Int

namespace Scanner

def ofSource (source : List Char) : Scanner := ⟨0, [], source, 1⟩

/-- How many characters lie before the scanner. -/
def current (s : Scanner) : Nat := s.start + s.taken.length

def beginLexeme (s : Scanner) : Scanner := { s with start := s.current, taken := [] }

/-- Move over `piece`, the first part of the rest, to what follows it. -/
def moveOver (s : Scanner) (piece rest : List Char) : Scanner :=
  { s with taken := s.taken ++ piece, rest := rest }

def moveOverLines (s : Scanner) (piece rest : List Char) : Scanner :=
  { s.moveOver piece rest with line := s.line + piece.count '\n' }

def advance? (s : Scanner) : Option (Char × Scanner) :=
  match s.rest with
  | [] => none
  | c :: cs => some (c, s.moveOver [c] cs)

def accept (s : Scanner) (expected : Char) : Bool × Scanner :=
  match s.rest with
  | [] => (false, s)
  | c :: cs => if c = expected then (true, s.moveOver [c] cs) else (false, s)

/-- The next character; NUL at the end. -/
def peek (s : Scanner) : Char := s.rest.head?.getD '\x00'

def peekNext (s : Scanner) : Char := (s.rest.drop 1).head?.getD '\x00'

def token (s : Scanner) (kind : Kind) (literal : Value) : Token :=
  ⟨kind, String.ofList s.taken, literal, s.line⟩

def emit (s : Scanner) (kind : Kind) : Scanner × Option Scanned :=
  (s, some (.token (s.token kind .nil)))

/-- Move to the end of the line, or of the source. -/
def lineComment (s : Scanner) : Scanner :=
  s.moveOver (s.rest.takeWhile (· != '\n')) (s.rest.dropWhile (· != '\n'))

/-- The rest of a block comment and what follows its end; `done` is what has been seen of it, the
latest first. The last part tells whether it has an end. -/
def splitComment (done : List Char) : List Char → List Char × List Char × Bool
  | '*' :: '/' :: cs => (('/' :: '*' :: done).reverse, cs, true)
  | [] => (done.reverse, [], false)
  | c :: cs => splitComment (c :: done) cs

def blockComment (s : Scanner) : Scanner × Option Scanned :=
  let (piece, rest, closed) := splitComment [] s.rest
  let s := s.moveOverLines piece rest
  (s, if closed then none else some (.fault s.line .unterminatedComment))

/-- Read a string up to its closing quote. Its value is the lexeme without its first and last
character. -/
def string (s : Scanner) : Scanner × Option Scanned :=
  let s := s.moveOverLines (s.rest.takeWhile (· != '"')) (s.rest.dropWhile (· != '"'))
  match s.rest with
  | [] => (s, some (.fault s.line .unterminatedString))
  | quote :: rest =>
    let s := s.moveOver [quote] rest
    (s, some (.token (s.token .string (.string (String.ofList (s.taken.drop 1).dropLast)))))

/-- Digits, and a point with digits after it; what follows them. -/
def splitNumber (cs : List Char) : List Char × List Char :=
  let whole := cs.takeWhile isDigit
  match cs.dropWhile isDigit with
  | '.' :: c :: rest =>
    if isDigit c then
      (whole ++ '.' :: (c :: rest).takeWhile isDigit, (c :: rest).dropWhile isDigit)
    else (whole, '.' :: c :: rest)
  | rest => (whole, rest)

def number (s : Scanner) : Scanner × Option Scanned :=
  let (piece, rest) := splitNumber s.rest
  let s := s.moveOver piece rest
  match Number.readFloat? s.taken with
  | some x => (s, some (.token (s.token .number (.double x))))
  | none => (s, some (.malformed s.taken))

def identifier (s : Scanner) : Scanner × Option Scanned :=
  let s := s.moveOver (s.rest.takeWhile isAlphaNumeric) (s.rest.dropWhile isAlphaNumeric)
  s.emit ((Kind.keyword? (String.ofList s.taken)).getD .identifier)

def operator (s : Scanner) (short long : Kind) : Scanner × Option Scanned :=
  let (found, s) := s.accept '='
  s.emit (if found then long else short)

def slash (s : Scanner) : Scanner × Option Scanned :=
  match s.accept '/' with
  | (true, s) => (s.lineComment, none)
  | (false, s) =>
    match s.accept '*' with
    | (true, s) => s.blockComment
    | (false, s) => s.emit .slash

/-- Read the lexeme that starts with `c`, which the scanner has just moved over. -/
def lexeme (s : Scanner) (c : Char) : Scanner × Option Scanned :=
  match c with
  | '(' => s.emit .leftParen
  | ')' => s.emit .rightParen
  | '{' => s.emit .leftBrace
  | '}' => s.emit .rightBrace
  | ',' => s.emit .comma
  | '.' => s.emit .dot
  | '-' => s.emit .minus
  | '+' => s.emit .plus
  | ';' => s.emit .semicolon
  | '*' => s.emit .star
  | '?' => s.emit .questionMark
  | ':' => s.emit .colon
  | '!' => s.operator .bang .bangEqual
  | '=' => s.operator .equal .equalEqual
  | '<' => s.operator .less .lessEqual
  | '>' => s.operator .greater .greaterEqual
  | '/' => s.slash
  | '"' => s.string
  | '\n' => ({ s with line := s.line + 1 }, none)
  | ' ' => (s, none)
  | '\t' => (s, none)
  | '\r' => (s, none)
  | c =>
    if isDigit c then s.number
    else if isAlpha c then s.identifier
    else (s, some (.fault s.line .unexpectedCharacter))

/-- Read one lexeme; `none` at the end of the source. -/
def step? (s : Scanner) : Option (Scanner × Option Scanned) :=
  s.advance?.map fun (c, s) => s.lexeme c

end Scanner
end Lox
