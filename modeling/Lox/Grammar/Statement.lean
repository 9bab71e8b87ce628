import Lox.Grammar.Expression

/-! # Reading statements

    declaration = "var" name ( "=" expression )? ";" | statement
    statement   = "for" "(" first? condition? ";" step? ")" statement
                | "if" "(" expression ")" statement ( "else" statement )?
                | "print" expression ";"
                | "while" "(" expression ")" statement
                | "{" declaration* "}"
                | expression ";"

A declaration that cannot be read is given up: reading goes on at the next place where a statement
is likely to start. A `for` has no node of its own; it is read as a block with a loop in it.
-/

namespace Lox

def Kind.startsStatement : Kind → Bool
  | .kwClass | .kwFun | .kwVar | .kwFor | .kwIf | .kwWhile | .kwPrint | .kwReturn => true
  | _ => false

/-- The node of a `for`: its first clause and the loop in a scope of their own, its step after the
body of the loop. -/
def Stmt.forLoop (first : Option Stmt) (condition step : Option Expr) (body : Stmt) : Stmt :=
  let body := match step with
    | none => body
    | some e => .block [body, .expression e]
  let loop := Stmt.loop (condition.getD (.literal (.bool true))) body
  match first with
  | none => loop
  | some s => .block [s, loop]

namespace Parser

/-- Move on to the end, to what follows a semicolon, or to a token that starts a statement; `last`
is the token before. -/
def resume (last : Token) : Parser Unit := fun
  | [] => stop .pastEnd []
  | t :: ts =>
    if t.kind = .eof ∨ last.kind = .semicolon ∨ t.kind.startsStatement then ⟨.ok (), t :: ts, []⟩
    else resume t ts

/-- Give up a token, and then all that follows up to the next likely start of a statement. -/
def synchronize : Parser Unit := fun
  | [] => stop .pastEnd []
  | t :: ts => if t.kind = .eof then ⟨.ok (), t :: ts, []⟩ else resume t ts

/-- What `p` reads, or a failed statement if it raises an error. -/
def recover (p : Parser Stmt) : Parser Stmt := fun ts =>
  match p ts with
  | ⟨.error (.raised _), rest, faults⟩ =>
    let reply := synchronize rest
    ⟨reply.result.map fun _ => .failed, reply.rest, faults ++ reply.faults⟩
  | reply => reply

/-- Statements up to a closing brace, or up to the end, which is an error. As in `chain`, the clock
does not run out. -/
def blockOf (declaration : Parser Stmt) : (clock : List Token) → Parser (List Stmt)
  | [] => stop .pastEnd
  | _ :: clock => do
    if (← check .rightBrace) || (← atEnd) then
      let _ ← expect .rightBrace .expectBraceAfterBlock
      return []
    else
      let s ← declaration
      (s :: ·) <$> blockOf declaration clock

/-- The rest of a declaration after `var`. -/
def variableDeclaration (depth : Nat) : Parser Stmt := do
  let name ← expect .identifier .expectVariableName
  let initializer ← if ← accepts .equal then some <$> expression depth else pure none
  let _ ← expect .semicolon .expectSemicolonAfterDeclaration
  return .declare name initializer

def expressionStatement (depth : Nat) : Parser Stmt := do
  let e ← expression depth
  let _ ← expect .semicolon .expectSemicolonAfterExpression
  return .expression e

def printStatement (depth : Nat) : Parser Stmt := do
  let e ← expression depth
  let _ ← expect .semicolon .expectSemicolonAfterValue
  return .print e

def ifStatement (depth : Nat) (statement : Parser Stmt) : Parser Stmt := do
  let _ ← expect .leftParen .expectParenAfterIf
  let condition ← expression depth
  let _ ← expect .rightParen .expectParenAfterIfCondition
  let whenTrue ← statement
  let whenFalse ← if ← accepts .kwElse then some <$> statement else pure none
  return .branch condition whenTrue whenFalse

def whileStatement (depth : Nat) (statement : Parser Stmt) : Parser Stmt := do
  let _ ← expect .leftParen .expectParenAfterWhile
  let condition ← expression depth
  let _ ← expect .rightParen .expectParenAfterWhileCondition
  let body ← statement
  return .loop condition body

/-- The first clause of a `for` with its semicolon. -/
def firstClause (depth : Nat) : Parser (Option Stmt) := do
  if ← accepts .semicolon then return none
  else if ← accepts .kwVar then some <$> variableDeclaration depth
  else some <$> expressionStatement depth

def forStatement (depth : Nat) (statement : Parser Stmt) : Parser Stmt := do
  let _ ← expect .leftParen .expectParenAfterFor
  let first ← firstClause depth
  let condition ← if ← check .semicolon then pure none else some <$> expression depth
  let _ ← expect .semicolon .expectSemicolonAfterCondition
  let step ← if ← check .rightParen then pure none else some <$> expression depth
  let _ ← expect .rightParen .expectParenAfterClauses
  let body ← statement
  return .forLoop first condition step body

mutual

/-- A declaration or a statement; a failed one if it cannot be read. -/
def declaration : (depth : Nat) → Parser Stmt
  | 0 => stop .tooDeep
  | depth + 1 => recover do
    if ← accepts .kwVar then variableDeclaration depth else statement depth

def statement : (depth : Nat) → Parser Stmt
  | 0 => stop .tooDeep
  | depth + 1 => do
    if ← accepts .kwFor then forStatement depth (statement depth)
    else if ← accepts .kwIf then ifStatement depth (statement depth)
    else if ← accepts .kwPrint then printStatement depth
    else if ← accepts .kwWhile then whileStatement depth (statement depth)
    else if ← accepts .leftBrace then fun ts =>
      (.block <$> blockOf (declaration depth) ts : Parser Stmt) ts
    else expressionStatement depth

end

def block (depth : Nat) : Parser (List Stmt) := fun ts => blockOf (declaration depth) ts ts

/-- A declaration of a program. One that is nested too deeply is given up at the token where that
shows. -/
def topLevel (depth : Nat) : Parser Stmt := fun ts =>
  match declaration depth ts with
  | ⟨.error .tooDeep, rest, faults⟩ =>
    let reply := (do
      note (← peek) .tooDeep
      synchronize
      return .failed : Parser Stmt) rest
    { reply with faults := faults ++ reply.faults }
  | reply => reply

/-- All declarations up to the end. As in `chain`, the clock does not run out. -/
def programOf (depth : Nat) : (clock : List Token) → Parser Program
  | [] => stop .pastEnd
  | _ :: clock => do
    if ← atEnd then return []
    else
      let s ← topLevel depth
      (s :: ·) <$> programOf depth clock

def program (depth : Nat) : Parser Program := fun ts => programOf depth ts ts

end Parser

/-- How many rules may stand inside one another, unless another limit is set. -/
def nestingLimit : Nat := 5000

/-- Read a program from tokens that end with one of kind `eof`. -/
def parse (tokens : List Token) (nesting : Nat := nestingLimit) : Reply Program :=
  Parser.program nesting tokens

end Lox
