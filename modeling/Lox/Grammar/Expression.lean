import Lox.Grammar.Parser

/-! # Reading expressions

From the loosest to the tightest:

    assignment  = ternary ( "=" assignment )?
    ternary     = or ( "?" assignment ":" assignment )?
    or          = and ( "or" and )*
    and         = equality ( "and" equality )*
    equality    = comparison ( ( "!=" | "==" ) comparison )*
    comparison  = term ( ( ">" | ">=" | "<" | "<=" ) term )*
    term        = factor ( ( "-" | "+" ) factor )*
    factor      = unary ( ( "/" | "*" ) unary )*
    unary       = ( "!" | "-" ) unary | primary
    primary     = literal | name | "(" assignment ")"

`Parser.rule depth r` reads by rule `r` with at most `depth` rules inside one another.
-/

namespace Lox

/-- The binary operators by how tightly they bind, the loosest first. -/
inductive Level
  | or | and | equality | comparison | term | factor
  deriving DecidableEq

inductive Rule
  | assignment
  | ternary
  | level (l : Level)
  | unary
  | primary
  deriving DecidableEq

namespace Level

def hasOperator : Level → Kind → Bool
  | or, k => k == .kwOr
  | and, k => k == .kwAnd
  | equality, k => k == .bangEqual || k == .equalEqual
  | comparison, k => k == .greater || k == .greaterEqual || k == .less || k == .lessEqual
  | term, k => k == .minus || k == .plus
  | factor, k => k == .slash || k == .star

def operand : Level → Rule
  | or => .level and
  | and => .level equality
  | equality => .level comparison
  | comparison => .level term
  | term => .level factor
  | factor => .unary

def join : Level → Expr → Token → Expr → Expr
  | or | and => Expr.logical
  | _ => Expr.binary

end Level

namespace Parser

/-- Operators of the level with an operand each, grouped to the left around `left`. One round takes
at least one token, so `clock`, a list no shorter than the tokens, does not run out before them. -/
def chain (l : Level) (operand : Parser Expr) :
    (clock : List Token) → (left : Expr) → Parser Expr
  | [], _ => stop .pastEnd
  | _ :: clock, left => do
    match ← accept l.hasOperator with
    | none => return left
    | some operator =>
      let right ← operand
      chain l operand clock (l.join left operator right)

def assignTo (left : Expr) (equals : Token) (value : Expr) : Parser Expr :=
  match left with
  | .var name => return .assign name value
  | _ => do
    note equals .invalidTarget
    return left

/-- A literal, a name, or what `inner` reads between parentheses. -/
def primary (inner : Parser Expr) : Parser Expr := do
  let t ← peek
  match t.kind with
  | .kwFalse => skip; return .literal (.bool false)
  | .kwTrue => skip; return .literal (.bool true)
  | .kwNil => skip; return .literal .nil
  | .number | .string => skip; return .literal t.literal
  | .identifier => skip; return .var t
  | .leftParen =>
    skip
    let e ← inner
    let _ ← expect .rightParen .expectParenAfterExpression
    return .grouping e
  | _ => raise t .expectExpression

/-- Read an expression by a rule, with at most `depth` rules inside one another. -/
def rule : (depth : Nat) → Rule → Parser Expr
  | 0, _ => stop .tooDeep
  | depth + 1, .assignment => do
    let left ← rule depth .ternary
    match ← accept (· == .equal) with
    | none => return left
    | some equals =>
      let value ← rule depth .assignment
      assignTo left equals value
  | depth + 1, .ternary => do
    let condition ← rule depth (.level .or)
    match ← accept (· == .questionMark) with
    | none => return condition
    | some _ =>
      let left ← rule depth .assignment
      let _ ← expect .colon .expectColonOfTernary
      let right ← rule depth .assignment
      return .ternary condition left right
  | depth + 1, .level l => fun ts =>
    (do
      let left ← rule depth l.operand
      chain l (rule depth l.operand) ts left : Parser Expr) ts
  | depth + 1, .unary => do
    match ← accept (fun k => k == .bang || k == .minus) with
    | some operator =>
      let right ← rule depth .unary
      return .unary operator right
    | none => rule depth .primary
  | depth + 1, .primary => primary (rule depth .assignment)

def expression (depth : Nat) : Parser Expr := rule depth .assignment

end Parser
end Lox
