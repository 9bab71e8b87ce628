import Lox.Run.Operator
import Lox.Run.Scope

/-! # Running a program

A machine is an environment and what has been printed. An action either ends with a result or fails;
both leave a machine, so what a failed program printed and declared remains. `depth` bounds how deep
the nodes of a tree may stand inside one another, and `rounds` how often each loop may run.
-/

namespace Lox

structure Machine where
  env : Env
  /-- The printed lines, the latest first. -/
  printed : List String

/-- An action on a machine, with its result or failure. -/
abbrev Action (α : Type) := EStateM Failure Machine α

namespace Action

def ofExcept {α : Type} : Except Failure α → Action α
  | .ok a => pure a
  | .error f => throw f

def modifyEnv (f : Env → Env) : Action Unit := modify fun m => { m with env := f m.env }

def lookUp (name : Token) : Action Value := do
  match (← get).env.get? name.lexeme with
  | some v => return v
  | none => throw (.problem name (.undefinedVariable name.lexeme))

def assign (name : Token) (v : Value) : Action Unit := do
  match (← get).env.assign? name.lexeme v with
  | some env => modify fun m => { m with env := env }
  | none => throw (.problem name (.undefinedVariable name.lexeme))

def printLine (text : String) : Action Unit :=
  modify fun m => { m with printed := text :: m.printed }

/-- Run an action in a scope of its own, which is left however the action ends. -/
def inScope (action : Action Unit) : Action Unit := fun m =>
  match action { m with env := m.env.push } with
  | .ok _ m' => .ok () { m' with env := m'.env.pop }
  | .error f m' => .error f { m' with env := m'.env.pop }

/-- Run `body` as long as `condition` holds, at most `rounds` times. -/
def repeatWhile (condition : Action Bool) (body : Action Unit) : (rounds : Nat) → Action Unit
  | 0 => throw .outOfRounds
  | rounds + 1 => do
    if ← condition then
      body
      repeatWhile condition body rounds

end Action

def Expr.eval : (depth : Nat) → Expr → Action Value
  | 0, _ => throw .tooDeep
  | _ + 1, .literal v => return v
  | depth + 1, .grouping e => e.eval depth
  | depth + 1, .unary operator e => do
    let v ← e.eval depth
    Action.ofExcept (Operator.unary operator v)
  | depth + 1, .binary left operator right => do
    let l ← left.eval depth
    let r ← right.eval depth
    Action.ofExcept (Operator.binary operator l r)
  | depth + 1, .logical left operator right => do
    let l ← left.eval depth
    if l.isTruthy == (operator.kind == .kwOr) then return l else right.eval depth
  | depth + 1, .ternary condition left right => do
    let c ← condition.eval depth
    if c.isTruthy then left.eval depth else right.eval depth
  | _ + 1, .var name => Action.lookUp name
  | depth + 1, .assign name e => do
    let v ← e.eval depth
    Action.assign name v
    return v
  | _ + 1, .call .. => throw (.unsupported .calls)
  | _ + 1, .get .. => throw (.unsupported .properties)
  | _ + 1, .set .. => throw (.unsupported .propertyAssignment)
  | _ + 1, .super .. => throw (.unsupported .super)
  | _ + 1, .this _ => throw (.unsupported .this)
  | _ + 1, .blank => throw (.blank .blankExpr)
  | _ + 1, .missing => throw .missing

def Stmt.exec (rounds : Nat) : (depth : Nat) → Stmt → Action Unit
  | _, .failed => return ()
  | 0, _ => throw .tooDeep
  | depth + 1, .expression e => discard (e.eval depth)
  | depth + 1, .print e => do
    let v ← e.eval depth
    let text ← Action.ofExcept (Failure.ofOverflow v.display)
    Action.printLine text
  | depth + 1, .declare name initializer => do
    let v ← match initializer with
      | none => pure .nil
      | some e => e.eval depth
    Action.modifyEnv (Env.define name.lexeme v)
  | depth + 1, .block body => Action.inScope (body.forM (Stmt.exec rounds depth))
  | depth + 1, .branch condition whenTrue whenFalse => do
    let c ← condition.eval depth
    if c.isTruthy then whenTrue.exec rounds depth
    else
      match whenFalse with
      | none => return ()
      | some s => s.exec rounds depth
  | depth + 1, .loop condition body =>
    Action.repeatWhile (Value.isTruthy <$> condition.eval depth) (body.exec rounds depth) rounds
  | _ + 1, .function .. => throw (.unsupported .functions)
  | _ + 1, .classDef .. => throw (.unsupported .classes)
  | _ + 1, .giveBack .. => throw (.unsupported .returns)
  | depth + 1, .loose e => discard (e.eval depth)
  | _ + 1, .blank => throw (.blank .blankStmt)
  | _ + 1, .blankNode => throw (.blank .blankNode)

/-- How far a program may go: how deep its source is read, how deep its trees are run, and how often
each loop. -/
structure Limits where
  nesting : Nat
  depth : Nat
  rounds : Nat

/-- The first token of a statement; one of kind `eof` if it has none. -/
def Stmt.firstToken (s : Stmt) : Token := (Outline.firstToken? [s.outline]).getD (Token.eof 1)

/-- Run a statement of a program. One that is nested too deeply is the program's own problem, at its
first token. -/
def Stmt.run (limits : Limits) (s : Stmt) : Action Unit := fun m =>
  match s.exec limits.rounds limits.depth m with
  | .error .tooDeep m' => .error (.problem s.firstToken .stackOverflow) m'
  | outcome => outcome

def Program.run (limits : Limits) (p : Program) : Action Unit := p.forM (Stmt.run limits)

end Lox
