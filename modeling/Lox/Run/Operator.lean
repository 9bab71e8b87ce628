import Lox.Run.Failure

/-! # Operators

What unary and binary operators do with values.
-/

namespace Lox

def Value.toNumber (operator : Token) : Value → Except Failure Number
  | .number n => .ok n
  | _ => .error (.problem operator .operandNotNumber)

def Failure.ofOverflow {α : Type} : Except Overflow α → Except Failure α
  | .ok a => .ok a
  | .error o => .error (.overflow o)

namespace Operator

/-- Numbers are added; a string takes the text of anything. -/
def add (operator : Token) : Value → Value → Except Failure Value
  | .number m, .number n => (Failure.ofOverflow (m.add n)).map .number
  | l, r => do
    let left ← Failure.ofOverflow l.display
    let right ← Failure.ofOverflow r.display
    match l, r with
    | .string _, _ | _, .string _ => return .string (left ++ right)
    | _, _ => .error (.problem operator (.cannotAdd left right))

def onNumbers (operator : Token) (f : Number → Number → Except Failure Value) (l r : Value) :
    Except Failure Value := do
  let m ← l.toNumber operator
  let n ← r.toNumber operator
  f m n

def arithmetic (operator : Token) (f : Number → Number → Except Overflow Number) :
    Value → Value → Except Failure Value :=
  onNumbers operator fun m n => (Failure.ofOverflow (f m n)).map .number

def comparison (operator : Token) (f : Number → Number → Bool) :
    Value → Value → Except Failure Value :=
  onNumbers operator fun m n => .ok (.bool (f m n))

def divide (operator : Token) : Value → Value → Except Failure Value :=
  onNumbers operator fun m n =>
    if n.isZero then .error (.problem operator .divisionByZero)
    else (Failure.ofOverflow (m.div n)).map .number

def binary (operator : Token) (l r : Value) : Except Failure Value :=
  match operator.kind with
  | .plus => add operator l r
  | .minus => arithmetic operator Number.sub l r
  | .star => arithmetic operator Number.mul l r
  | .slash => divide operator l r
  | .greater => comparison operator (fun m n => n.lt m) l r
  | .greaterEqual => comparison operator (fun m n => n.le m) l r
  | .less => comparison operator Number.lt l r
  | .lessEqual => comparison operator Number.le l r
  | .equalEqual => .ok (.bool (l.isEqual r))
  | .bangEqual => .ok (.bool (!l.isEqual r))
  | _ => .error (.problem operator .unknownBinary)

def unary (operator : Token) (v : Value) : Except Failure Value :=
  match operator.kind with
  | .minus => (v.toNumber operator).map fun n => .number n.neg
  | .bang => .ok (.bool (!v.isTruthy))
  | _ => .error (.problem operator .unknownUnary)

end Operator
end Lox
