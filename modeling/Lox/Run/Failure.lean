import Lox.Tree.Outline

/-! # How a run can fail

A `Problem` is the program's own error and is reported at a token. The other failures end the run as
a whole.
-/

namespace Lox

inductive Problem
  | operandNotNumber
  | divisionByZero
  | cannotAdd (left right : String)
  | undefinedVariable (name : String)
  | unknownUnary
  | unknownBinary
  | stackOverflow
  deriving DecidableEq

def Problem.message : Problem → String
  | operandNotNumber => "Operand must be a number."
  | divisionByZero => "Cannot divide by 0"
  | cannotAdd left right => "Could not add " ++ left ++ " to " ++ right ++ "."
  | undefinedVariable name => "Undefined variable " ++ name
  | unknownUnary => "Unknown unary operator."
  | unknownBinary => "Unknown binary operator."
  | stackOverflow => "Stack overflow."

inductive Feature
  | functions | classes | returns | calls | properties | propertyAssignment | super | this
  deriving DecidableEq

def Feature.message : Feature → String
  | functions => "function declarations are not supported"
  | classes => "class declarations are not supported"
  | returns => "return statements are not supported"
  | calls => "calls are not supported"
  | properties => "property access is not supported"
  | propertyAssignment => "property assignment is not supported"
  | super => "'super' is not supported"
  | this => "'this' is not supported"

inductive Failure
  | problem (token : Token) (p : Problem)
  | unsupported (f : Feature)
  /-- A node that is of no kind. -/
  | blank (kind : NodeKind)
  /-- An expression that is missing. -/
  | missing
  | overflow (o : Overflow)
  /-- The tree is nested deeper than can be run. -/
  | tooDeep
  /-- A loop ran more often than it was given rounds. -/
  | outOfRounds
  deriving DecidableEq

end Lox
