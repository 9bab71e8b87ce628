import Lox.Number.Arithmetic

/-! # Values

What a program computes with: nil, booleans, numbers and strings. `isEqual` is the language's
equality. `sameLiteral` and `alike` compare values as parts of trees and of tokens, where nothing
else than the program's text matters.
-/

namespace Lox

inductive Value
  | nil
  | bool (b : Bool)
  | number (n : Number)
  | string (s : String)
  deriving DecidableEq

namespace Value

def double (x : Float) : Value := number (.double x)

def isNumber : Value → Bool
  | number _ => true
  | _ => false

/-- Everything but nil and false counts as true, zero and the empty string as well. -/
def isTruthy : Value → Bool
  | nil => false
  | bool b => b
  | _ => true

def isEqual : Value → Value → Bool
  | nil, nil => true
  | bool a, bool b => a == b
  | number a, number b => a.beq b
  | string a, string b => a == b
  | _, _ => false

/-- Equality of literals in a tree: a whole number and a double are different literals. -/
def sameLiteral : Value → Value → Bool
  | number (.double _), number (.whole _) => false
  | number (.whole _), number (.double _) => false
  | a, b => a.isEqual b

def asNumber? : Value → Option Number
  | bool b => some (.whole (if b then 1 else 0))
  | number n => some n
  | _ => none

/-- Equality of the values that tokens carry: booleans count as numbers. -/
def alike (a b : Value) : Bool :=
  match a.asNumber?, b.asNumber? with
  | some m, some n => m.beq n
  | _, _ => a.isEqual b

end Value
end Lox
