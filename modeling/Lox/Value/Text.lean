import Lox.Value.Basic
import Lox.Number.Notation
import Lox.Text.Quoted

/-! # Values as text

A value has three texts: `display` is what a program prints, `literal` what stands in a printed
tree, and `record` what stands in listings of tokens and scopes.
-/

namespace Lox

def Number.literal : Number → String
  | double x => Double.text .literal x
  | whole n => toString n

namespace Value

/-- The text that a program prints. A whole number is shown as the nearest double. -/
def display : Value → Except Overflow String
  | nil => .ok "nil"
  | bool b => .ok (if b then "true" else "false")
  | number n => (n.toDouble).map Double.display
  | string s => .ok s

/-- The text in a printed tree; strings stand bare. -/
def literal : Value → String
  | nil => "nil"
  | bool b => if b then "true" else "false"
  | number n => n.literal
  | string s => s

/-- The text in a listing, where strings may be quoted. -/
def record (quoteStrings : Bool) : Value → String
  | nil => "None"
  | bool b => if b then "True" else "False"
  | number n => n.literal
  | string s => if quoteStrings then Text.quoted s else s

end Value
end Lox
