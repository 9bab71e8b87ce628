import Lox.Number.Reading

/-! # Numbers

A number is a double or, in hand-made programs only, a whole number of any size. Whole numbers are
added, subtracted and multiplied exactly; with a double they become the nearest double first. Order
and equality are those of the exact values, also between a whole number and a double.
-/

namespace Lox

inductive Number
  | double (x : Float)
  | whole (n : Int)
  deriving DecidableEq

/-- A whole number, or a quotient of whole numbers, past the last finite double. -/
inductive Overflow
  | whole
  | quotient
  deriving DecidableEq

def Overflow.message : Overflow → String
  | .whole => "int too large to convert to float"
  | .quotient => "integer division result too large for a float"

/-- A place on the number line with its two ends: `side` is 0 except at the ends, and `units` is 0
there. -/
structure Place where
  side : Int
  units : Int
  deriving DecidableEq

def Place.compare (p q : Place) : Ordering :=
  (Ord.compare p.side q.side).then (Ord.compare p.units q.units)

/-- Where a double lies; `none` for what is no number. -/
def Double.place? (x : Float) : Option Place :=
  let g := magnitude x
  let sign : Int := if isNegative x then -1 else 1
  if infinite < g then none
  else if g = infinite then some ⟨sign, 0⟩
  else some ⟨0, sign * units g⟩

namespace Number

def place? : Number → Option Place
  | double x => Double.place? x
  | whole n => some ⟨0, n * Double.unitsPerOne⟩

/-- The order of two numbers; `none` if one of them is no number. -/
def compare? (a b : Number) : Option Ordering :=
  match a.place?, b.place? with
  | some p, some q => some (p.compare q)
  | _, _ => none

def beq (a b : Number) : Bool := a.compare? b == some .eq

def lt (a b : Number) : Bool := a.compare? b == some .lt

def le (a b : Number) : Bool :=
  match a.compare? b with
  | some o => o.isLE
  | none => false

def toDouble : Number → Except Overflow Float
  | double x => .ok x
  | whole n =>
    let g := Double.nearest n.natAbs 1
    if Double.infinite ≤ g then .error .whole else .ok (Double.ofMagnitude (decide (n < 0)) g)

/-- An operation that is exact on whole numbers and works on doubles otherwise. -/
def combine (exact : Int → Int → Int) (rounded : Float → Float → Float) (a b : Number) :
    Except Overflow Number :=
  match a, b with
  | whole m, whole n => .ok (whole (exact m n))
  | a, b => do
    let x ← a.toDouble
    let y ← b.toDouble
    return double (rounded x y)

def add : Number → Number → Except Overflow Number := combine (· + ·) (· + ·)

def sub : Number → Number → Except Overflow Number := combine (· - ·) (· - ·)

def mul : Number → Number → Except Overflow Number := combine (· * ·) (· * ·)

def isZero (a : Number) : Bool := a.beq (whole 0)

/-- The quotient, for a divisor other than zero: of whole numbers the double nearest to the exact
quotient. -/
def div (a b : Number) : Except Overflow Number :=
  match a, b with
  | whole m, whole n =>
    let g := Double.nearest m.natAbs n.natAbs
    if Double.infinite ≤ g then .error .quotient
    else .ok (double (Double.ofMagnitude (decide (m < 0) != decide (n < 0)) g))
  | a, b => do
    let x ← a.toDouble
    let y ← b.toDouble
    return double (x / y)

def neg : Number → Number
  | double x => double (-x)
  | whole n => whole (-n)

end Number
end Lox
