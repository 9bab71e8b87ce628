/-! # Doubles as exact numbers

A finite double is a whole number of units of `2 ^ (-1074)`, the least positive double. Its bits
below the sign are its magnitude: they order the doubles of one sign by size. `nearest` goes the
other way, from a quotient of naturals to the magnitude of the double next to it.
-/

namespace Lox.Double

def signBit : Nat := Nat.pow 2 63

/-- How many magnitudes there are from one power of two up to the next. -/
def binade : Nat := Nat.pow 2 52

/-- The magnitude of the infinities: finite doubles lie below it, and what lies above it is no
number. -/
def infinite : Nat := 2047 * binade

/-- How many units make one. -/
def unitsPerOne : Nat := Nat.pow 2 1074

def magnitude (x : Float) : Nat := x.toBits.toNat % signBit

def isNegative (x : Float) : Bool := decide (signBit ≤ x.toBits.toNat)

def ofMagnitude (negative : Bool) (g : Nat) : Float :=
  Float.ofBits (UInt64.ofNat (if negative then signBit + g else g))

/-- What is no number, without a sign. -/
def nan : Float := ofMagnitude false (infinite + binade / 2)

def units (g : Nat) : Nat :=
  if g < binade then g else (binade + g % binade) * Nat.pow 2 (g / binade - 1)

/-- The largest magnitude that has at most `q` units. -/
def floorMagnitude (q : Nat) : Nat :=
  let shift := q.log2 - 52
  shift * binade + q / Nat.pow 2 shift

/-- The magnitude of the double nearest to `num / den`. A tie goes to the even magnitude, and what
rounds past the last finite double goes to infinity. -/
def nearest (num den : Nat) : Nat :=
  let target := num * unitsPerOne
  let g := floorMagnitude (target / den)
  if infinite ≤ g then infinite
  else
    let middle := (units g + units (g + 1)) * den
    if 2 * target < middle then g
    else if middle < 2 * target then g + 1
    else g + g % 2

end Lox.Double
