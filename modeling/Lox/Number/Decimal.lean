import Lox.Number.Double

/-! # Decimal numbers

`Decimal` is a natural number times a power of ten. `Decimal.nearest` reads it as a double, and
`Decimal.shortest` picks, among the decimals that read as a given double, one with the fewest
digits.
-/

namespace Lox

/-- The number `coefficient * 10 ^ exponent`. -/
structure Decimal where
  coefficient : Nat
  exponent : Int
  deriving DecidableEq

namespace Decimal

def nearest (d : Decimal) : Nat :=
  if 0 ≤ d.exponent then Double.nearest (d.coefficient * Nat.pow 10 d.exponent.toNat) 1
  else Double.nearest d.coefficient (Nat.pow 10 (-d.exponent).toNat)

/-- The value of the finite double of magnitude `g`, in full. -/
def exact (g : Nat) : Decimal := ⟨Double.units g * Nat.pow 5 1074, -1074⟩

/-- The place of the first digit of `num / den`, counted from the point: 1 for units, 0 for
tenths. -/
def leadingPlace (num den : Nat) : Int :=
  if den ≤ num then (Nat.toDigits 10 (num / den)).length
  else 1 - (Nat.toDigits 10 ((den - 1) / num)).length

/-- Of the two multiples of `10 ^ k` around the double of magnitude `g`, the nearer one that reads
as it. When both are equally near, the even one. -/
def neighbour? (g : Nat) (k : Int) : Option Decimal :=
  let num := Double.units g * (if k < 0 then Nat.pow 10 (-k).toNat else 1)
  let den := Double.unitsPerOne * (if k < 0 then 1 else Nat.pow 10 k.toNat)
  let c := num / den
  let low : Decimal := ⟨c, k⟩
  let high : Decimal := ⟨c + 1, k⟩
  let lowReads := low.nearest == g
  let highReads := high.nearest == g
  let middle := (2 * c + 1) * den
  if lowReads && highReads then
    if 2 * num < middle then some low
    else if middle < 2 * num then some high
    else some (if c % 2 = 0 then low else high)
  else if lowReads then some low
  else if highReads then some high
  else none

/-- A decimal that reads as the finite double of magnitude `g`: on the coarsest grid that has one.
Seventeen digits always suffice. -/
def shortest (g : Nat) : Decimal :=
  let place := leadingPlace (Double.units g) Double.unitsPerOne
  ((List.range 18).findSome? fun n : Nat => neighbour? g (place - n)).getD (exact g)

end Decimal
end Lox
