import Lox.Number.Reading

/-! # Writing doubles

The digits of a double are those of `Decimal.shortest`; a `Layout` says how they are arranged.
`Layout.literal` is the form of number literals in listings and dumps. A program prints the literal
too, but writes it in full and without a point in a whole number.
-/

namespace Lox

structure Layout where
  /-- Whether a number whose first digit stands for `10 ^ e` is written without an exponent. -/
  positional : Int → Bool
  /-- Whether a whole number written without an exponent ends in `.0`. -/
  pointZero : Bool

/-- No exponent from a ten-thousandth up to, but not including, ten to the sixteenth; whole numbers
show a point. -/
def Layout.literal : Layout := ⟨fun e => decide (-4 ≤ e ∧ e < 16), true⟩

namespace Decimal

/-- The digits without the zeros at their end. A zero keeps none. -/
def digits (d : Decimal) : List Char :=
  ((Nat.toDigits 10 d.coefficient).reverse.dropWhile (· == '0')).reverse

/-- How many of the digits stand before the point; negative if zeros follow the point first. -/
def point (d : Decimal) : Int := (Nat.toDigits 10 d.coefficient).length + d.exponent

def wholePart (digits : List Char) (point : Int) : List Char :=
  if point ≤ 0 then ['0']
  else digits.take point.toNat ++ List.replicate (point.toNat - digits.length) '0'

def fractionPart (digits : List Char) (point : Int) : List Char :=
  if point ≤ 0 then List.replicate (-point).toNat '0' ++ digits
  else digits.drop point.toNat

def exponentText (e : Int) : List Char :=
  let ds := Nat.toDigits 10 e.natAbs
  (if e < 0 then '-' else '+') :: (if ds.length < 2 then '0' :: ds else ds)

/-- The text of the number whose digits are `digits`, the first `point` of them before the point. -/
def write (layout : Layout) (digits : List Char) (point : Int) : List Char :=
  if layout.positional (point - 1) then
    let fraction := fractionPart digits point
    wholePart digits point ++
      if fraction = [] then (if layout.pointZero then ['.', '0'] else []) else '.' :: fraction
  else
    digits.take 1 ++ (if digits.length < 2 then [] else '.' :: digits.drop 1)
      ++ 'e' :: exponentText (point - 1)

/-- The text of a decimal without an exponent. -/
def inFull (d : Decimal) : List Char :=
  let ds := Nat.toDigits 10 d.coefficient
  let fraction := fractionPart ds d.point
  wholePart ds d.point ++ if fraction = [] then [] else '.' :: fraction

end Decimal

namespace Number

/-- A numeral, written in full if it has an exponent. -/
def inFull (text : List Char) : List Char :=
  if text.contains 'e' then
    let (negative, body) := splitSign text
    match decimal? body with
    | none => text
    | some d => if negative then '-' :: d.inFull else d.inFull
  else text

/-- A text without the `.0` at its end. -/
def dropPointZero (text : List Char) : List Char :=
  if ['.', '0'].isSuffixOf text then text.take (text.length - 2) else text

end Number

namespace Double

def magnitudeText (layout : Layout) (g : Nat) : List Char :=
  if g = 0 then Decimal.write layout [] 1
  else
    let d := Decimal.shortest g
    Decimal.write layout d.digits d.point

/-- The text of a double: the fewest digits that read back, `inf` and `-inf`, or `nan` without a
sign. -/
def text (layout : Layout) (x : Float) : String :=
  let g := magnitude x
  if infinite < g then "nan"
  else
    let body := if g = infinite then ['i', 'n', 'f'] else magnitudeText layout g
    String.ofList (if isNegative x then '-' :: body else body)

/-- The text that a program prints for a double. -/
def display (x : Float) : String :=
  String.ofList (Number.dropPointZero (Number.inFull (text .literal x).toList))

end Double
end Lox
