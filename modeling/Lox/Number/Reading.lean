import Lox.Number.Decimal
import Lox.Text.Classes

/-! # Reading numerals

`readFloat?` accepts a numeral with an optional sign, point and exponent, white space around it and
single underscores between digits, or a word for infinity or for no number. The double is the
nearest one.
-/

namespace Lox.Number

/-- The magnitude of the double nearest to `d * 10 ^ e`. An exponent that leads far outside the
range of doubles decides by itself. -/
def nearestScaled (d : Decimal) (e : Int) : Nat :=
  let place := (Nat.toDigits 10 d.coefficient).length + d.exponent + e
  if d.coefficient = 0 then 0
  else if 0 < e ∧ 400 < place then Double.infinite
  else if e < 0 ∧ place < -400 then 0
  else Decimal.nearest ⟨d.coefficient, d.exponent + e⟩

/-- Digits of any script as ASCII digits, white space as blanks. -/
def normalise (c : Char) : Char :=
  match Text.digit? c with
  | some n => Char.ofNat ('0'.toNat + n)
  | none => if Text.isBlank c then ' ' else c

def trim (cs : List Char) : List Char :=
  ((cs.dropWhile (· == ' ')).reverse.dropWhile (· == ' ')).reverse

/-- The text without its underscores, if each stands between two digits; `afterDigit` tells what
came before. -/
def dropUnderscores? (afterDigit : Bool) : List Char → Option (List Char)
  | [] => some []
  | '_' :: c :: cs =>
    if afterDigit && c.isDigit then (dropUnderscores? true cs).map (c :: ·) else none
  | c :: cs => if c = '_' then none else (dropUnderscores? c.isDigit cs).map (c :: ·)

def splitSign : List Char → Bool × List Char
  | '-' :: cs => (true, cs)
  | '+' :: cs => (false, cs)
  | cs => (false, cs)

/-- The exponent after a numeral's digits: nothing, or a mark, an optional sign and digits up to the
end. -/
def exponent? : List Char → Option Int
  | [] => some 0
  | mark :: cs =>
    let (negative, ds) := splitSign cs
    if (mark = 'e' ∨ mark = 'E') ∧ ds ≠ [] ∧ ds.all Char.isDigit then
      let n : Int := Nat.ofDigitChars 10 ds 0
      some (if negative then -n else n)
    else none

/-- The digits of a numeral, how many of them stand after the point, and the exponent. -/
def parts? (cs : List Char) : Option (List Char × Nat × Int) :=
  let whole := cs.takeWhile Char.isDigit
  let (fraction, tail) :=
    match cs.dropWhile Char.isDigit with
    | '.' :: ds => (ds.takeWhile Char.isDigit, ds.dropWhile Char.isDigit)
    | ds => ([], ds)
  if whole ++ fraction = [] then none
  else (exponent? tail).map fun e => (whole ++ fraction, fraction.length, e)

def decimal? (cs : List Char) : Option Decimal :=
  (parts? cs).map fun (ds, places, e) => ⟨Nat.ofDigitChars 10 ds 0, e - places⟩

def unsigned? (negative : Bool) (cs : List Char) : Option Float :=
  let word := cs.map Char.toLower
  if word = "inf".toList ∨ word = "infinity".toList then
    some (Double.ofMagnitude negative Double.infinite)
  else if word = "nan".toList then some Double.nan
  else
    (parts? cs).map fun (ds, places, e) =>
      Double.ofMagnitude negative (nearestScaled ⟨Nat.ofDigitChars 10 ds 0, -places⟩ e)

/-- The sign of a numeral and what follows it, in ASCII digits and without blanks around it and
underscores between digits. -/
def prepare? (text : List Char) : Option (Bool × List Char) := do
  let cs := trim (text.map normalise)
  let cs ← if cs.contains '_' then dropUnderscores? false cs else some cs
  return splitSign cs

/-- The double that a text denotes, if it is a numeral. -/
def readFloat? (text : List Char) : Option Float := do
  let (negative, body) ← prepare? text
  unsigned? negative body

/-- The whole number that a text denotes, if it is a numeral of digits alone. -/
def readInt? (text : List Char) : Option Int := do
  let (negative, ds) ← prepare? text
  if ds ≠ [] ∧ ds.all Char.isDigit then
    let n : Int := Nat.ofDigitChars 10 ds 0
    return if negative then -n else n
  else none

end Lox.Number
