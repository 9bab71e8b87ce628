/-! # Decoding UTF-8

`decode` turns bytes into characters or tells the first bytes that are not UTF-8, and what is wrong
with them. Overlong forms, surrogates and code points past the last one are refused at their second
byte.
-/

namespace Lox.Text

inductive DecodeProblem
  | startByte
  | continuationByte
  | unexpectedEnd
  deriving DecidableEq

def DecodeProblem.message : DecodeProblem → String
  | startByte => "invalid start byte"
  | continuationByte => "invalid continuation byte"
  | unexpectedEnd => "unexpected end of data"

structure DecodeError where
  byte : UInt8
  position : Nat
  length : Nat
  problem : DecodeProblem
  deriving DecidableEq

def hexByte (b : UInt8) : String :=
  let ds := Nat.toDigits 16 b.toNat
  String.ofList (if ds.length < 2 then '0' :: ds else ds)

def DecodeError.message (e : DecodeError) : String :=
  let first := toString e.position
  let last := toString (e.position + e.length - 1)
  "'utf-8' codec can't decode "
    ++ (if e.length = 1 then "byte 0x" ++ hexByte e.byte ++ " in position " ++ first
        else "bytes in position " ++ first ++ "-" ++ last)
    ++ ": " ++ e.problem.message

def isContinuation (b : UInt8) : Bool := decide (0x80 ≤ b ∧ b < 0xc0)

/-- How many bytes a character takes that starts with this byte. -/
def sequenceLength? (b : UInt8) : Option Nat :=
  if b < 0x80 then some 1
  else if b < 0xc2 then none
  else if b < 0xe0 then some 2
  else if b < 0xf0 then some 3
  else if b < 0xf5 then some 4
  else none

/-- Whether a second byte can follow a first one. -/
def isSecond (first second : UInt8) : Bool :=
  isContinuation second &&
    (if first = 0xe0 then decide (0xa0 ≤ second)
     else if first = 0xed then decide (second < 0xa0)
     else if first = 0xf0 then decide (0x90 ≤ second)
     else if first = 0xf4 then decide (second < 0x90)
     else true)

/-- The bytes after the first one that fit, of the `wanted` that should follow it. -/
def following (first : UInt8) (wanted : Nat) (bytes : List UInt8) : List UInt8 :=
  match bytes.take wanted with
  | [] => []
  | second :: others =>
    if isSecond first second then second :: others.takeWhile isContinuation else []

def codePoint (first : UInt8) (others : List UInt8) : Nat :=
  let top :=
    match others.length with
    | 0 => first.toNat
    | 1 => first.toNat - 0xc0
    | 2 => first.toNat - 0xe0
    | _ => first.toNat - 0xf0
  others.foldl (fun n b => n * 64 + (b.toNat - 0x80)) top

/-- Decode one character; `none` after the last. The position counts the bytes before. -/
def decodeChar (position : Nat) : List UInt8 → Except DecodeError (Option (Char × Nat))
  | [] => .ok none
  | b :: bs =>
    match sequenceLength? b with
    | none => .error ⟨b, position, 1, .startByte⟩
    | some n =>
      let others := following b (n - 1) bs
      if others.length = n - 1 then .ok (some (Char.ofNat (codePoint b others), n))
      else if others.length = bs.length then .error ⟨b, position, bs.length + 1, .unexpectedEnd⟩
      else .error ⟨b, position, others.length + 1, .continuationByte⟩

/-- Decode all bytes; `done` holds the characters before, the latest first. -/
def decodeFrom (position : Nat) (done : List Char) (bytes : List UInt8) :
    Except DecodeError (List Char) :=
  match bytes with
  | [] => .ok done.reverse
  | b :: bs =>
    match decodeChar position (b :: bs) with
    | .error e => .error e
    | .ok none => .ok done.reverse
    | .ok (some (c, n)) => decodeFrom (position + n) (c :: done) (bs.drop (n - 1))
termination_by bytes.length
decreasing_by simp only [List.length_cons, List.length_drop]; omega

def decode (bytes : ByteArray) : Except DecodeError String :=
  (decodeFrom 0 [] bytes.toList).map String.ofList

/-- Add a character, the latest first, with every line end as a newline; the flag tells of a return
just before. -/
def addUnified : Bool × List Char → Char → Bool × List Char
  | (afterReturn, done), c =>
    if c = '\r' then (true, '\n' :: done)
    else if afterReturn ∧ c = '\n' then (false, done)
    else (false, c :: done)

/-- The text with every line end, a newline, a return or both, as a newline. -/
def unifyNewlines (text : String) : String :=
  String.ofList (text.toList.foldl addUnified (false, [])).2.reverse

/-- The lines of a text; what follows the last newline is a line unless it is empty. -/
def lines (text : String) : List String :=
  let pieces := text.splitOn "\n"
  if pieces.getLast? = some "" then pieces.dropLast else pieces

end Lox.Text
