import MessagePack.Json
import MessagePack.Number.Style

/-!
Numbers in JSON text.

An integer of 64 bits is read exactly. Any other number is cut to the leading digits that fit
64 bits; these are rounded to a double, which is then scaled by a power of ten and rounded
again. So the double read need not be the nearest one to the decimal.
-/

namespace MessagePack.Json

/-- Doubles are plain from 0.00001 up to 10 ^ 16. One that is not a number has no JSON form. -/
def numberStyle : NumberStyle where
  tie := .even
  leastPlain := -5
  greatestPlain := 15
  exponentSign := "+"
  nan := "null"
  infinity := "null"
  negativeInfinity := "null"

/-! The parts of a number. -/

structure Numeral where
  negative : Bool
  /-- Decimal digits, most significant first. -/
  whole : List Nat
  fraction : List Nat
  exponent? : Option Int
  deriving DecidableEq

namespace Numeral

def takeDigits (text : List Char) : List Nat × List Char :=
  ((text.takeWhile Char.isDigit).map fun c => c.toNat - '0'.toNat, text.dropWhile Char.isDigit)

/-- A single zero, or digits that start with another one. -/
def readWhole? (text : List Char) : Option (List Nat × List Char) :=
  match takeDigits text with
  | ([], _) | (0 :: _ :: _, _) => none
  | (digits, rest) => some (digits, rest)

/-- No fraction at all, or at least one digit behind the point. -/
def readFraction? : List Char → Option (List Nat × List Char)
  | '.' :: text =>
      match takeDigits text with
      | ([], _) => none
      | (digits, rest) => some (digits, rest)
  | text => some ([], text)

def readSign : List Char → Bool × List Char
  | '+' :: text => (false, text)
  | '-' :: text => (true, text)
  | text => (false, text)

/-- An exponent that ends the text, if there is one. -/
def readExponent? : List Char → Option (Option Int)
  | [] => some none
  | mark :: text =>
      let (negative, text) := readSign text
      match takeDigits text with
      | (first :: digits, []) =>
          let places := digits.foldl (fun value digit => 10 * value + digit) first
          if mark = 'e' ∨ mark = 'E' then some (some (if negative then -(places : Int) else places))
          else none
      | _ => none

def ofWord? (word : List Char) : Option Numeral := do
  let (negative, body) := match word with
    | '-' :: body => (true, body)
    | body => (false, body)
  let (whole, rest) ← readWhole? body
  let (fraction, rest) ← readFraction? rest
  let exponent? ← readExponent? rest
  return { negative, whole, fraction, exponent? }

/-! The value of a number. -/

/-- Append digits as long as the significand fits 64 bits; answers the digits left over. -/
def gather (significand : Nat) : List Nat → Nat × List Nat
  | [] => (significand, [])
  | digit :: digits =>
      if 10 * significand + digit < UInt64.size then
        gather (10 * significand + digit) digits
      else
        (significand, digit :: digits)

/-- The greatest power of ten that is a finite double. -/
def greatestPower : Nat := 308

def powerOfTen (places : Nat) : Nat :=
  Ieee.double.round false (Nat.pow 10 places) 1

/-- A positive double times a power of ten, unless that is too large for one. -/
def scaleUp? (bits places : Nat) : Option Nat :=
  if bits = 0 then
    some 0
  else if greatestPower < places then
    none
  else
    let product := Ieee.double.product bits (powerOfTen places)
    if product = Ieee.double.infinity then none else some product

/-- A positive double over a power of ten, divided by the greatest power as often as needed. -/
def scaleDown (bits places : Nat) : Nat :=
  if bits = 0 then
    0
  else if _hplaces : greatestPower < places then
    scaleDown (Ieee.double.quotient bits (powerOfTen greatestPower)) (places - greatestPower)
  else
    Ieee.double.quotient bits (powerOfTen places)
termination_by places
decreasing_by
  simp only [greatestPower] at *
  omega

def scale? (bits : Nat) : Int → Option Nat
  | .ofNat places => scaleUp? bits places
  | .negSucc places => some (scaleDown bits (places + 1))

/-- The significand and the power of ten that the digits stand for. -/
def approximation (numeral : Numeral) : Nat × Int :=
  let (whole, dropped) := gather 0 numeral.whole
  let (significand, unused) := gather whole numeral.fraction
  (significand, (numeral.exponent?.getD 0) + dropped.length -
    ((numeral.fraction.length - unused.length : Nat) : Int))

def double? (numeral : Numeral) : Option Json :=
  let (significand, exponent) := numeral.approximation
  (scale? (Ieee.double.round false significand 1) exponent).map fun bits =>
    .double (UInt64.ofNat (Ieee.double.signBit numeral.negative + bits))

/-- A negative zero is a double. -/
def integer? (numeral : Numeral) : Option Json :=
  match numeral.fraction, numeral.exponent?, gather 0 numeral.whole with
  | [], none, (magnitude, []) =>
      if !numeral.negative then
        some (.unsigned (UInt64.ofNat magnitude))
      else if 0 < magnitude ∧ magnitude ≤ Int64.minValue.toInt.natAbs then
        some (.negative (Int64.ofInt (-magnitude)))
      else
        none
  | _, _, _ => none

end Numeral

def number? (word : List Char) : Option Json := do
  let numeral ← Numeral.ofWord? word
  numeral.integer? <|> numeral.double?

end MessagePack.Json
