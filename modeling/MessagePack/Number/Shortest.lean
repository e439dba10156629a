import MessagePack.Number.Ieee

/-!
The shortest decimal that reads back as a given float.

The numbers that round to `significand * 2 ^ exponent` are an interval around it, with its
ends when the significand is even. On the grid of the decimals with so many digits only the
two neighbours of the float can lie in the interval; the coarsest grid with a hit decides,
and of two hits the nearer one.
-/

namespace MessagePack

/-- `digits * 10 ^ exponent`. -/
structure Decimal where
  digits : Nat
  exponent : Int
  deriving DecidableEq

/-- Which of two neighbours at the same distance is taken. -/
inductive Tie where
  | up
  | even
  deriving DecidableEq

namespace Shortest

/-- `numerator / (denominator * 10 ^ exponent)` as a ratio. -/
def onGrid (numerator denominator : Nat) (exponent : Int) : Nat × Nat :=
  match exponent with
  | .ofNat up => (numerator, denominator * Nat.pow 10 up)
  | .negSucc down => (numerator * Nat.pow 10 (down + 1), denominator)

def digitCount (n : Nat) : Nat :=
  (Nat.toDigits 10 n).length

/-- The exponent of the leading digit of a positive ratio. -/
def leadingExponent (numerator denominator : Nat) : Int :=
  if denominator ≤ numerator then
    digitCount (numerator / denominator) - 1
  else
    -digitCount ((denominator - 1) / numerator)

/-- The interval of a float in quarters of its last bit, as offsets below and above. -/
def quartersBelow (format : Ieee) (significand : Nat) (exponent : Int) : Nat :=
  if significand = Nat.pow 2 format.fractionBits ∧ exponent ≠ format.leastExponent then 1 else 2

/-- The neighbour on the grid of `10 ^ k` that reads back, if there is one. -/
def onGrid? (format : Ieee) (tie : Tie) (significand : Nat) (exponent k : Int) : Option Nat :=
  let (unit, base) := Ieee.scaled 1 1 (2 - exponent)
  let (quarter, whole) := onGrid unit base k
  let value := 4 * significand * quarter
  let least := value - quartersBelow format significand exponent * quarter
  let greatest := value + 2 * quarter
  let inside (n : Nat) : Bool :=
    if significand % 2 = 0 then least ≤ n * whole ∧ n * whole ≤ greatest
    else least < n * whole ∧ n * whole < greatest
  let below := value / whole
  let twice := 2 * (value % whole)
  match inside below, inside (below + 1) with
  | false, false => none
  | true, false => some below
  | false, true => some (below + 1)
  | true, true =>
      if twice < whole then some below
      else if whole < twice then some (below + 1)
      else match tie with
        | .up => some (below + 1)
        | .even => some (below + below % 2)

/-- Seventeen digits always tell two floats apart. -/
def mostDigits : Nat := 17

def stripZeros (fuel : Nat) (decimal : Decimal) : Decimal :=
  match fuel with
  | 0 => decimal
  | fuel + 1 =>
      if decimal.digits % 10 = 0 then
        stripZeros fuel { digits := decimal.digits / 10, exponent := decimal.exponent + 1 }
      else
        decimal

/-- For a positive significand. -/
def decimal (format : Ieee) (tie : Tie) (significand : Nat) (exponent : Int) : Decimal :=
  let (numerator, denominator) := Ieee.scaled significand 1 (-exponent)
  let leading := leadingExponent numerator denominator
  let found := (List.range mostDigits).findSome? fun (n : Nat) =>
    let k := leading - (n : Int)
    (onGrid? format tie significand exponent k).map fun digits =>
      stripZeros (mostDigits + 1) { digits, exponent := k }
  found.getD { digits := 0, exponent := 0 }

end Shortest
end MessagePack
