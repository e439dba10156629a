import MessagePack.Bytes

/-!
Binary floating-point formats, as bit patterns.

A finite pattern stands for `significand * 2 ^ exponent`. `round` gives the pattern nearest to
a ratio of naturals, a tie going to the even significand.
-/

namespace MessagePack

structure Ieee where
  fractionBits : Nat
  exponentBits : Nat
  deriving DecidableEq

namespace Ieee

def single : Ieee := ⟨23, 8⟩

def double : Ieee := ⟨52, 11⟩

inductive Datum where
  | finite (negative : Bool) (significand : Nat) (exponent : Int)
  | infinite (negative : Bool)
  | nan (negative : Bool) (fraction : Nat)
  deriving DecidableEq

/-- The exponent of the smallest positive number. -/
def leastExponent (format : Ieee) : Int :=
  2 - Nat.pow 2 (format.exponentBits - 1) - format.fractionBits

def signBit (format : Ieee) (negative : Bool) : Nat :=
  if negative then Nat.pow 2 (format.fractionBits + format.exponentBits) else 0

def infinity (format : Ieee) : Nat :=
  (Nat.pow 2 format.exponentBits - 1) * Nat.pow 2 format.fractionBits

def datum (format : Ieee) (bits : Nat) : Datum :=
  let fraction := bits % Nat.pow 2 format.fractionBits
  let biased := bits / Nat.pow 2 format.fractionBits % Nat.pow 2 format.exponentBits
  let negative := bits / Nat.pow 2 (format.fractionBits + format.exponentBits) % 2 = 1
  if biased = Nat.pow 2 format.exponentBits - 1 then
    if fraction = 0 then .infinite negative else .nan negative fraction
  else if biased = 0 then
    .finite negative fraction format.leastExponent
  else
    .finite negative (Nat.pow 2 format.fractionBits + fraction) (format.leastExponent + biased - 1)

/-- `numerator / (denominator * 2 ^ exponent)` as a ratio. -/
def scaled (numerator denominator : Nat) (exponent : Int) : Nat × Nat :=
  match exponent with
  | .ofNat up => (numerator, denominator * Nat.pow 2 up)
  | .negSucc down => (numerator * Nat.pow 2 (down + 1), denominator)

/-- The nearest whole number, a half going to the even one. -/
def divideToEven (numerator denominator : Nat) : Nat :=
  let quotient := numerator / denominator
  let twice := 2 * (numerator % denominator)
  if twice < denominator then quotient
  else if denominator < twice then quotient + 1
  else quotient + quotient % 2

/-- The exponent of the leading bit of a positive ratio. -/
def leadingExponent (numerator denominator : Nat) : Int :=
  let guess : Int := numerator.log2 - denominator.log2
  let (above, below) := scaled numerator denominator guess
  if above < below then guess - 1 else guess

def round (format : Ieee) (negative : Bool) (numerator denominator : Nat) : Nat :=
  let magnitude :=
    if numerator = 0 then 0
    else
      let quantum := max format.leastExponent
        (leadingExponent numerator denominator - format.fractionBits)
      let (above, below) := scaled numerator denominator quantum
      (quantum - format.leastExponent).toNat * Nat.pow 2 format.fractionBits +
        divideToEven above below
  format.signBit negative + min magnitude format.infinity

def ofInt (format : Ieee) (value : Int) : Nat :=
  format.round (value < 0) value.natAbs 1

/-- The magnitude of a finite pattern as a ratio. -/
def magnitude (format : Ieee) (bits : Nat) : Nat × Nat :=
  match format.datum bits with
  | .finite _ significand exponent => scaled significand 1 (-exponent)
  | _ => (0, 1)

/-! Arithmetic on finite patterns that are not negative, the result rounded once. -/

def product (format : Ieee) (left right : Nat) : Nat :=
  let (a, b) := format.magnitude left
  let (c, d) := format.magnitude right
  format.round false (a * c) (b * d)

/-- The divisor is not zero. -/
def quotient (format : Ieee) (left right : Nat) : Nat :=
  let (a, b) := format.magnitude left
  let (c, d) := format.magnitude right
  format.round false (a * d) (b * c)

/-- Conversion between formats; a NaN stays one, quiet, with the leading bits it had. -/
def convert (source target : Ieee) (bits : Nat) : Nat :=
  match source.datum bits with
  | .finite negative significand exponent =>
      let (above, below) := scaled significand 1 (-exponent)
      target.round negative above below
  | .infinite negative => target.signBit negative + target.infinity
  | .nan negative fraction =>
      let quiet := Nat.pow 2 (target.fractionBits - 1)
      target.signBit negative + target.infinity + quiet +
        fraction * Nat.pow 2 target.fractionBits / Nat.pow 2 source.fractionBits % quiet

def isNan (format : Ieee) (bits : Nat) : Bool :=
  match format.datum bits with
  | .nan _ _ => true
  | _ => false

end Ieee
end MessagePack
