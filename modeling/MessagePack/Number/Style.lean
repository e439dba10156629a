import MessagePack.Number.Shortest

/-!
How a float is written, given its shortest decimal.
-/

namespace MessagePack

/-- A plain number has a point and a digit on both sides of it. Any other number has its
point behind the first digit, if more follow, and an exponent. -/
structure NumberStyle where
  tie : Tie
  /-- The least and the greatest exponent of the leading digit in a plain number. -/
  leastPlain : Int
  greatestPlain : Int
  /-- What stands before an exponent that is not negative. -/
  exponentSign : String
  nan : String
  infinity : String
  negativeInfinity : String

namespace NumberStyle

def plain (digits : List Char) (leading : Int) : String :=
  if leading < 0 then
    String.ofList ('0' :: '.' :: List.replicate ((-leading).toNat - 1) '0' ++ digits)
  else
    let places := leading.toNat + 1
    let whole := digits.take places ++ List.replicate (places - digits.length) '0'
    let fraction := digits.drop places
    String.ofList (whole ++ '.' :: if fraction = [] then ['0'] else fraction)

def withExponent (style : NumberStyle) (digits : List Char) (leading : Int) : String :=
  let significand := match digits with
    | first :: second :: more => String.ofList (first :: '.' :: second :: more)
    | digits => String.ofList digits
  let sign := if leading < 0 then "-" else style.exponentSign
  s!"{significand}e{sign}{leading.natAbs}"

def positive (style : NumberStyle) (format : Ieee) (significand : Nat) (exponent : Int) :
    String :=
  let decimal := Shortest.decimal format style.tie significand exponent
  let digits := Nat.toDigits 10 decimal.digits
  let leading := decimal.exponent + digits.length - 1
  if style.leastPlain ≤ leading ∧ leading ≤ style.greatestPlain then
    plain digits leading
  else
    style.withExponent digits leading

def render (style : NumberStyle) (format : Ieee) (bits : Nat) : String :=
  match format.datum bits with
  | .nan _ _ => style.nan
  | .infinite negative => if negative then style.negativeInfinity else style.infinity
  | .finite negative significand exponent =>
      let sign := if negative then "-" else ""
      sign ++ if significand = 0 then "0.0" else style.positive format significand exponent

end NumberStyle
end MessagePack
