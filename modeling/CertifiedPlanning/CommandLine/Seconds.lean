import CertifiedPlanning.Json.Basic

/-!
# Time limits as text

A time limit is written as a decimal number of seconds: a sign, digits with an optional point and
an optional exponent, or one of the words for infinity and the invalid number. `Seconds.nanos?`
turns it into whole nanoseconds if it is a duration at all.
-/

namespace CertifiedPlanning.Seconds

/-- Splits a sign off. -/
def splitSign : List Char → Bool × List Char
  | '-' :: cs => (true, cs)
  | '+' :: cs => (false, cs)
  | cs => (false, cs)

/-- The exponent after the significand: nothing, or a letter and a whole number. -/
def exponent? : List Char → Option Int
  | [] => some 0
  | c :: cs =>
      let digits := (splitSign cs).2
      if (c == 'e' || c == 'E') && !digits.isEmpty && digits.all (·.isDigit) then
        some (Json.signedValue cs)
      else none

/-- A decimal number without a sign; the point may stand first or last, not alone. -/
def magnitude? (negative : Bool) (cs : List Char) : Option Float :=
  let whole := cs.takeWhile (·.isDigit)
  let rest := cs.dropWhile (·.isDigit)
  let fraction := if rest.head? == some '.' then (rest.drop 1).takeWhile (·.isDigit) else []
  let rest := if rest.head? == some '.' then (rest.drop 1).dropWhile (·.isDigit) else rest
  if whole.isEmpty && fraction.isEmpty then none
  else do
    let x ← exponent? rest
    return nearestFloat negative (Json.digitsValue (whole ++ fraction)) (x - fraction.length)

/-- The number that a text spells. -/
def parse? (s : String) : Option Float :=
  let (negative, cs) := splitSign s.toList
  let word := String.ofList (cs.map Char.toLower)
  let infinity : Float := 1.0 / 0.0
  if word == "inf" || word == "infinity" then some (if negative then -infinity else infinity)
  else if word == "nan" then some (0.0 / 0.0)
  else magnitude? negative cs

/-- Nanoseconds of a duration in seconds, rounded to the nearest; a negative, infinite or invalid
number is no duration, nor is one of 2 to the 64 seconds or more. -/
def nanos? (seconds : Float) : Option Nat :=
  match BinaryValue.ofFloat seconds with
  | .finite negative m q _ =>
      if m = 0 then some 0
      else if negative || decide (18446744073709551616.0 ≤ seconds) then none
      else
        let (n, d) := Decimal.quotient m q (-9)
        some (Decimal.roundQuotient .toEven n d)
  | _ => none

end CertifiedPlanning.Seconds
