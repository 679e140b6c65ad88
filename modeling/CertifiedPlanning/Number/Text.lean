import CertifiedPlanning.Number.Decimal

/-!
# Texts of numbers

Three ways to write a number with the fewest digits that read back (`NumeralStyle`), two ways to
write one with a fixed number of digits, and reading a decimal as the nearest floating-point
number.
-/

namespace CertifiedPlanning

/-- How shortest digits are chosen and laid out. -/
structure NumeralStyle where
  /-- Of two equally short decimals that are equally close. -/
  tie : Tie
  /-- Decimal exponents that are written without an exponent. -/
  positional : Int → Bool
  /-- A whole number keeps one fractional digit. -/
  fractional : Bool
  /-- A positive exponent carries a plus sign. -/
  plus : Bool

namespace NumeralStyle

/-- In messages: a tie goes up, never an exponent, no fraction on whole numbers. -/
def message : NumeralStyle := ⟨.up, fun _ => true, false, false⟩

/-- In documents: a tie goes to the even digit, positional from 0.00001 up to below ten to the
sixteenth. -/
def document : NumeralStyle := ⟨.toEven, fun x => decide (-5 ≤ x) && decide (x < 16), true, true⟩

/-- In listings of internal values: a tie goes up, positional from 0.0001 up to below ten to the
sixteenth. -/
def listing : NumeralStyle := ⟨.up, fun x => decide (-4 ≤ x) && decide (x < 16), true, false⟩

end NumeralStyle

namespace Decimal

/-- A row of zeros. -/
def zeros (n : Nat) : String := String.ofList (List.replicate n '0')

/-- Exponent of the leading digit. -/
def leading (d : Decimal) : Int := ((toString d.digits).length : Int) - 1 + d.exponent

/-- All digits in place, around the decimal point. -/
def positional (d : Decimal) (fractional : Bool) : String :=
  let digits := toString d.digits
  if 0 ≤ d.exponent then
    digits ++ zeros d.exponent.toNat ++ (if fractional then ".0" else "")
  else
    let places := (-d.exponent).toNat
    let padded := zeros (places + 1 - digits.length) ++ digits
    let whole := padded.length - places
    String.ofList (padded.toList.take whole) ++ "." ++ String.ofList (padded.toList.drop whole)

/-- One digit before the point and the exponent after the rest. -/
def scientific (d : Decimal) (plus : Bool) : String :=
  let digits := (toString d.digits).toList
  let rest := digits.drop 1
  let x := d.leading
  String.ofList (digits.take 1) ++ (if rest.isEmpty then "" else "." ++ String.ofList rest) ++ "e"
    ++ (if plus && decide (0 ≤ x) then "+" else "") ++ toString x

end Decimal

/-- A minus sign for negative numbers. -/
def signText (negative : Bool) : String := if negative then "-" else ""

/-- The fewest digits that read back, in the given style. -/
def shortestText (style : NumeralStyle) (x : Float) : String :=
  match BinaryValue.ofFloat x with
  | .invalid => "NaN"
  | .infinite negative => signText negative ++ "inf"
  | .finite negative 0 _ _ => signText negative ++ (if style.fractional then "0.0" else "0")
  | .finite negative m q narrow =>
      let d := Decimal.shortest style.tie m q narrow
      signText negative ++
        (if style.positional d.leading then d.positional style.fractional
          else d.scientific style.plus)

/-- Rounded to a fixed number of places after the point; a half goes to the even neighbour, and a
negative number keeps its sign even when it rounds to zero. -/
def fixedText (places : Nat) (x : Float) : String :=
  match BinaryValue.ofFloat x with
  | .invalid => "NaN"
  | .infinite negative => signText negative ++ "inf"
  | .finite negative m q _ =>
      let (n, d) := Decimal.quotient m q (-(places : Int))
      let digits := Decimal.roundQuotient .toEven n d
      signText negative ++ Decimal.positional ⟨digits, -(places : Int)⟩ false

/-- Rounded to one digit before the point and `places` after it, with an exponent. -/
def scientificText (places : Nat) (x : Float) : String :=
  match BinaryValue.ofFloat x with
  | .invalid => "NaN"
  | .infinite negative => signText negative ++ "inf"
  | .finite negative m q _ =>
      let k := if m = 0 then 0 else Decimal.leadingExponent m q
      let (n, d) := Decimal.quotient m q (k - places)
      let rounded := Decimal.roundQuotient .toEven n d
      let (digits, k) :=
        if rounded = Nat.pow 10 (places + 1) then (Nat.pow 10 places, k + 1) else (rounded, k)
      signText negative ++ Decimal.positional ⟨digits, -(places : Int)⟩ false ++ "e" ++ toString k

/-- The floating-point number nearest to `± digits * 10 ^ exponent`. Exponents far outside the
range are decided by their size alone. -/
def nearestFloat (negative : Bool) (digits : Nat) (exponent : Int) : Float :=
  let size := ((toString digits).length : Int) + exponent
  let magnitude : Float :=
    if digits = 0 || decide (size < -400) then 0.0
    else if decide (400 < size) then 1.0 / 0.0
    else Float.ofScientific digits (decide (exponent < 0)) exponent.natAbs
  if negative then -magnitude else magnitude

end CertifiedPlanning
