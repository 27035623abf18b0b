import FairProgram.Double

/-!
# Decimals with a fixed number of places

The exact value of a double, rounded half to even at a decimal place. A value that rounds to zero
is written without sign. No literal has more than 65535 places, so a text that holds literals of
more places cannot be written.
-/

namespace FairProgram.Decimal

open Whole

/-- `units · 10 ^ (-places)` with a point and all its places. -/
def unitsText (units places : Nat) : String :=
  let fraction := Nat.toDigits 10 (units % powTen places)
  String.ofList (Nat.toDigits 10 (units / powTen places) ++ '.' :: fraction.leftpad places '0')

/-- The magnitude of a double in units of the last of `places` decimal places. -/
def fixedUnits (d : Double) (places : Nat) : Nat :=
  roundHalfEven (d.numerator * powTen places) d.denominator

def literal (x : Float) (places : Nat) : String :=
  if x.isNaN then "NaN"
  else if x.isInf then (if x < 0 then "-inf" else "inf")
  else
    let d := Double.ofFloat x
    let units := fixedUnits d places
    let magnitude := if places = 0 then toString units else unitsText units places
    if d.negative && units != 0 then "-" ++ magnitude else magnitude

def maxPlaces : Nat := 65535

/-- A number literal, unless it would have too many places. -/
def literal? (x : Float) (places : Nat) : Option String :=
  if maxPlaces < places then none else some (literal x places)

end FairProgram.Decimal
