import FairProgram.Double

/-!
# Shortest decimals

The decimal with the fewest digits that reads back as a given double, and of those the nearest to
it. Every decimal that reads back as the double lies in the interval of numbers nearer to it than to
its neighbours; the coarsest decimal grid that meets the interval holds the answer.
-/

namespace FairProgram.Decimal

open Whole

inductive Tie where
  | up
  | even
deriving DecidableEq

/-- The numbers that read back as a positive double, in quarters of its last binary place, which
`exponent` says as a power of two. Both ends belong to it when `closed`. -/
structure Interval where
  low : Nat
  centre : Nat
  high : Nat
  closed : Bool
  exponent : Int

def Interval.ofDouble (d : Double) : Interval :=
  -- The lower neighbour of a power of two is half as far away as the upper one.
  let boundary := d.mantissa = powTwo 52 ∧ d.exponent ≠ Double.minExponent
  { low := 4 * d.mantissa - (if boundary then 1 else 2)
    centre := 4 * d.mantissa
    high := 4 * d.mantissa + 2
    closed := d.mantissa % 2 == 0
    exponent := d.exponent - 2 }

/-- The multiple of `10 ^ place` in the interval that is nearest to the centre. -/
def Interval.nearest? (i : Interval) (tie : Tie) (place : Int) : Option Nat :=
  let quarter := powTwo i.exponent.toNat * powTen (-place).toNat
  let step := powTen place.toNat * powTwo (-i.exponent).toNat
  let inside (n : Nat) : Bool :=
    if i.closed then i.low * quarter ≤ n * step && n * step ≤ i.high * quarter
    else i.low * quarter < n * step && n * step < i.high * quarter
  -- If any point of the grid lies inside, so does one of the two around the centre.
  let below := i.centre * quarter / step
  let above := below + 1
  let belowGap := i.centre * quarter - below * step
  let aboveGap := above * step - i.centre * quarter
  match inside below, inside above with
  | false, false => none
  | true, false => some below
  | false, true => some above
  | true, true =>
    if belowGap < aboveGap then some below
    else if aboveGap < belowGap then some above
    else match tie with
      | .up => some above
      | .even => some (below + below % 2)

def gridPlaces : List Int :=
  (List.range 640).map fun (i : Nat) => 309 - (i : Int)

/-- The shortest digits of a finite double other than zero, and the decimal place of the last. -/
def shortest (tie : Tie) (d : Double) : Nat × Int :=
  let interval := Interval.ofDouble d
  (gridPlaces.findSome? fun place => (interval.nearest? tie place).map (·, place)).getD (0, 0)

def positional (digits : List Char) (place : Int) : List Char :=
  if 0 ≤ place then digits ++ List.replicate place.toNat '0'
  else
    let places := (-place).toNat
    let padded := digits.leftpad (places + 1) '0'
    padded.take (padded.length - places) ++ '.' :: padded.drop (padded.length - places)

def plain (x : Float) : String :=
  if x.isNaN then "NaN"
  else if x.isInf then (if x < 0 then "-inf" else "inf")
  else
    let d := Double.ofFloat x
    let magnitude :=
      if d.mantissa = 0 then ['0']
      else
        let (digits, place) := shortest .up d
        positional (Nat.toDigits 10 digits) place
    String.ofList (if d.negative then '-' :: magnitude else magnitude)

end FairProgram.Decimal
