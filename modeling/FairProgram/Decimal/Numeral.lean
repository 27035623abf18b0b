/-!
# Reading decimal numerals

A numeral is an optional sign followed by `inf`, `infinity` or `nan` in any case, or by digits with
an optional point among or around them and an optional exponent. It reads as the nearest double.
-/

namespace FairProgram.Decimal

def ofDigits (digits : List Char) : Nat :=
  digits.foldl (fun n c => 10 * n + (c.toNat - '0'.toNat)) 0

/-- The double nearest to `digits · 10 ^ exponent`. Beyond every double the magnitude is infinite
or zero, whatever the exact exponent. -/
def nearest (digits : Nat) (exponent : Int) : Float :=
  if digits = 0 then 0
  else
    let leading : Int := exponent + (Nat.toDigits 10 digits).length
    if 400 < leading then 1 / 0
    else if leading < -400 then 0
    else Float.ofScientific digits (exponent < 0) exponent.natAbs

def splitSign : List Char → Bool × List Char
  | '-' :: rest => (true, rest)
  | '+' :: rest => (false, rest)
  | rest => (false, rest)

/-- The exponent part: nothing, or `e` with an optional sign and at least one digit, to the end. -/
def readExponent? : List Char → Option Int
  | [] => some 0
  | c :: rest =>
    let (negative, digits) := splitSign rest
    if (c == 'e' || c == 'E') && !digits.isEmpty && digits.all Char.isDigit then
      some (if negative then -(ofDigits digits : Int) else ofDigits digits)
    else none

/-- Digits around an optional point, at least one of them, and the exponent part. -/
def readMagnitude? (text : List Char) : Option Float :=
  let whole := text.takeWhile Char.isDigit
  let afterWhole := text.dropWhile Char.isDigit
  let (fraction, rest) := match afterWhole with
    | '.' :: afterPoint => (afterPoint.takeWhile Char.isDigit, afterPoint.dropWhile Char.isDigit)
    | _ => ([], afterWhole)
  let digits := whole ++ fraction
  if digits.isEmpty then none
  else (readExponent? rest).map fun exponent =>
    nearest (ofDigits digits) (exponent - fraction.length)

def read? (text : List Char) : Option Float :=
  let (negative, magnitude) := splitSign text
  let word := String.ofList (magnitude.map Char.toLower)
  let value :=
    if word = "inf" ∨ word = "infinity" then some (1 / 0)
    else if word = "nan" then some (0 / 0)
    else readMagnitude? magnitude
  value.map fun x => if negative then -x else x

end FairProgram.Decimal
