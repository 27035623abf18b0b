import FairProgram.Json.Fault
import FairProgram.Json.Value
import FairProgram.Whole

/-!
# Numbers of JSON text

Digits are gathered in a 64-bit word, and those that no longer fit only count as places. The word as
a double is then scaled by a power of ten, which rounds once more: the result can be one unit off
the nearest double.
-/

namespace FairProgram.Json

/-- Gathers digits behind those of a number, as long as it does not pass `limit`. Gives the number
and the digits left. -/
def gatherDigits (limit n : Nat) : List UInt8 → Nat × List UInt8
  | [] => (n, [])
  | b :: rest =>
    let next := 10 * n + Byte.digit b
    if limit < next then (n, b :: rest) else gatherDigits limit next rest

def powerOfTen (exponent : Nat) : Float :=
  Float.ofScientific 1 false exponent

/-- Divides by a power of ten, at most 308 places at a time. -/
def scaleDown (x : Float) (places : Nat) : Float :=
  if places ≤ 308 then x / powerOfTen places
  else if x == 0 then x
  else scaleDown (x / powerOfTen 308) (places - 308)
termination_by places

/-- The double of a word times a power of ten, unless it is too large. -/
def scale? (word : Nat) (exponent : Int) : Option Float :=
  let x := Float.ofNat word
  if exponent < 0 then some (scaleDown x exponent.natAbs)
  -- Zero stays zero whatever its exponent.
  else if word = 0 then some 0
  else if 308 < exponent then none
  else
    let scaled := x * powerOfTen exponent.toNat
    if scaled.isInf then none else some scaled

/-- The number of a numeral without point or exponent. Zero with a sign and whole numbers beyond 64
bits are doubles. -/
def wholeNumber (negative : Bool) (word : Nat) : JsonNumber :=
  if !negative then .int word
  else if 0 < word ∧ word ≤ Whole.signedBound then .int (-word)
  else .real (-Float.ofNat word)

structure NumeralParts where
  whole : List UInt8
  fraction : Option (List UInt8)
  exponent : Option (Bool × List UInt8)

/-- The number that a numeral denotes, unless it is too large for a double. -/
def NumeralParts.value? (negative : Bool) (parts : NumeralParts) : Option JsonNumber :=
  let (word, left) := gatherDigits Whole.maxWord 0 parts.whole
  if parts.fraction.isNone && parts.exponent.isNone && left.isEmpty then
    some (wholeNumber negative word)
  else
    let fraction := parts.fraction.getD []
    -- Places of the fraction may still fit where a last whole digit did not.
    let (word, fractionLeft) := gatherDigits Whole.maxWord word fraction
    let places : Int := (left.length : Int) - (fraction.length - fractionLeft.length : Nat)
    let exponent : Int := match parts.exponent with
      | none => 0
      | some (true, digits) => -(Byte.ofDigits digits : Int)
      | some (false, digits) => Byte.ofDigits digits
    (scale? word (places + exponent)).map fun x => .real (if negative then -x else x)

abbrev Rest (text : List UInt8) := { rest : List UInt8 // rest.length ≤ text.length }

abbrev Shorter (text : List UInt8) := { rest : List UInt8 // rest.length < text.length }

def afterDigits (text : List UInt8) : Rest text :=
  ⟨text.dropWhile Byte.isDigit, (List.dropWhile_sublist _).length_le⟩

def takeSign : List UInt8 → Bool × List UInt8
  | Byte.minus :: rest => (true, rest)
  | Byte.plus :: rest => (false, rest)
  | rest => (false, rest)

theorem length_takeSign_le (text : List UInt8) :
    (takeSign text).2.length ≤ text.length := by
  unfold takeSign
  split <;> simp

/-- The exponent behind its letter: an optional sign and at least one digit. -/
def takeExponent (text : List UInt8) : Except Fault ((Bool × List UInt8) × Rest text) :=
  let rest := (takeSign text).2
  match rest with
  | [] => .error ⟨.endInValue, [], false⟩
  | b :: after =>
    if Byte.isDigit b then
      let left := afterDigits rest
      .ok (((takeSign text).1, rest.takeWhile Byte.isDigit),
        ⟨left.1, Nat.le_trans left.2 (length_takeSign_le text)⟩)
    else .error ⟨.badNumber, after, false⟩

def takeFraction (text : List UInt8) : Except Fault (List UInt8 × Rest text) :=
  match text with
  | [] => .error ⟨.endInValue, [], false⟩
  | b :: rest =>
    if Byte.isDigit b then .ok ((b :: rest).takeWhile Byte.isDigit, afterDigits (b :: rest))
    else .error ⟨.badNumber, b :: rest, true⟩

/-- The digits before a point: a single zero, or digits that start with another one. -/
def takeWhole (text : List UInt8) : Except Fault (List UInt8 × Shorter text) :=
  match text with
  | [] => .error ⟨.endInValue, [], false⟩
  | b :: rest =>
    let left := afterDigits rest
    let shorter : Shorter (b :: rest) := ⟨left.1, Nat.lt_succ_of_le left.2⟩
    if b = Byte.zero then
      if left.1.length < rest.length then .error ⟨.badNumber, rest, true⟩
      else .ok ([Byte.zero], shorter)
    else if Byte.isDigit b then .ok (b :: rest.takeWhile Byte.isDigit, shorter)
    else .error ⟨.badNumber, rest, false⟩

def takeOptionalFraction (text : List UInt8) :
    Except Fault (Option (List UInt8) × Rest text) :=
  match text with
  | Byte.point :: after => do
    let (digits, rest) ← takeFraction after
    return (some digits, ⟨rest.1, Nat.le_succ_of_le rest.2⟩)
  | text => .ok (none, ⟨text, Nat.le_refl _⟩)

def takeOptionalExponent (text : List UInt8) :
    Except Fault (Option (Bool × List UInt8) × Rest text) :=
  match text with
  | Byte.letterE :: after | Byte.capitalE :: after => do
    let (exponent, rest) ← takeExponent after
    return (some exponent, ⟨rest.1, Nat.le_succ_of_le rest.2⟩)
  | text => .ok (none, ⟨text, Nat.le_refl _⟩)

def maxExponent : Nat := 2147483647

/-- A number too large is noticed behind it, or already at the digit of its exponent that passes the
greatest one. -/
def tooLarge (exponent : Option (Bool × List UInt8)) (rest : List UInt8) : Fault :=
  let digits := (exponent.map (·.2)).getD []
  match (gatherDigits maxExponent 0 digits).2 with
  | [] => ⟨.numberTooLarge, rest, true⟩
  | _ :: left => ⟨.numberTooLarge, left ++ rest, false⟩

def takeNumber (negative : Bool) (text : List UInt8) :
    Except Fault (JsonNumber × Shorter text) := do
  let (whole, afterWhole) ← takeWhole text
  let (fraction, afterFraction) ← takeOptionalFraction afterWhole.1
  let (exponent, rest) ← takeOptionalExponent afterFraction.1
  match NumeralParts.value? negative ⟨whole, fraction, exponent⟩ with
  | none => throw (tooLarge exponent rest.1)
  | some value =>
    return (value, ⟨rest.1, Nat.lt_of_le_of_lt (Nat.le_trans rest.2 afterFraction.2) afterWhole.2⟩)

end FairProgram.Json
