import FairProgram.Whole

/-!
# Doubles as exact numbers

A finite double is a whole number times a power of two, up to its sign. All text of numbers and all
rounding to whole units goes through this reading, in exact arithmetic.
-/

namespace FairProgram

open Whole

/-- A finite double read exactly: `mantissa · 2 ^ exponent`, negated when `negative`. -/
structure Double where
  negative : Bool
  mantissa : Nat
  exponent : Int

namespace Double

def minExponent : Int := -1074

/-- The fields of a finite double; a zero exponent field marks the values without leading bit. -/
def ofFloat (x : Float) : Double :=
  let bits := x.toBits.toNat
  let fraction := bits % powTwo 52
  let field := bits / powTwo 52 % powTwo 11
  let negative := bits / powTwo 63 == 1
  if field = 0 then ⟨negative, fraction, minExponent⟩
  else ⟨negative, powTwo 52 + fraction, minExponent + (field - 1 : Nat)⟩

def numerator (d : Double) : Nat :=
  d.mantissa * powTwo d.exponent.toNat

def denominator (d : Double) : Nat :=
  powTwo (-d.exponent).toNat

theorem denominator_pos (d : Double) : 0 < d.denominator :=
  powTwo_pos _

end Double

/-- The nearest whole number to `num / den`, a half going up. -/
def roundHalfUp (num den : Nat) : Nat :=
  (2 * num + den) / (2 * den)

/-- The nearest whole number to `num / den`, a half going to the even neighbour. -/
def roundHalfEven (num den : Nat) : Nat :=
  let floor := num / den
  let rest := num % den
  if 2 * rest < den then floor
  else if den < 2 * rest then floor + 1
  else floor + floor % 2

/-- The nearest whole number to a double, a half going away from zero. Nothing below zero and
nothing that is not a finite number has units. -/
def wholeUnits (x : Float) : Nat :=
  let d := Double.ofFloat x
  if x.isFinite && !d.negative then roundHalfUp d.numerator d.denominator else 0

end FairProgram
