/-!
# Arithmetic of the statistics

The statistical kernels run on doubles, and their laws are stated in exact arithmetic, so they are
written once over any type with field operations, comparisons and the operations below. Sums go
from left to right: in floating point their order shows in the last bits.
-/

namespace FairProgram

class Scalar (α : Type) where
  ofNat : Nat → α
  /-- The whole part, zero for anything below one. -/
  truncate : α → Nat

class HasLog (α : Type) where
  log : α → α

/-- A double too large for a 64-bit word truncates to the largest word, and one that is not a
number to zero. -/
instance : Scalar Float where
  ofNat := Float.ofNat
  truncate x := x.toUInt64.toNat

instance : HasLog Float where
  log := Float.log

namespace Scalar

section
variable {α : Type} [Scalar α] [Add α] [LT α] [DecidableLT α] [BEq α]

def total (values : List α) : α :=
  values.foldl (· + ·) (ofNat 0)

-- What is not a number gives way to the other value, on both sides.
def least (a b : α) : α :=
  if b < a then b else if a == a then a else b

def greatest (a b : α) : α :=
  if a < b then b else if a == a then a else b

end

end Scalar

end FairProgram
