import FairProgram.Stats.Moments
import FairProgram.Whole

/-!
# Histograms

Counts of values between consecutive edges. A bin holds its left edge and not its right one, except
that the last bin holds both.
-/

namespace FairProgram.Stats

open Scalar

structure Histogram (α : Type) where
  counts : List Nat
  edges : List α

namespace Histogram

section
variable {α : Type} [Scalar α] [Add α] [Sub α] [Mul α] [Div α] [LT α] [LE α] [DecidableLT α]
  [DecidableLE α] [BEq α]

/-- The bin of a value among `bins` bins, from its position in the whole range. -/
def locate (edges : List α) (bins : Nat) (value : α) : Nat :=
  let edge (i : Nat) : α := edges.getD i (ofNat 0)
  let width := edge bins - edge 0
  let scaled := min (truncate ((value - edge 0) / width * ofNat bins)) (bins - 1)
  -- Rounding can put a value one bin off, so the edges decide.
  if value < edge scaled ∧ 0 < scaled then scaled - 1
  else if scaled + 1 < bins ∧ edge (scaled + 1) ≤ value then scaled + 1
  else scaled

/-- The bin of a value, if it lies between the outermost edges. -/
def bin? (edges : List α) (value : α) : Option Nat :=
  let bins := edges.length - 1
  match edges.head?, edges.getLast? with
  | some low, some high =>
    if low ≤ value ∧ value ≤ high then some (locate edges bins value) else none
  | _, _ => none

/-- Counts the values that lie between the edges, each in its bin. -/
def ofEdges (values edges : List α) : Histogram α :=
  let located := values.filterMap (bin? edges)
  { counts := (List.range (edges.length - 1)).map fun bin => located.count bin
    edges := edges }

/-- The range that equal-width bins divide: the range of the values, widened by a half to either
side when they are all equal, and from zero to one when there are none. -/
def span (values : List α) : α × α :=
  match range? values with
  | none => (ofNat 0, ofNat 1)
  | some (low, high) =>
    if low == high then
      let half := ofNat 1 / ofNat 2
      (low - half, high + half)
    else (low, high)

def equalWidth (values : List α) (bins : Nat) : Histogram α :=
  let (low, high) := span values
  ofEdges values (evenlySpaced low high (bins + 1))

end

/-- The histogram of equal-width bins, if their edges can be counted and held. -/
def equalWidth? (values : List Float) (bins : Nat) : Option (Histogram Float) := do
  let (low, high) := span values
  let edges ← evenlySpaced? low high (← Whole.oneMore? bins)
  return ofEdges values edges

section
variable {α : Type}

def bins (h : Histogram α) : Nat :=
  h.counts.length

def size (h : Histogram α) : Nat :=
  Whole.sum h.counts

/-- The share of each bin in `rows` rows; no rows have no share. -/
def shares [Scalar α] [Div α] (h : Histogram α) (rows : Nat) : List α :=
  h.counts.map fun count => if rows = 0 then ofNat 0 else ofNat count / ofNat rows

@[simp] theorem length_shares [Scalar α] [Div α] (h : Histogram α) (rows : Nat) :
    (h.shares rows).length = h.bins := by
  simp [shares, bins]

end

section
variable {α : Type} [Scalar α] [Add α] [Sub α] [Mul α] [Div α] [LT α] [LE α] [DecidableLT α]
  [DecidableLE α] [BEq α]

omit [Add α] [BEq α] in
@[simp] theorem bins_ofEdges (values edges : List α) :
    (ofEdges values edges).bins = edges.length - 1 := by
  simp [ofEdges, bins]

@[simp] theorem bins_equalWidth (values : List α) (bins : Nat) :
    (equalWidth values bins).bins = bins := by
  simp [equalWidth]

@[simp] theorem length_edges_equalWidth (values : List α) (bins : Nat) :
    (equalWidth values bins).edges.length = bins + 1 := by
  simp [equalWidth, ofEdges]

end

section
variable {values : List Float} {bins : Nat}

theorem equalWidth?_eq_some (h : bins < Whole.maxDoubles) :
    equalWidth? values bins = some (equalWidth values bins) := by
  have hword : bins < Whole.maxWord := Nat.lt_trans h (by decide)
  simp [equalWidth?, Whole.oneMore?, evenlySpaced?, hword, Nat.succ_le_of_lt h, equalWidth]

theorem equalWidth?_eq_none (h : Whole.maxDoubles ≤ bins) : equalWidth? values bins = none := by
  have hmany : ¬ bins + 1 ≤ Whole.maxDoubles := Nat.not_le_of_lt (Nat.lt_succ_of_le h)
  by_cases hword : bins < Whole.maxWord <;>
    simp [equalWidth?, Whole.oneMore?, evenlySpaced?, hword, hmany]

end

end Histogram

end FairProgram.Stats
