/-!
# Whole numbers

Powers and sums of whole numbers, in the operations of `Nat` alone, and the words and lists that
bound them.
-/

namespace FairProgram.Whole

def powTwo (exponent : Nat) : Nat :=
  Nat.pow 2 exponent

def powTen (exponent : Nat) : Nat :=
  Nat.pow 10 exponent

theorem powTwo_pos (exponent : Nat) : 0 < powTwo exponent :=
  Nat.pow_pos (by decide)

theorem powTen_pos (exponent : Nat) : 0 < powTen exponent :=
  Nat.pow_pos (by decide)

def sum (counts : List Nat) : Nat :=
  counts.foldr Nat.add 0

@[simp] theorem sum_nil : sum [] = 0 := rfl

@[simp] theorem sum_cons (count : Nat) (counts : List Nat) :
    sum (count :: counts) = count + sum counts := rfl

theorem sum_append (first second : List Nat) : sum (first ++ second) = sum first + sum second := by
  induction first with
  | nil => simp
  | cons count counts ih => simp [ih, Nat.add_assoc]

def maxWord : Nat := 18446744073709551615

/-- A count of 64 bits. -/
abbrev Word := { count : Nat // count ≤ maxWord }

/-- One more, if a word can hold it. -/
def oneMore? (count : Nat) : Option Nat :=
  if count < maxWord then some (count + 1) else none

def wordSum (counts : List Nat) : Nat :=
  sum counts % (maxWord + 1)

theorem wordSum_eq_sum {counts : List Nat} (h : sum counts ≤ maxWord) :
    wordSum counts = sum counts :=
  Nat.mod_eq_of_lt (Nat.lt_succ_of_le h)

/-- The numbers of a word of 64 bits with sign lie below this one and not below its opposite. -/
def signedBound : Nat := 9223372036854775808

/-- The most doubles in one list: their bytes, eight for each, are counted by a word with sign. -/
def maxDoubles : Nat := (signedBound - 1) / 8

end FairProgram.Whole
