/-!
# Decimal integers

Reading a run of ASCII digits, and reading a whole text as an integer of 64 bits with a sign.
-/

namespace Snapshot.Decimal

/-- The number that a run of digits denotes. Leading zeros change nothing. -/
def value (digits : List Char) : Nat :=
  digits.foldl (fun n digit => 10 * n + (digit.toNat - '0'.toNat)) 0

/-- An integer, if 64 bits hold it. -/
def int64? (n : Int) : Option Int64 :=
  if Int64.minValue.toInt ≤ n ∧ n ≤ Int64.maxValue.toInt then some (Int64.ofInt n) else none

/-- Reads a text as an integer of 64 bits: an optional sign and at least one digit, nothing else. -/
def readInt64? (text : List Char) : Option Int64 :=
  match text with
  | '-' :: digits => (natural? digits).bind fun n => int64? (-n)
  | '+' :: digits => (natural? digits).bind fun n => int64? n
  | digits => (natural? digits).bind fun n => int64? n
where
  natural? (digits : List Char) : Option Nat :=
    if digits ≠ [] ∧ digits.all Char.isDigit then some (value digits) else none

/-- What 64 bits hold keeps its value. -/
theorem toInt_of_int64?_eq_some {n : Int} {word : Int64} (hword : int64? n = some word) :
    word.toInt = n := by
  unfold int64? at hword
  split at hword
  · next hrange =>
      cases hword
      have hmin : Int64.minValue.toInt = -2 ^ 63 := by decide
      have hmax : Int64.maxValue.toInt = 2 ^ 63 - 1 := by decide
      exact Int64.toInt_ofInt_of_le (by omega) (by omega)
  · cases hword

theorem int64?_eq_none_iff {n : Int} :
    int64? n = none ↔ n < Int64.minValue.toInt ∨ Int64.maxValue.toInt < n := by
  unfold int64?
  split
  · simp only [reduceCtorEq, false_iff]
    omega
  · simp only [true_iff]
    omega

end Snapshot.Decimal
