import Snapshot.Proofs.GuardGrammar

/-!
# What a guard means

A guard compares the version with the integer that is written in it, however many digits that has.
Versions are words of 64 bits and the integer need not be one, so the guard keeps a word if there is
one for the integer and otherwise only the side on which it lies. This loses nothing: the guard
holds for exactly the versions for which the comparison holds in the integers.
-/

namespace Snapshot

/-- The relation of integers that a comparison stands for. -/
def Comparison.Relates : Comparison → Int → Int → Prop
  | .le, version, n => version ≤ n
  | .ge, version, n => n ≤ version
  | .lt, version, n => version < n
  | .gt, version, n => n < version
  | .eq, version, n => version = n

/-- How two integers lie to each other tells whether a comparison of them holds. -/
theorem Comparison.holds_compare_iff (comparison : Comparison) (version n : Int) :
    comparison.holds (compare version n) ↔ comparison.Relates version n := by
  cases hcompare : compare version n with
  | lt =>
      have hlt := Int.compare_eq_lt.1 hcompare
      cases comparison <;> simp [holds, Relates] <;> omega
  | eq =>
      have heq := Int.compare_eq_eq.1 hcompare
      cases comparison <;> simp [holds, Relates] <;> omega
  | gt =>
      have hgt := Int.compare_eq_gt.1 hcompare
      cases comparison <;> simp [holds, Relates] <;> omega

namespace Literal

variable {n : Int} {word : Int64}

/-- An integer is kept as a word if there is one for it, and else as the side on which it lies. -/
theorem ofInt_cases (n : Int) :
    (∃ word : Int64, word.toInt = n ∧ ofInt n = .within word) ∨
      (2 ^ 63 - 1 < n ∧ ofInt n = .aboveRange) ∨ (n < -2 ^ 63 ∧ ofInt n = .belowRange) := by
  unfold ofInt
  cases hword : Decimal.int64? n with
  | some word => exact .inl ⟨word, Decimal.toInt_of_int64?_eq_some hword, rfl⟩
  | none =>
      have hrange := Decimal.int64?_eq_none_iff.1 hword
      rw [Int64.toInt_minValue, Int64.toInt_maxValue] at hrange
      dsimp only
      split
      · exact .inr (.inr ⟨by omega, rfl⟩)
      · exact .inr (.inl ⟨by omega, rfl⟩)

theorem ofInt_eq_within_iff : ofInt n = .within word ↔ word.toInt = n := by
  have hlow := word.le_toInt
  have hhigh := word.toInt_lt
  rcases ofInt_cases n with ⟨found, rfl, hof⟩ | ⟨hrange, hof⟩ | ⟨hrange, hof⟩
  · rw [hof, Int64.toInt_inj, within.injEq, eq_comm]
  · exact iff_of_false (by simp [hof]) (by omega)
  · exact iff_of_false (by simp [hof]) (by omega)

theorem exists_ofInt_eq_within_iff :
    (∃ word, ofInt n = .within word) ↔ -2 ^ 63 ≤ n ∧ n ≤ 2 ^ 63 - 1 := by
  simp only [ofInt_eq_within_iff]
  constructor
  · rintro ⟨word, rfl⟩
    have hhigh := word.toInt_lt
    exact ⟨word.le_toInt, by omega⟩
  · rintro ⟨hlow, hhigh⟩
    exact ⟨Int64.ofInt n, Int64.toInt_ofInt_of_le hlow (by omega)⟩

theorem ofInt_eq_aboveRange_iff : ofInt n = .aboveRange ↔ 2 ^ 63 - 1 < n := by
  rcases ofInt_cases n with ⟨word, rfl, hof⟩ | ⟨hrange, hof⟩ | ⟨hrange, hof⟩
  · have hhigh := word.toInt_lt
    exact iff_of_false (by simp [hof]) (by omega)
  · exact iff_of_true hof hrange
  · exact iff_of_false (by simp [hof]) (by omega)

theorem ofInt_eq_belowRange_iff : ofInt n = .belowRange ↔ n < -2 ^ 63 := by
  rcases ofInt_cases n with ⟨word, rfl, hof⟩ | ⟨hrange, hof⟩ | ⟨hrange, hof⟩
  · have hlow := word.le_toInt
    exact iff_of_false (by simp [hof]) (by omega)
  · exact iff_of_false (by simp [hof]) (by omega)
  · exact iff_of_true hof hrange

/-- A version lies to what is kept of an integer as it lies to the integer. -/
theorem order_ofInt (version : Int64) (n : Int) :
    (ofInt n).order version = compare version.toInt n := by
  cases hliteral : ofInt n with
  | within word =>
      obtain rfl := ofInt_eq_within_iff.1 hliteral
      change compareOfLessAndEq version word = compareOfLessAndEq version.toInt word.toInt
      simp only [compareOfLessAndEq, Int64.lt_iff_toInt_lt, Int64.toInt_inj]
  | aboveRange =>
      have habove := ofInt_eq_aboveRange_iff.1 hliteral
      have hhigh := version.toInt_lt
      exact (Int.compare_eq_lt.2 (by omega)).symm
  | belowRange =>
      have hbelow := ofInt_eq_belowRange_iff.1 hliteral
      have hlow := version.le_toInt
      exact (Int.compare_eq_gt.2 (by omega)).symm

end Literal

/-- A written guard holds for the versions that its comparison relates to its integer. -/
theorem WrittenGuard.holds_guard_iff (written : WrittenGuard) (version : Int64) :
    written.guard.holds version ↔ written.comparison.Relates version.toInt written.number := by
  rw [Guard.holds, guard, Literal.order_ofInt, Comparison.holds_compare_iff]

/-- The guard that a line opens holds for a version if the comparison that is written in the line
holds of the version and of the integer that is written there, which may have any number of digits.
-/
theorem Guard.holds_iff_relates {line : List Char} {guard : Guard}
    (hline : Marker.ofLine line = .opening guard) :
    ∃ (written : WrittenGuard) (front rest : List Char), written.LeadsIn line front rest ∧
      guard.comparison = written.comparison ∧
      (∀ version : Int64,
        guard.holds version ↔ written.comparison.Relates version.toInt written.number) ∧
      ((∃ word, guard.literal = .within word) ↔
        -2 ^ 63 ≤ written.number ∧ written.number ≤ 2 ^ 63 - 1) ∧
      (∀ word, guard.literal = .within word ↔ word.toInt = written.number) ∧
      (guard.literal = .aboveRange ↔ 2 ^ 63 - 1 < written.number) ∧
      (guard.literal = .belowRange ↔ written.number < -2 ^ 63) := by
  obtain ⟨front, written, rest, hleads, rfl⟩ := Marker.ofLine_eq_opening_iff_leadsIn.1 hline
  exact ⟨written, front, rest, hleads, rfl, written.holds_guard_iff,
    Literal.exists_ofInt_eq_within_iff, fun _ => Literal.ofInt_eq_within_iff,
    Literal.ofInt_eq_aboveRange_iff, Literal.ofInt_eq_belowRange_iff⟩

/-- A literal below the range of words, with leading zeros, is below every version. -/
theorem Guard.holds_iff_relates_longLiteral :
    let line := "  // #if VERSION >= -00099999999999999999999 (old)\n".toList
    let guard : Guard := ⟨.ge, .belowRange⟩
    Marker.ofLine line = .opening guard ∧
      ∃ (written : WrittenGuard) (front rest : List Char), written.LeadsIn line front rest ∧
        guard.comparison = written.comparison ∧
        (∀ version : Int64,
          guard.holds version ↔ written.comparison.Relates version.toInt written.number) ∧
        ((∃ word, guard.literal = .within word) ↔
          -2 ^ 63 ≤ written.number ∧ written.number ≤ 2 ^ 63 - 1) ∧
        (∀ word, guard.literal = .within word ↔ word.toInt = written.number) ∧
        (guard.literal = .aboveRange ↔ 2 ^ 63 - 1 < written.number) ∧
        (guard.literal = .belowRange ↔ written.number < -2 ^ 63) :=
  have hline : Marker.ofLine "  // #if VERSION >= -00099999999999999999999 (old)\n".toList =
      .opening ⟨.ge, .belowRange⟩ := by decide +kernel
  ⟨hline, Guard.holds_iff_relates hline⟩

end Snapshot
