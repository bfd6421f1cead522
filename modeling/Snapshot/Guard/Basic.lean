import Snapshot.Text.Decimal

/-!
# Version guards

A guard compares the version with a literal. Literals are written with any number of digits; one
that no version reaches keeps only the side on which it lies, which is all a comparison needs.
-/

namespace Snapshot

inductive Comparison where
  | le
  | ge
  | lt
  | gt
  | eq
deriving DecidableEq, Repr

/-- Whether the comparison holds, given how the version lies to the literal. -/
def Comparison.holds : Comparison → Ordering → Bool
  | .le, order => order ≠ .gt
  | .ge, order => order ≠ .lt
  | .lt, order => order = .lt
  | .gt, order => order = .gt
  | .eq, order => order = .eq

/-- The integer of a guard: a possible version, or an integer above or below all of them. -/
inductive Literal where
  | within (value : Int64)
  | aboveRange
  | belowRange
deriving DecidableEq, Repr

def Literal.ofInt (n : Int) : Literal :=
  match Decimal.int64? n with
  | some value => .within value
  | none => if n < 0 then .belowRange else .aboveRange

/-- How a version lies to the literal. -/
def Literal.order (version : Int64) : Literal → Ordering
  | .within value => compare version value
  | .aboveRange => .lt
  | .belowRange => .gt

structure Guard where
  comparison : Comparison
  literal : Literal
deriving DecidableEq, Repr

def Guard.holds (guard : Guard) (version : Int64) : Bool :=
  guard.comparison.holds (guard.literal.order version)

end Snapshot
