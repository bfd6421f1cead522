/-!
# Faults

Why the system refuses a request. A fault is known by its number, and by nothing else in messages.
-/

namespace Snapshot

inductive Fault where
  | noEntry
  | noDevice
  | alreadyExists
  | notDirectory
  | isDirectory
  | invalidArgument
  | nameTooLong
  | notEmpty
  | tooManyLinks
  /-- The path holds a NUL, with which no request can be made at all. -/
  | nulInPath
deriving DecidableEq, Repr

/-- The number by which the system reports the fault. -/
def Fault.number? : Fault → Option Nat
  | .noEntry => some 2
  | .noDevice => some 6
  | .alreadyExists => some 17
  | .notDirectory => some 20
  | .isDirectory => some 21
  | .invalidArgument => some 22
  | .nameTooLong => some 36
  | .notEmpty => some 39
  | .tooManyLinks => some 40
  | .nulInPath => none

def Fault.message (fault : Fault) : String :=
  match fault.number? with
  | some number => s!"system error {number}"
  | none => "NUL in a path"

end Snapshot
