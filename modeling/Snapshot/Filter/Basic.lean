import Snapshot.Guard.Marker
import Snapshot.Text.Lines

/-!
# The line filter

Lines are fed one after the other. An ordinary line is emitted if every guard open around it holds,
and dropped otherwise; a marker line is never part of the output. A line that closes a guard where
none is open is refused and leaves the open guards as they are, and a text that ends inside a guard
is refused at its end. Which text is refused, and at which line, does not depend on the version.
-/

namespace Snapshot

inductive Action where
  /-- The line belongs to the output as it is. -/
  | emit
  /-- Some guard around the line does not hold. -/
  | drop
  /-- The line opens or closes a guard. -/
  | marker
deriving DecidableEq, Repr

/-- Why a text is refused, with the number of the offending line, counted from one. -/
inductive FilterError where
  /-- The line closes a guard, and none is open. -/
  | unbalancedEndif (line : Nat)
  /-- The innermost guard that is still open at the end was opened by the line. -/
  | unclosedEndif (line : Nat)
deriving DecidableEq, Repr

namespace FilterError

def line : FilterError → Nat
  | unbalancedEndif line => line
  | unclosedEndif line => line

def message : FilterError → String
  | unbalancedEndif line => s!"Unbalanced endif at line {line}"
  | unclosedEndif line => s!"Unclosed endif for guard at line {line}"

end FilterError

/-- A guard that is still open: whether it and every guard around it hold, and the line that opened
it. -/
structure OpenGuard where
  emits : Bool
  line : Nat
deriving DecidableEq, Repr

/-- The filter between two lines: the guards that are open, innermost first, and the number of lines
fed so far. -/
structure LineFilter where
  version : Int64
  openGuards : List OpenGuard := []
  line : Nat := 0
deriving DecidableEq, Repr

namespace LineFilter

def start (version : Int64) : LineFilter := { version }

def depth (filter : LineFilter) : Nat := filter.openGuards.length

/-- Whether an ordinary line would be emitted now. -/
def isEmitting (filter : LineFilter) : Bool :=
  match filter.openGuards with
  | [] => true
  | innermost :: _ => innermost.emits

/-- The filter after a line, and what becomes of the line. A refused line is counted too. -/
def feed (filter : LineFilter) (line : List Char) : LineFilter × Except FilterError Action :=
  let counted := { filter with line := filter.line + 1 }
  match Marker.ofLine line with
  | .opening guard =>
      let opened : OpenGuard :=
        { emits := guard.holds filter.version && filter.isEmitting, line := counted.line }
      ({ counted with openGuards := opened :: filter.openGuards }, .ok .marker)
  | .closing =>
      match filter.openGuards with
      | [] => (counted, .error (.unbalancedEndif counted.line))
      | _ :: outer => ({ counted with openGuards := outer }, .ok .marker)
  | .ordinary => (counted, .ok (if filter.isEmitting then .emit else .drop))

/-- Checks at the end of a text that no guard is left open. -/
def finish (filter : LineFilter) : Except FilterError Unit :=
  match filter.openGuards with
  | [] => .ok ()
  | innermost :: _ => .error (.unclosedEndif innermost.line)

/-- The lines that are emitted when a text is fed to its end, or the first error. -/
def emitted (filter : LineFilter) : List (List Char) → Except FilterError (List (List Char))
  | [] => filter.finish.map fun _ => []
  | line :: rest =>
      match filter.feed line with
      | (_, .error error) => .error error
      | (next, .ok .emit) => (next.emitted rest).map (line :: ·)
      | (next, .ok _) => next.emitted rest

end LineFilter

/-- What is left of a text for a version. Emitted lines keep their terminators. -/
def filterText (version : Int64) (text : List Char) : Except FilterError (List Char) :=
  ((LineFilter.start version).emitted (Text.lines '\n' text)).map List.flatten

end Snapshot
