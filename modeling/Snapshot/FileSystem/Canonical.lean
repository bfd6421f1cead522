import Snapshot.FileSystem.Basic
import Snapshot.Report

/-!
# Locations of paths

An export settles once where the project and the destination are, and works with these locations
from then on, however the paths were written. A path that need not lead anywhere yet is resolved as
far as it exists; what is left of it is taken as it reads, each `..` undoing the name before it.
-/

namespace Snapshot

/-- The absolute path that spells a location. -/
def Path.ofLocation (location : Location) : Path where
  segments := Segment.empty :: if location.isEmpty then [Segment.empty] else location
  nonempty := by simp

/-- The location that one more component leads to when nothing is known about what exists. -/
def Location.extend (location : Location) : Component → Location
  | .root => location
  | .current => location
  | .parent => location.dropLast
  | .name segment => location ++ [segment]

namespace FileSystem

variable (fs : FileSystem)

/-- The location of something that must exist. -/
def resolveExisting (path : Path) : Except Report Location :=
  if fs.pathExists path then
    match fs.canonicalize path with
    | .ok location => .ok location
    | .error fault =>
        .error (((Report.ofFault fault).within (.path path)).noting .unresolvedPath)
  else
    .error ((Report.of (.path path)).noting .missingPath)

/-- The location that a path leads to, or will lead to once what it names exists. The longest part
that exists decides where the rest is counted from. -/
def resolveLenient (path : Path) : Except Report Location :=
  if !path.isAbsolute && !fs.hasCurrent then
    .error (((Report.ofFault .noEntry).within (.path path)).noting .lostCurrentDirectory)
  else
    let absolute := (Path.ofLocation fs.current.anchor).join path
    match absolute.cuts.findSome? (resolveCut? absolute) with
    | some location => .ok location
    | none => .error ((Report.of (.path path)).noting .unresolvedPath)
where
  /-- Counts the components after a cut from the location of what is before it, if that exists. -/
  resolveCut? (path : Path) (count : Nat) : Option Location :=
    match fs.canonicalize (path.upTo count) with
    | .ok location => some ((path.after count).foldl Location.extend location)
    | .error _ => none

/-- Whether a path leads to a location or to something below it. -/
def leadsInto (location : Location) (path : Path) : Bool :=
  match fs.canonicalize path with
  | .ok found => location <+: found
  | .error _ => false

end FileSystem

end Snapshot
