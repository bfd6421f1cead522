import Snapshot.FileTree.Basic
import Snapshot.Fault

/-!
# Walking through a tree

A path is followed one segment at a time, starting in a directory of the tree. Links met on the way
are followed wherever they point, at most `linkLimit` of them, so every walk ends. Whether a link
that the path ends in is followed depends on what the path is wanted for; before a slash it always
is. A segment that names the directory itself asks for a directory there, also at the end of a path.
The directory above the root is the root.

Names that come first and lead to a directory are taken in one leap, since all on the way to a
directory are directories.
-/

namespace Snapshot

/-- What a segment asks for where it is met. -/
inductive Hop where
  /-- Stay, for a slash that another one or nothing follows. -/
  | slash
  /-- Stay, for a dot. -/
  | dot
  | up
  | into (name : Segment)
deriving DecidableEq

def Hop.ofSegment (segment : Segment) : Hop :=
  if segment = Segment.empty then .slash
  else if segment = Segment.dot then .dot
  else if segment = Segment.dotDot then .up
  else .into segment

namespace Path

def hops (path : Path) : List Hop :=
  path.body.map Hop.ofSegment

/-- What the segments ask for when slashes at the end are left out. -/
def bareHops (path : Path) : List Hop :=
  (path.hops.reverse.dropWhile (· = .slash)).reverse

/-- The greatest number of bytes in a path that can be followed. -/
def maxSize : Nat := 4095

end Path

/-- The number of bytes in the absolute path that spells a location other than the root. -/
def Location.size (location : Location) : Nat :=
  Segment.sizeWithSlashes location

/-- How a walk treats links and slashes at its end. -/
inductive Ending where
  /-- A link is followed. -/
  | follow
  /-- A link stands for itself. -/
  | keep
  /-- A link is followed, and a slash after the last name is refused, as for a file to be written.
  -/
  | write
  /-- A link is followed, and every location on the way has to be one that a path can spell. -/
  | spell
deriving DecidableEq

/-- Whether a walk can look at a location. -/
def Ending.admits (ending : Ending) (location : Location) : Bool :=
  ending ≠ .spell || location.size ≤ Path.maxSize

/-- Where a path leads. -/
inductive Spot where
  | taken (location : Location) (entry : Entry)
  /-- Nothing stands at the location, but the directory for it does. -/
  | free (location : Location)
  /-- A directory that was removed while a program was in it or below it. -/
  | removed
deriving DecidableEq

/-- What stands where a path leads, if something does. -/
def Spot.entry? : Spot → Option Entry
  | .taken _ entry => some entry
  | .free _ => none
  | .removed => some .directory

/-- The number of links that one walk follows. -/
def linkLimit : Nat := 40

namespace FileTree

variable (tree : FileTree)

/-- Goes on from a directory without following links itself: `chase` takes over where a link has to
be followed, with the directory that holds the link, its target, and what is left of the path. -/
def descend (ending : Ending) (chase : Location → Path → List Hop → Except Fault Spot) :
    Location → List Hop → Except Fault Spot
  | here, [] => .ok (.taken here .directory)
  | here, .slash :: rest => descend ending chase here rest
  | here, .dot :: rest => descend ending chase here rest
  | here, .up :: rest => descend ending chase here.dropLast rest
  | here, .into name :: rest =>
      let place := here ++ [name]
      if ending = .write ∧ rest ≠ [] ∧ rest.all (· = .slash) then
        .error .isDirectory
      else if Segment.maxSize < name.text.utf8ByteSize ∨ !ending.admits place then
        .error .nameTooLong
      else
        match tree.get? place with
        | some .directory => descend ending chase place rest
        | some (.link target) =>
            if rest = [] ∧ ending = .keep then .ok (.taken place (.link target))
            else chase here target rest
        | some entry => if rest = [] then .ok (.taken place entry) else .error .notDirectory
        | none => if rest = [] then .ok (.free place) else .error .noEntry

/-- The names that come first and are followed by one more name, and the hops after them. -/
def leadingNames : List Hop → List Segment × List Hop
  | .into name :: .into next :: rest =>
      let (names, left) := leadingNames (.into next :: rest)
      (name :: names, left)
  | hops => ([], hops)

/-- Goes down the names that come first, if they lead to a directory. -/
def leap (ending : Ending) (here : Location) (hops : List Hop) : Location × List Hop :=
  let (names, rest) := leadingNames hops
  let place := here ++ names
  if tree.get? place = some .directory ∧ ending.admits place then (place, rest) else (here, hops)

/-- As `descend`, with a leap first. -/
def travel (ending : Ending) (chase : Location → Path → List Hop → Except Fault Spot)
    (here : Location) (hops : List Hop) : Except Fault Spot :=
  let (place, rest) := tree.leap ending here hops
  tree.descend ending chase place rest

/-- Goes on from a directory and follows at most `links` links. -/
def walk (ending : Ending) : (links : Nat) → Location → List Hop → Except Fault Spot
  | 0 => tree.travel ending fun _ _ _ => .error .tooManyLinks
  | links + 1 =>
      tree.travel ending fun here target rest =>
        walk ending links (if target.isAbsolute then [] else here) (target.hops ++ rest)

end FileTree

end Snapshot
