import Snapshot.FileTree.Walk

/-!
# File systems

A program sees a file tree from its current directory, in which relative paths start. That directory
can be removed, and so can directories on the way to it. What is put at their locations later is not
what was removed: nothing is ever found in a removed directory again, but it can still be left
upwards, to where its own directory was or is.

A path can be followed only if it is not longer than `Path.maxSize` bytes. Locations are not limited
in this way.
-/

namespace Snapshot

/-- A directory that a program is in: the last directory on the way to it that is still there, and
how many levels below that one have been removed. -/
structure Place where
  anchor : Location
  lost : Nat := 0
deriving DecidableEq

namespace Place

/-- The location some levels above the anchor. -/
def above (place : Place) (levels : Nat) : Location :=
  place.anchor.take (place.anchor.length - levels)

/-- What becomes of a place in a tree from which directories may have been removed. -/
def settledIn (tree : FileTree) (place : Place) : Place :=
  match (List.range place.anchor.length).find? fun levels =>
      tree.get? (place.above levels) = some .directory with
  | some levels => { anchor := place.above levels, lost := place.lost + levels }
  | none => { anchor := [], lost := place.lost + place.anchor.length }

theorem get?_anchor_settledIn (tree : FileTree) (place : Place) :
    tree.get? (place.settledIn tree).anchor = some .directory := by
  unfold settledIn
  split
  · next h => simpa using List.find?_some h
  · rfl

/-- A directory that is still there stays what it is. -/
theorem settledIn_eq_self {tree : FileTree} {place : Place}
    (h : tree.get? place.anchor = some .directory) : place.settledIn tree = place := by
  obtain ⟨anchor, lost⟩ := place
  cases anchor with
  | nil => rfl
  | cons first rest =>
      rw [settledIn, List.length_cons, List.range_succ_eq_map, List.find?_cons_of_pos]
      · simp [above]
      · simpa [above] using h

/-- Leaves the removed directories. What is left of a path starts at the anchor then, unless the
path ends in a removed directory. -/
def leave : (lost : Nat) → List Hop → Except Fault (Option (List Hop))
  | 0, hops => .ok (some hops)
  | _ + 1, [] => .ok none
  | lost + 1, .slash :: rest => leave (lost + 1) rest
  | lost + 1, .dot :: rest => leave (lost + 1) rest
  | lost + 1, .up :: rest => leave lost rest
  | _ + 1, .into _ :: _ => .error .noEntry

end Place

/-- A file tree with the current directory of a program. -/
structure FileSystem where
  tree : FileTree
  current : Place
  anchored : tree.get? current.anchor = some .directory

namespace FileSystem

/-- A tree seen from a directory in it. -/
def ofTree (tree : FileTree) (directory : Location) : FileSystem where
  tree
  current := Place.settledIn tree { anchor := directory }
  anchored := Place.get?_anchor_settledIn ..

variable (fs : FileSystem)

/-- The file system after a change of the tree. -/
def withTree (tree : FileTree) : FileSystem where
  tree
  current := fs.current.settledIn tree
  anchored := Place.get?_anchor_settledIn ..

/-- Whether the current directory is still there. -/
def hasCurrent : Bool :=
  fs.current.lost = 0

/-! ## Following a path -/

/-- Follows a path, or just the given part of its hops. -/
def reach (ending : Ending) (path : Path) (hops : List Hop) : Except Fault Spot :=
  if path.hasNul then .error .nulInPath
  else if path.isEmpty then .error .noEntry
  else if ending ≠ .spell ∧ Path.maxSize < path.size then .error .nameTooLong
  else if path.isAbsolute then fs.tree.walk ending linkLimit [] hops
  else
    match Place.leave fs.current.lost hops with
    | .ok (some rest) => fs.tree.walk ending linkLimit fs.current.anchor rest
    | .ok none => .ok .removed
    | .error fault => .error fault

def locate (ending : Ending) (path : Path) : Except Fault Spot :=
  fs.reach ending path path.hops

/-- Where a path leads and what stands there, if something does. -/
def find (ending : Ending) (path : Path) : Except Fault (Location × Entry) :=
  (fs.locate ending path).bind fun spot =>
    match spot with
    | .taken location entry => .ok (location, entry)
    | .free _ => .error .noEntry
    | .removed => .error .noEntry

/-! ## Questions about a path

What stands where a path leads is asked with all links followed. -/

def entryAt (ending : Ending) (path : Path) : Except Fault Entry :=
  (fs.locate ending path).bind fun spot =>
    match spot.entry? with
    | some entry => .ok entry
    | none => .error .noEntry

def pathExists (path : Path) : Bool :=
  (fs.entryAt .follow path).isOk

def isDirectory (path : Path) : Bool :=
  match fs.entryAt .follow path with
  | .ok .directory => true
  | _ => false

def isFile (path : Path) : Bool :=
  match fs.entryAt .follow path with
  | .ok (.file _) => true
  | _ => false

/-- The location of what a path leads to, with every link followed. It has to be one that a path can
spell. A relative path has none once the current directory is gone. -/
def canonicalize (path : Path) : Except Fault Location :=
  if !path.isAbsolute && !fs.hasCurrent then .error .noEntry
  else (fs.find .spell path).map Prod.fst

end FileSystem

end Snapshot
