import Snapshot.Config
import Snapshot.FileSystem.Canonical
import Snapshot.FileSystem.Operations

/-!
# Listing a directory of the project

The entries of a directory that an export goes on with: the regular files and the directories whose
names are not left out, links followed, each in the order of their names. A directory that turns out
to be in the destination is passed over, so that an export never walks into its own output.
-/

namespace Snapshot

/-- An export with its settings and the location of the project. -/
structure Project where
  config : Config
  base : Location

def Project.pathOf (project : Project) (path : Path) : Path :=
  (Path.ofLocation project.base).join path

/-- What an export goes on with in a directory, as paths in the project. -/
structure Listing where
  files : List Path
  subdirectories : List Path
deriving DecidableEq

namespace Listing

/-- Names in the order of their code points, which is that of their bytes. -/
def sorted (names : List Segment) : List Segment :=
  names.mergeSort fun left right => left.text ≤ right.text

/-- Sorts the names found in a directory of the project into files and directories. -/
def ofNames (project : Project) (destination : Location) (fs : FileSystem) (directory : Path)
    (names : List Segment) : Listing :=
  let place (name : Segment) : Path := (project.pathOf directory).join (.ofSegment name)
  let kept := (sorted names).filter fun name => !project.config.isIgnored name
  let files := kept.filter fun name => fs.isFile (place name)
  let subdirectories := kept.filter fun name =>
    fs.isDirectory (place name) && !fs.leadsInto destination (place name)
  { files := files.map fun name => directory.join (.ofSegment name)
    subdirectories := subdirectories.map fun name => directory.join (.ofSegment name) }

/-- Lists a directory. The one thing that can go wrong is that it cannot be opened: entries are only
refused one by one where somebody else works on the directory, or where the device under it fails,
and here nothing happens between the opening and the last of the entries. -/
def read (project : Project) (destination : Location) (fs : FileSystem) (directory : Path) :
    Except Report Listing :=
  match fs.list (project.pathOf directory) with
  | .ok names => .ok (ofNames project destination fs directory names)
  | .error fault =>
      .error (((Report.ofFault fault).within (.path (project.pathOf directory))).noting
        .directoryNotRead)

end Listing

end Snapshot
