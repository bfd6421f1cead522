import Snapshot.FileSystem.Basic

/-!
# Requests to the file system

Reading and changing what paths lead to. A request that fails changes nothing, except that creating
a directory together with the ones above it keeps those that were created before the failure, and
that removing a directory keeps the removal of its content.
-/

namespace Snapshot

namespace FileSystem

variable (fs : FileSystem)

/-! ## Reading -/

/-- Opens what a path leads to for reading: its content, or the fault that the first read meets. A
directory can be opened, but not read. -/
def open? (path : Path) : Except Fault (Except Fault (List UInt8)) :=
  (fs.entryAt .follow path).bind fun entry =>
    match entry with
    | .directory => .ok (.error .isDirectory)
    | .file content => .ok (.ok content)
    | .sink => .ok (.ok [])
    | .socket => .error .noDevice
    | .link _ => .error .tooManyLinks

/-- The names in the directory that a path leads to, in no particular order. -/
def list (path : Path) : Except Fault (List Segment) :=
  (fs.find .follow path).bind fun (location, entry) =>
    match entry with
    | .directory => .ok (fs.tree.names location)
    | _ => .error .notDirectory

/-! ## Creating -/

/-- Puts a new entry where a walk has led. -/
def put (spot : Spot) (entry : Entry) : Except Fault FileSystem :=
  match spot with
  | .free location =>
      match fs.tree.insert? location entry with
      | some tree => .ok (fs.withTree tree)
      | none => .error .noEntry
  | .taken .. => .error .alreadyExists
  | .removed => .error .alreadyExists

/-- Puts a new entry where a path leads. Slashes at the end of the path do not count. -/
def create (path : Path) (entry : Entry) : Except Fault FileSystem :=
  (fs.reach .keep path path.bareHops).bind fun spot => fs.put spot entry

/-- Creates the directory that a path names up to the first of some cuts. Where the directory to
hold it is missing, the one up to the next cut is created first. -/
def createAlong (fs : FileSystem) (path : Path) : List Nat → FileSystem × Except Fault Unit
  | [] => (fs, .error .noEntry)
  | count :: above =>
      let directory := path.upTo count
      if directory.isEmpty then
        (fs, .ok ())
      else
        match fs.create directory .directory with
        | .ok fs => (fs, .ok ())
        | .error .noEntry =>
            match createAlong fs path above with
            | (fs, .error fault) => (fs, .error fault)
            | (fs, .ok ()) =>
                match fs.create directory .directory with
                | .ok fs => (fs, .ok ())
                | .error fault => (fs, settle fs directory fault)
        | .error fault => (fs, settle fs directory fault)
where
  /-- A directory that cannot be created because it is there is good enough. -/
  settle (fs : FileSystem) (directory : Path) (fault : Fault) : Except Fault Unit :=
    if fs.isDirectory directory then .ok () else .error fault

/-- Creates a directory and the missing ones above it. The empty path asks for nothing. -/
def createDirectories (path : Path) : FileSystem × Except Fault Unit :=
  fs.createAlong path path.cuts

/-- Makes the file that a path leads to hold the given bytes, and creates it if it is missing. -/
def write (path : Path) (content : List UInt8) : Except Fault FileSystem :=
  (fs.locate .write path).bind fun spot =>
    match spot with
    | .taken location (.file _) => .ok (fs.withTree (fs.tree.setContent location content))
    | .taken _ .sink => .ok fs
    | .taken _ .socket => .error .noDevice
    | .taken _ (.link _) => .error .tooManyLinks
    | .taken _ .directory => .error .isDirectory
    | .removed => .error .isDirectory
    | .free _ => fs.put spot (.file content)

/-! ## Removing -/

/-- Removes a directory that is empty, by the name that a path gives it. A path that ends in a dot
gives it none, and is refused if what is before the dot leads to a directory. -/
def removeDirectory (path : Path) : Except Fault FileSystem :=
  if path.bareHops.getLast? = some .dot then
    (fs.reach .follow path path.bareHops.dropLast).bind fun spot =>
      match spot.entry? with
      | some .directory => .error .invalidArgument
      | some _ => .error .notDirectory
      | none => .error .noEntry
  else
    (fs.reach .keep path path.bareHops).bind fun spot =>
      match spot with
      | .taken location .directory =>
          if fs.tree.names location = [] then .ok (fs.withTree (fs.tree.without location))
          else .error .notEmpty
      | .taken .. => .error .notDirectory
      | .free _ => .error .noEntry
      | .removed => .error .noEntry

/-- Removes what a path names and, if that is a directory, first everything in it. Links are removed
and not followed, but a slash after a link leads into the directory it points to. -/
def removeAll (path : Path) : FileSystem × Except Fault Unit :=
  match fs.find .keep path with
  | .error fault => (fs, .error fault)
  | .ok (location, .directory) =>
      let emptied := fs.withTree (fs.tree.emptied location)
      match emptied.removeDirectory path with
      | .ok fs => (fs, .ok ())
      -- the path may have led through what was just removed
      | .error .noEntry => (emptied, .ok ())
      | .error fault => (emptied, .error fault)
  | .ok (location, _) => (fs.withTree (fs.tree.without location), .ok ())

end FileSystem

end Snapshot
