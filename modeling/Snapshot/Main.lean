import Snapshot.CommandLine
import Snapshot.FileTree.Changes

/-!
# The program

The part of the disk that an export can touch is read into a file tree, the export is run on that
tree, and what it changed there is then changed on the disk. An export that may have to ask is run
up to its question first.

Special files other than the null device are taken for sockets, and a link that leads nowhere for
one that leads to itself.
-/

namespace Snapshot

/-! ## Reading the disk -/

def Location.place (location : Location) : IO.FS.DirEntry where
  root := (Path.ofLocation location.dropLast).text
  fileName := (location.getLast?.getD Segment.dot).text

/-- The location that an absolute text spells. -/
def Location.ofText (text : String) : Location :=
  (Path.ofString text).components.foldl Location.extend []

def nullDevice : Location := .ofText "/dev/null"

/-- Where a place on the disk is once all links are followed, if it is anywhere. -/
def Location.followed? (location : Location) : IO (Option Location) := do
  try
    let path ← IO.FS.realPath location.place.path
    return some (.ofText path.toString)
  catch _ =>
    return none

/-- What was read from the disk, and the directories that were read with all that is in them. -/
structure Disk where
  tree : FileTree := ∅
  complete : List Location := []

abbrev Reader := StateT Disk IO

namespace Reader

def put (location : Location) (entry : Entry) : Reader Unit :=
  modify fun disk => { disk with tree := (disk.tree.insert? location entry).getD disk.tree }

/-- Puts the directories that lead to a location. -/
def putAbove (location : Location) : Reader Unit :=
  (List.range location.length).forM fun count => put (location.take count) .directory

/-- Reads something other than a link, and gives its location if it is a directory. -/
def readKind (location : Location) : IO.FS.FileType → Reader (Option Location)
  | .dir => do
      put location .directory
      return some location
  | .file => do
      put location (.file (← IO.FS.readBinFile location.place.path).toList)
      return none
  | _ => do
      put location (if location = nullDevice then .sink else .socket)
      return none

/-- Reads what stands at a location, and gives the location of the directory that it leads to. -/
def readEntry (location : Location) : Reader (Option Location) := do
  let kind? ← try pure (some (← location.place.path.symlinkMetadata).type) catch _ => pure none
  match kind?, ← location.followed? with
  | none, _ => return none
  | some .symlink, none =>
      put location (.link (Path.ofSegment (location.getLast?.getD Segment.dot)))
      return none
  | some .symlink, some target =>
      put location (.link (Path.ofLocation target))
      putAbove target
      readKind target (← target.place.path.metadata).type
  | some kind, _ => readKind location kind

/-- Reads what a path leads along, also where it does not exist yet, and gives where it ends. -/
def readPath (current : Location) (path : Path) : Reader Location := do
  let mut here := if path.isAbsolute then [] else current
  for hop in path.hops do
    match hop with
    | .slash => pure ()
    | .dot => pure ()
    | .up => here := here.dropLast
    | .into name => here := (← readEntry (here ++ [name])).getD (here ++ [name])
  return here

/-- Reads all that is in a directory. Directories that links lead to count if links are followed. -/
partial def readTree (follow : Bool) (location : Location) : Reader Unit := do
  let disk ← get
  if disk.tree.get? location = some .directory ∧ location ∉ disk.complete then
    set { disk with complete := location :: disk.complete }
    for entry in ← location.place.path.readDir do
      let inside := location ++ Location.ofText entry.fileName
      match ← readEntry inside with
      | some directory => if follow ∨ directory = inside then readTree follow directory
      | none => pure ()

def readProject (config : Config) (current : Location) : Reader Unit := do
  putAbove current
  put current .directory
  for root in config.roots do
    readTree true (← readPath current (config.baseDirectory.join root))
  for root in config.roots do
    readTree false (← readPath current (config.destination.join root))
  discard <| readPath current (config.destination.join versionFile)

end Reader

/-! ## Changing the disk -/

/-- Does on the disk what was done in a file tree. -/
def carryOut (before after : FileTree) : IO Unit := do
  for (location, entry) in FileTree.losses before after do
    if entry = .directory then
      IO.FS.removeDir location.place.path
    else
      IO.FS.removeFile location.place.path
  for (location, entry) in FileTree.gains before after do
    match entry with
    | .directory => IO.FS.createDir location.place.path
    | .file content => IO.FS.writeBinFile location.place.path ⟨content.toArray⟩
    | _ => pure ()

/-! ## Talking to the user -/

/-- Prints status lines, in colours on a terminal that has them. -/
def printStatus (status : List Status) : IO Unit := do
  let stderr ← IO.getStderr
  let hasColours := (← stderr.isTty) && (← IO.getEnv "TERM") != some "dumb"
  for line in status do
    stderr.putStr (if hasColours then line.colouredLine else line.line)
  stderr.flush

def printOutput (output : String) : IO Unit := do
  let stdout ← IO.getStdout
  stdout.putStr output
  stdout.flush

/-- Reads a line of standard input. What cannot be read is no answer. -/
def readAnswer : IO (List UInt8) := do
  try
    return (← (← IO.getStdin).getLine).toUTF8.toList
  catch _ =>
    return []

end Snapshot

open Snapshot in
def main (arguments : List String) : IO UInt32 := do
  let current := Location.ofText (← IO.FS.realPath ".").toString
  let reading := match CommandLine.parse arguments with
    | .run options => Reader.readProject options.config current
    | _ => pure ()
  let ((), disk) ← reading.run {}
  let fs := FileSystem.ofTree disk.tree current
  let declined := CommandLine.execute arguments [] fs
  printStatus declined.status
  printOutput declined.output
  -- only an export that asks prints anything and fails
  let asks := declined.output ≠ "" ∧ declined.exitCode ≠ 0
  let answer ← if asks then readAnswer else pure []
  let execution := CommandLine.execute arguments answer fs
  printStatus (execution.status.drop declined.status.length)
  carryOut disk.tree execution.fileSystem.tree
  if let some report := execution.report? then
    IO.eprint report.text
  if execution.exitCode = 2 then
    IO.eprint CommandLine.helpText
  return execution.exitCode.toUInt32
