import Snapshot.FileSystem.Operations
import Snapshot.Report
import Snapshot.Text.Utf8

/-!
# Copying one file

The lines of a file are read one after the other, as bytes with their terminators. Those that are
kept are collected, and written only at the end, and only if there is something to write; so a file
that cannot be filtered leaves no trace. Guards are looked for in the text of a line, in which bytes
that are no text are replaced, but the bytes themselves are what is kept.
-/

namespace Snapshot

/-- A file that is being copied: what is left to read of it, how many lines have been read, and what
is kept of them. -/
structure FileCopy where
  /-- What the file is called in messages. -/
  name : String
  output : Path
  /-- The lines not read yet, or the fault that reading meets. -/
  unread : Except Fault (List (List UInt8))
  line : Nat := 0
  /-- The pieces to write, newest first. -/
  kept : List (List UInt8) := []

namespace FileCopy

def context (copy : FileCopy) (stage : FileStage) : Context :=
  .file stage copy.name copy.line

def open? (fs : FileSystem) (input output : Path) (name : String) : Except Report FileCopy :=
  match fs.open? input with
  | .ok content => .ok { name, output, unread := content.map (Text.lines 0x0A) }
  | .error fault =>
      let report := (Report.ofFault fault).within (.file .opening name 0)
      .error (report.noting (.inputNotOpened input))

def readFailure (copy : FileCopy) (fault : Fault) : Report :=
  ((Report.ofFault fault).within (copy.context .reading)).noting .lineNotRead

def advance (copy : FileCopy) (rest : List (List UInt8)) : FileCopy :=
  { copy with unread := .ok rest, line := copy.line + 1 }

/-- Reads the next line, if there is one. -/
def next (copy : FileCopy) : FileCopy × Except Report (Option (List UInt8)) :=
  match copy.unread with
  | .error fault => (copy, .error (copy.readFailure fault))
  | .ok [] => (copy, .ok none)
  | .ok (line :: rest) => (copy.advance rest, .ok (some line))

def keep (copy : FileCopy) (bytes : List UInt8) : FileCopy :=
  { copy with kept := bytes :: copy.kept }

/-- The bytes to write. -/
def content (copy : FileCopy) : List UInt8 :=
  copy.kept.reverse.flatten

def filterFailure (copy : FileCopy) (error : FilterError) : Report :=
  (Report.of (.filter error)).within (copy.context .filtering)

/-- Reads the given lines through a filter, up to the end of the file. -/
def filterLines (copy : FileCopy) (filter : LineFilter) :
    List (List UInt8) → Except Report FileCopy
  | [] =>
      match filter.finish with
      | .ok () => .ok copy
      | .error error => .error (copy.filterFailure error)
  | line :: rest =>
      let copy := copy.advance rest
      match filter.feed (Utf8.lossyText line) with
      | (_, .error error) => .error (copy.filterFailure error)
      | (filter, .ok .emit) => (copy.keep line).filterLines filter rest
      | (filter, .ok _) => copy.filterLines filter rest

/-- Reads the whole file and keeps the lines that belong to a version. -/
def filtered (copy : FileCopy) (version : Int64) : Except Report FileCopy :=
  match copy.unread with
  | .error fault => .error (copy.readFailure fault)
  | .ok lines => copy.filterLines (.start version) lines

/-- Creates the directory of the output, or names it together with the fault. -/
def createOutputDirectory (copy : FileCopy) (fs : FileSystem) :
    FileSystem × Except (Path × Fault) Unit :=
  match copy.output.parent? with
  | none => (fs, .ok ())
  | some parent =>
      let (fs, outcome) := fs.createDirectories parent
      (fs, outcome.mapError (parent, ·))

/-- Writes what was kept, and says whether there was anything to write. The directory of the output
is created if it is missing. -/
def finish (copy : FileCopy) (fs : FileSystem) : FileSystem × Except Report Bool :=
  let content := copy.content
  if content = [] then
    (fs, .ok false)
  else
    let failure (fault : Fault) (note : Note) : Report :=
      ((Report.ofFault fault).within (copy.context .writing)).noting note
    match copy.createOutputDirectory fs with
    | (fs, .error (parent, fault)) =>
        (fs, .error (failure fault (.outputDirectoryNotCreated parent)))
    | (fs, .ok ()) =>
        match fs.write copy.output content with
        | .ok fs => (fs, .ok true)
        | .error fault => (fs, .error (failure fault (.outputNotWritten copy.output)))

end FileCopy

end Snapshot
