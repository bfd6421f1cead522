import Snapshot.Config
import Snapshot.FileSystem.Operations

/-!
# Sessions

What an export leaves behind while it goes on: the changed file system, the counts, the lines it has
said, the questions it has asked, and the files it has read. An export that fails keeps all of this
as it was at the failure; nothing is rolled back.
-/

namespace Snapshot

/-- What an export has done with the files and roots. -/
structure Summary where
  written : Nat := 0
  /-- The number of files of which nothing was left to write. -/
  skipped : Nat := 0
  missingRoots : List Path := []
deriving DecidableEq

/-- A question about overwriting a destination, with the file system at that moment. -/
structure Question where
  destination : Path
  fileSystem : FileSystem

/-- A file that was opened as input, by its path in the project, and what reading it gives. -/
structure Input where
  path : Path
  content : Except Fault (List UInt8)

/-- How far an export has come. Its lists have the oldest element first. -/
structure Session where
  fileSystem : FileSystem
  summary : Summary := {}
  status : List Status := []
  questions : List Question := []
  inputs : List Input := []

/-- A part of an export. Its effects stay when it fails. -/
abbrev ExportM := EStateM Report Session

namespace ExportM

/-- Says a line, if the settings let it be shown. -/
def say (config : Config) (status : Status) : ExportM Unit :=
  modify fun session =>
    if config.verbosity.shows status then
      { session with status := session.status ++ [status] }
    else
      session

/-- Asks the file system a question that may fail. -/
def query {α : Type} (answer : FileSystem → Except Report α) : ExportM α := fun session =>
  match answer session.fileSystem with
  | .ok a => .ok a session
  | .error report => .error report session

/-- Changes the file system. A change that fails halfway stays as far as it went. -/
def change {α : Type} (request : FileSystem → FileSystem × Except Report α) : ExportM α :=
  fun session =>
    match request session.fileSystem with
    | (fs, .ok a) => .ok a { session with fileSystem := fs }
    | (fs, .error report) => .error report { session with fileSystem := fs }

def count (update : Summary → Summary) : ExportM Unit :=
  modify fun session => { session with summary := update session.summary }

end ExportM

end Snapshot
