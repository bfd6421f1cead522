import Snapshot.Filter.Basic
import Snapshot.Fault
import Snapshot.Path.Basic

/-!
# Reports

A report tells why an export failed, from the request that was refused up to the export as a whole.
Its frames are contexts, each of which names what was being done, and notes, which add to the
context below them. The newest frame comes first. Nothing but `Context.message` and `Note.message`
knows the wording.
-/

namespace Snapshot

inductive FileStage where
  | opening
  | reading
  | writing
  | filtering
deriving DecidableEq, Repr

/-- What a part of an export was about when it failed. -/
inductive Context where
  | exporting
  /-- The destination exists, and overwriting it was declined. -/
  | declined (destination : Path)
  | path (path : Path)
  /-- A file, as it is called in messages, at a line of it; line zero is before the first one. -/
  | file (stage : FileStage) (name : String) (line : Nat)
  | filter (error : FilterError)
  | system (fault : Fault)
deriving DecidableEq

inductive Note where
  | invalidRoots
  | rootOutsideProject (root : Path)
  | unresolvedProject
  | unresolvedDestination
  | unresolvedPath
  | missingPath
  | lostCurrentDirectory
  | destinationIsProject
  | destinationInsideRoot (root : Path)
  | rootHoldsProject (root : Path)
  | destinationNotDirectory
  | destinationNotCreated
  | notRemoved
  | directoryNotCreated
  | directoryNotScanned
  | directoryNotRead
  | versionNotWritten
  | inputNotOpened (path : Path)
  | lineNotRead
  | outputDirectoryNotCreated (path : Path)
  | outputNotWritten (path : Path)
deriving DecidableEq

inductive Frame where
  | context (context : Context)
  | note (note : Note)
deriving DecidableEq

def Context.message : Context → String
  | .exporting => "Export was unsuccessful! There might be error traces below."
  | .declined _ => "abort"
  | .path p => s!"Error in path `{p}`"
  | .file .opening name _ => s!"Could not open file `{name}`."
  | .file .reading name _ => s!"Could not read file `{name}`."
  | .file .writing name _ => s!"Could not write output of `{name}`."
  | .file .filtering name _ => s!"Invalid version guard in `{name}`."
  | .filter error => error.message
  | .system fault => fault.message

def Context.isSystem : Context → Bool
  | .system _ => true
  | _ => false

def Note.message : Note → String
  | .invalidRoots => "invalid export roots"
  | .rootOutsideProject root => s!"root `{root}` is not a relative path inside the project"
  | .unresolvedProject => "cannot resolve project root"
  | .unresolvedDestination => "cannot resolve destination"
  | .unresolvedPath => "cannot resolve path as absolute"
  | .missingPath => "path does not exist"
  | .lostCurrentDirectory => "cannot get current directory"
  | .destinationIsProject => "cannot export into the project root"
  | .destinationInsideRoot root => s!"destination is inside the exported root `{root}`"
  | .rootHoldsProject root =>
      s!"overwriting `{root}` in the destination would remove the project"
  | .destinationNotDirectory => "destination is not a directory"
  | .destinationNotCreated => "could not create destination"
  | .notRemoved => "could not remove previous export"
  | .directoryNotCreated => "could not create directory"
  | .directoryNotScanned => "cannot scan directory"
  | .directoryNotRead => "failed to read directory"
  | .versionNotWritten => "could not write version file"
  | .inputNotOpened path => s!"could not open input file: `{path}`"
  | .lineNotRead => "cannot read next line"
  | .outputDirectoryNotCreated path => s!"could not create directory: `{path}`"
  | .outputNotWritten path => s!"could not write output file: `{path}`"

/-- The line that a frame is printed on. Notes stand deeper than the contexts they belong to. -/
def Frame.line : Frame → String
  | .context about => "- " ++ about.message ++ "\n"
  | .note added => "  " ++ added.message ++ "\n"

/-- The frames of a report, newest first. -/
structure Report where
  frames : List Frame
deriving DecidableEq

namespace Report

/-- The report of a failure that nothing lies under. -/
def of (context : Context) : Report where
  frames := [.context context]

def ofFault (fault : Fault) : Report :=
  of (.system fault)

/-- The failure, seen from a wider context. -/
def within (report : Report) (context : Context) : Report where
  frames := .context context :: report.frames

/-- The report with a note on its newest context. -/
def noting (report : Report) (note : Note) : Report where
  frames := .note note :: report.frames

def contexts (report : Report) : List Context :=
  report.frames.filterMap fun
    | .context context => some context
    | .note _ => none

/-- What to tell a user who is shown one line of a report: the innermost context that says more than
that the system refused something. -/
def cause? (report : Report) : Option Context :=
  (report.contexts.filter fun context => !context.isSystem).getLast?

def text (report : Report) : String :=
  "Error:\n" ++ String.join (report.frames.map Frame.line)

end Report

end Snapshot
