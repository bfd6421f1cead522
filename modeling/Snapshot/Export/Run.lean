import Snapshot.Export.Destination
import Snapshot.FileCopy

/-!
# Exports

An export copies the roots of a project to a destination, one after the other. A directory is copied
with its files first and then its subdirectories, each in the order of their names; a file is copied
through the filter for the version, and not at all if nothing is left of it. The export stops at the
first failure. At its end it records the version in the destination.
-/

namespace Snapshot

/-- An export whose destination is ready. -/
structure Export extends Project where
  target : Location

namespace Export

variable (job : Export)

def targetOf (path : Path) : Path :=
  (Path.ofLocation job.target).join path

/-- Runs a part of the export and says so if it fails. -/
def sayingFailure {α : Type} (part : ExportM α) : ExportM α :=
  tryCatch part fun report => do
    ExportM.say job.config .failed
    throw report

/-- Copies a file through the filter, and says whether there was anything to write. -/
def copyFile (path : Path) : ExportM Bool := do
  let copy ← ExportM.query fun fs =>
    FileCopy.open? fs (job.pathOf path) (job.targetOf path) path.text
  modify fun session =>
    { session with
      inputs := session.inputs ++ [{ path, content := copy.unread.map List.flatten }] }
  let copy ← ExportM.query fun _ => copy.filtered job.config.version
  ExportM.change fun fs => copy.finish fs

def exportFile (path : Path) : ExportM Unit := do
  ExportM.say job.config (.exporting path)
  let written ← job.sayingFailure <|
    tryCatch (job.copyFile path) fun report => throw (report.within .exporting)
  if written then
    ExportM.count fun summary => { summary with written := summary.written + 1 }
  else
    ExportM.count fun summary => { summary with skipped := summary.skipped + 1 }
    ExportM.say job.config (.skipped path)

def creationFailure (path : Path) (fault : Fault) : Report :=
  (((Report.ofFault fault).within (.path (job.targetOf path))).noting .directoryNotCreated).within
    .exporting

def createTarget (path : Path) : ExportM Unit :=
  ExportM.change fun fs =>
    let (fs, outcome) := fs.createDirectories (job.targetOf path)
    (fs, outcome.mapError (job.creationFailure path))

/-- Exports a directory of the project and at most `depth` levels of directories in it. -/
def exportDirectory : (depth : Nat) → Path → ExportM Unit
  | 0, path => throw (job.creationFailure path .nameTooLong)
  | depth + 1, path => do
      ExportM.say job.config (.creatingDirectory path)
      job.createTarget path
      let listing ← job.sayingFailure <| ExportM.query fun fs =>
        (Listing.read job.toProject job.target fs path).mapError fun report =>
          (report.within .exporting).noting .directoryNotScanned
      listing.files.forM job.exportFile
      listing.subdirectories.forM (exportDirectory depth)

/-- The number of levels that a walk through the project can have. Each level makes its paths
longer, and a path that is too long leads to no directory. -/
def depthLimit : Nat :=
  Path.maxSize

def exportRoot (root : Path) : ExportM Unit := do
  let fs := (← get).fileSystem
  let place := job.pathOf root
  if !fs.pathExists place then
    ExportM.say job.config (.missingRoot root)
    ExportM.count fun summary =>
      { summary with missingRoots := summary.missingRoots ++ [root] }
  else if root.fileName?.any job.config.isIgnored then
    return
  else if fs.isDirectory place then
    job.exportDirectory depthLimit root
  else
    job.exportFile root

def writeVersion : ExportM Unit :=
  let path := job.targetOf versionFile
  ExportM.change fun fs =>
    match fs.write path (Utf8.encode (toString job.config.version.toInt).toList) with
    | .ok fs => (fs, .ok ())
    | .error fault =>
        (fs, .error ((((Report.ofFault fault).within (.path path)).noting
          .versionNotWritten).within .exporting))

def exportRoots : ExportM Summary := do
  job.config.roots.forM job.exportRoot
  job.writeVersion
  let summary := (← get).summary
  ExportM.say job.config (.done summary.written summary.skipped)
  return summary

/-- Checks the settings, makes the destination ready and exports. -/
def perform (config : Config) (confirm : Path → Bool) : ExportM Summary := do
  ExportM.query fun _ => config.validate.mapError fun report =>
    (report.within .exporting).noting .invalidRoots
  let base ← ExportM.query fun fs =>
    (fs.resolveExisting config.baseDirectory).mapError fun report =>
      (report.within .exporting).noting .unresolvedProject
  ExportM.say config (.usingVersion config.version)
  let project : Project := { config, base }
  let target ← project.prepareDestination confirm
  exportRoots { project with target }

end Export

/-- What an export comes to: its summary or the report of its failure, and what it leaves behind. -/
structure Outcome where
  result : Except Report Summary
  session : Session

/-- Runs an export on a file system. Whether an existing destination may be overwritten is up to
`confirm`. -/
def runExport (config : Config) (confirm : Path → Bool) (fs : FileSystem) : Outcome :=
  match Export.perform config confirm { fileSystem := fs } with
  | .ok summary session => { result := .ok summary, session }
  | .error report session => { result := .error report, session }

end Snapshot
