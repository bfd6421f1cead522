import Snapshot.Export.Listing
import Snapshot.Export.Session

/-!
# The destination

Before anything is copied, the destination is checked and made ready. One that would be read back as
part of a root, or whose roots hold the project, is refused. An existing directory is used only with
consent, and then loses what stands under the names of the roots; everything else in it stays. A
missing one is created.
-/

namespace Snapshot

namespace Project

variable (project : Project)

/-- The report of a destination that is not acceptable. -/
def refusal (note : Note) : Report :=
  ((Report.of (.path project.config.destination)).noting note).within .exporting

/-- Checks one root against the location of the destination. -/
def checkRoot (fs : FileSystem) (resolved : Location) (root : Path) : Except Report Unit :=
  match fs.canonicalize (project.pathOf root) with
  | .ok location =>
      if location <+: resolved then
        .error (project.refusal (.destinationInsideRoot root))
      else
        checkTarget
  | .error _ => checkTarget
where
  /-- Checks the place in the destination that the root is copied to. -/
  checkTarget : Except Report Unit :=
    match fs.resolveLenient ((Path.ofLocation resolved).join root) with
    | .error report => .error ((report.within .exporting).noting .unresolvedDestination)
    | .ok target =>
        if target <+: project.base then
          .error (project.refusal (.rootHoldsProject root))
        else
          .ok ()

/-- Checks that exporting can neither read its own output nor remove the project. -/
def checkDestination (fs : FileSystem) : Except Report Unit :=
  match fs.resolveLenient project.config.destination with
  | .error report => .error ((report.within .exporting).noting .unresolvedDestination)
  | .ok resolved =>
      if resolved = project.base then
        .error (project.refusal .destinationIsProject)
      else
        project.config.roots.forM (project.checkRoot fs resolved)

/-- Removes what a path names, if it names anything. -/
def removeExisting (path : Path) : ExportM Unit := do
  let session ← get
  match session.fileSystem.entryAt .keep path with
  | .error _ => return
  | .ok _ =>
      ExportM.say project.config (.removing path)
      ExportM.change fun fs =>
        let (fs, outcome) := fs.removeAll path
        (fs, outcome.mapError fun fault =>
          (((Report.ofFault fault).within (.path path)).noting .notRemoved).within .exporting)

def askConsent (confirm : Path → Bool) : ExportM Unit := do
  let destination := project.config.destination
  modify fun session =>
    { session with
      questions := session.questions ++ [{ destination, fileSystem := session.fileSystem }] }
  unless confirm destination do
    throw ((Report.of (.declined destination)).within .exporting)

/-- Makes the destination ready and gives its location. -/
def prepareDestination (confirm : Path → Bool) : ExportM Location := do
  let destination := project.config.destination
  ExportM.query project.checkDestination
  let fs := (← get).fileSystem
  if fs.pathExists destination then
    unless fs.isDirectory destination do
      throw (project.refusal .destinationNotDirectory)
    project.askConsent confirm
    project.config.roots.forM fun root => project.removeExisting (destination.join root)
  else
    ExportM.say project.config (.creatingDestination destination)
    ExportM.change fun fs =>
      let (fs, outcome) := fs.createDirectories destination
      (fs, outcome.mapError fun fault =>
        (((Report.ofFault fault).within (.path destination)).noting .destinationNotCreated).within
          .exporting)
  ExportM.query fun fs =>
    (fs.resolveExisting destination).mapError fun report =>
      (report.within .exporting).noting .unresolvedDestination

end Project

end Snapshot
