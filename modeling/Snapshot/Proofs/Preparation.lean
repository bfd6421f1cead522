import Snapshot.Proofs.Clearing

/-!
# Destinations without links

Where there are no links, paths lead to the places that they read as. Before anything is copied, an
existing destination loses what stands at the places of the roots, and a missing one is created.
Either way the rest of the tree stays, also if this fails halfway.
-/

namespace Snapshot

open ExportM FileTree Export

namespace Project

/-- What making the destination ready leaves of a tree: everything that is not at or below the place
of a root in the destination, and directories that were created. -/
structure Readied (project : Project) (fs : FileSystem) (after : FileTree) : Prop where
  keeps : ∀ {location entry}, fs.tree.get? location = some entry →
    (∀ root ∈ project.config.roots,
      ¬fs.place project.config.destination ++ root.names <+: location) →
    after.get? location = some entry
  adds : ∀ {location entry}, after.get? location = some entry →
    fs.tree.get? location = some entry ∨ entry = .directory ∧
      (Hop.up ∉ project.config.destination.hops →
        location <+: fs.place project.config.destination)
  keeps_missing : fs.pathExists project.config.destination = false →
    ∀ {location entry}, fs.tree.get? location = some entry → after.get? location = some entry
  accepts_or_eq : project.Accepts fs ∨ after = fs.tree

/-- Whether no file is left where a root is copied to, as far as the path there can be followed. -/
def Cleared (project : Project) (fs : FileSystem) (root : Path) (after : FileTree) : Prop :=
  (project.config.destination.join root).size ≤ Path.maxSize → ∀ below content,
    below ≠ [] ∨ root.EndsInName →
      after.get? (fs.place project.config.destination ++ root.names ++ below) ≠
        some (.file content)

/-- A destination that was missing stands at a place that was free, and in one that was there the
places of the roots have been cleared. -/
structure Ready (project : Project) (fs : FileSystem) (after : FileTree) : Prop extends
    project.Readied fs after where
  accepts : project.Accepts fs
  exists_entry : ∃ entry, after.get? (fs.place project.config.destination) = some entry
  free : fs.pathExists project.config.destination = false →
    Hop.up ∉ project.config.destination.hops →
      fs.tree.get? (fs.place project.config.destination) = none
  cleared : Hop.up ∉ project.config.destination.hops →
    ∀ root ∈ project.config.roots, project.Cleared fs root after

variable {project : Project} {fs : FileSystem} {after : FileTree} {confirm : Path → Bool}

namespace Readied

theorem refl (fs : FileSystem) : project.Readied fs fs.tree where
  keeps h _ := h
  adds := .inl
  keeps_missing _ := id
  accepts_or_eq := .inr rfl

theorem linkFree (h : project.Readied fs after) (hlinks : fs.tree.LinkFree) : after.LinkFree := by
  intro location target hlink
  rcases h.adds hlink with hold | ⟨hdirectory, -⟩
  · exact hlinks _ _ hold
  · cases hdirectory

theorem of_directoriesAdded (haccepts : project.Accepts fs) {added : Location → Prop}
    (hadded : fs.tree.DirectoriesAdded after added)
    (habove : Hop.up ∉ project.config.destination.hops → ∀ location, added location →
      location <+: fs.place project.config.destination) :
    project.Readied fs after where
  keeps hentry _ := hadded.keeps hentry
  adds hentry := (hadded.adds hentry).imp_right fun ⟨hdirectory, hplace⟩ =>
    ⟨hdirectory, fun hup => habove hup _ hplace⟩
  keeps_missing _ := hadded.keeps
  accepts_or_eq := .inl haccepts

/-- At a place that was free there is nothing to clear. -/
theorem cleared_of_free (h : project.Readied fs after)
    (hfree : fs.tree.get? (fs.place project.config.destination) = none) (root : Path) :
    project.Cleared fs root after := by
  intro _ below content _ hfile
  rcases h.adds hfile with hold | ⟨hdirectory, -⟩
  · rw [List.append_assoc] at hold
    cases hway : root.names ++ below with
    | nil => simp [hway, hfree] at hold
    | cons name names =>
        rw [hway] at hold
        simp [get?_of_get?_append hold] at hfree
  · cases hdirectory

end Readied

section Preparing

variable {begun session : Session} {target : Location} {place : Location}
  (hdescent : ∀ root ∈ project.config.roots, root.IsDescent)

include hdescent

/-- Where there are no links the paths of the roots name their places. -/
theorem Names.exists_prefix {fs : FileSystem} (h : project.Names fs place)
    (hlinks : fs.tree.LinkFree)
    (hleads : (project.config.destination.isAbsolute || fs.hasCurrent) = true) :
    ∃ root ∈ project.config.roots,
      fs.place project.config.destination ++ root.names <+: place := by
  obtain ⟨root, hroot, location, entry, hfind, hplace⟩ := h
  obtain ⟨start, hstart, hplaces⟩ := fs.exists_isLeftOf
  have hdown := (hdescent root hroot).goesDown.1
  obtain ⟨hlocation, -⟩ := FileSystem.find_holds hlinks hstart hfind
  rw [Path.placeFrom_join hdown.relative, hplaces _ hleads,
    Location.follow_of_not_up hdown.up_not_mem, ← Path.names] at hlocation
  exact ⟨root, hroot, hlocation ▸ hplace⟩

theorem Readies.readied {fs after : FileSystem} (h : project.Readies confirm fs after)
    (hlinks : fs.tree.LinkFree) : project.Readied fs after.tree := by
  have haccepts (haccepted : project.checkDestination fs = .ok ()) : project.Accepts fs :=
    accepts_of_checkDestination hlinks (fun root hmem => (hdescent root hmem).goesDown.1) haccepted
  rcases h with rfl | ⟨haccepted, hexists, -, hlosing⟩ | ⟨haccepted, -, rfl⟩
  · exact .refl _
  · refine ⟨?_, fun hentry => .inl (hlosing.old hentry), ?_, .inl (haccepts haccepted)⟩
    · intro location entry hentry hother
      rcases hlosing.keeps with hsame | hnamed
      · exact hsame.trans hentry
      · obtain ⟨root, hroot, hbelow⟩ :=
          hnamed.exists_prefix hdescent hlinks (haccepts haccepted).leads
        exact absurd hbelow (hother root hroot)
    · simp [FileSystem.pathExists_of_find hexists]
  · obtain ⟨start, hstart, hplaces⟩ := fs.exists_isLeftOf
    obtain ⟨hadded, -⟩ :=
      FileSystem.createDirectories_added project.config.destination hlinks.straight hstart
    refine .of_directoriesAdded (haccepts haccepted) hadded fun hup location hway => ?_
    obtain ⟨count, rfl⟩ := hway
    rw [← hplaces _ (haccepts haccepted).leads]
    exact Path.placeFrom_upTo_prefix hup count

/-- Where nothing is found under the path of a root, no file is. -/
theorem cleared_of_unfound {fs after : FileSystem} (hafter : after.tree.LinkFree)
    (hleads : (project.config.destination.isAbsolute || after.hasCurrent) = true)
    (hplace : after.place project.config.destination = fs.place project.config.destination)
    (hup : Hop.up ∉ project.config.destination.hops)
    (hunfound : project.Unfound project.config.roots after) {root : Path}
    (hroot : root ∈ project.config.roots) : project.Cleared fs root after.tree := by
  intro hsize below content hends hfile
  obtain ⟨hdown, hne⟩ := (hdescent root hroot).goesDown
  have hjoin : (project.config.destination.join root).placeFrom after.current.anchor =
      fs.place project.config.destination ++ root.names := by
    rw [Path.placeFrom_join hdown.relative, ← FileSystem.place, hplace,
      Location.follow_of_not_up hdown.up_not_mem, Path.names]
  have hjoinUp : Hop.up ∉ (project.config.destination.join root).hops := by
    rw [Path.up_mem_hops_join hdown.relative, not_or]
    exact ⟨hup, hdown.up_not_mem⟩
  have hjoinNames : (project.config.destination.join root).names ≠ [] := by
    rw [Path.names_join hdown.relative]
    exact List.append_ne_nil_of_right_ne_nil _ hne
  rw [← hjoin] at hfile
  obtain ⟨entry, hentry, hentryEnds⟩ : ∃ entry,
      after.tree.get? ((project.config.destination.join root).placeFrom after.current.anchor) =
        some entry ∧
      (entry = .directory ∨ (project.config.destination.join root).EndsInName) := by
    cases below with
    | nil =>
        rw [List.append_nil] at hfile
        exact ⟨_, hfile, .inr ((hends.resolve_left (by simp)).join hdown.relative)⟩
    | cons name below => exact ⟨_, get?_of_get?_append hfile, .inl rfl⟩
  apply hunfound root hroot hleads _ entry
  apply FileSystem.find_keep_eq_ok hafter _ hjoinUp hjoinNames hsize hentry hentryEnds
  rwa [(Path.body_join _ hdown.relative).1]

theorem IsReady.ready (h : project.IsReady confirm begun target session)
    (hlinks : begun.fileSystem.tree.LinkFree) :
    target = begun.fileSystem.place project.config.destination ∧
      project.Ready begun.fileSystem session.fileSystem.tree := by
  have hreadied := h.readies.readied hdescent hlinks
  have hafter := hreadied.linkFree hlinks
  have haccepts := accepts_of_checkDestination hlinks
    (fun root hmem => (hdescent root hmem).goesDown.1) h.accepted
  obtain ⟨start, hstart, hplaces⟩ := begun.fileSystem.exists_isLeftOf
  obtain ⟨htarget, hentry⟩ :=
    FileSystem.resolveExisting_holds hafter (h.current hstart) h.resolved
  rw [hplaces _ h.leads] at htarget
  obtain ⟨hleads, hplace, -⟩ := FileSystem.resolveExisting_eq_ok hafter h.resolved
  have hfree (hmissing : begun.fileSystem.pathExists project.config.destination = false)
      (hup : Hop.up ∉ project.config.destination.hops) :
      begun.fileSystem.tree.get? (begun.fileSystem.place project.config.destination) = none :=
    htarget ▸ (h.free_of_missing hmissing (FileSystem.goesDownBeyond_of_not_up hup)).1
  refine ⟨htarget, hreadied, haccepts, htarget ▸ hentry, hfree, fun hup root hroot => ?_⟩
  rcases h.way with ⟨-, -, -, -, hunfound⟩ | ⟨hmissing, -⟩
  · exact cleared_of_unfound hdescent hafter hleads (hplace.symm.trans htarget) hup hunfound hroot
  · exact hreadied.cleared_of_free (hfree hmissing hup) root

end Preparing

end Project

/-! ## Whole exports -/

namespace Export

/-- The export that settings ask for, with its paths as they read. -/
def resolved (fs : FileSystem) (config : Config) : Export where
  config
  base := fs.place config.baseDirectory
  target := fs.place config.destination

/-- The start of the export of the roots. -/
structure Begins (job : Export) (fs : FileSystem) (start : Location) (session : Session) :
    Prop where
  ready : job.toProject.Ready fs session.fileSystem.tree
  current : session.fileSystem.current.IsLeftOf start
  summary : session.summary = {}

variable {fs : FileSystem} {config : Config} {confirm : Path → Bool}
  {after : Summary → Session → Prop} {failed : Report → Session → Prop}

/-- What holds after an export: as far as the roots are exported, it depends on them, and otherwise
the destination has at most been made ready, and guards are not the reason. -/
theorem perform_begins (hlinks : fs.tree.LinkFree)
    (hfailed : ∀ report session, ¬report.TellsOfGuards →
      (resolved fs config).Readied fs session.fileSystem.tree → failed report session)
    (hroots : ∀ start, (∀ root ∈ config.roots, root.IsDescent) →
      Ensures ((resolved fs config).Begins fs start) (resolved fs config).exportRoots after
        failed) :
    Ensures (At fs {}) (perform config confirm) after failed := by
  apply Ensures.of_start
  rintro begun ⟨rfl, hsummary⟩
  apply perform_prepares
  · exact fun report hguards => hfailed report begun hguards (.refl _)
  · intro base report session hguards hdescent hbase hstopped
    obtain ⟨-, rfl, -⟩ := FileSystem.resolveExisting_eq_ok hlinks hbase
    exact hfailed report session hguards (hstopped.2.readied hdescent hlinks)
  · intro base target hdescent hbase
    obtain ⟨-, rfl, -⟩ := FileSystem.resolveExisting_eq_ok hlinks hbase
    obtain ⟨start, hstart, -⟩ := begun.fileSystem.exists_isLeftOf
    apply Ensures.of_start
    intro session hready
    obtain ⟨rfl, hbegins⟩ := hready.ready hdescent hlinks
    exact (hroots start hdescent).from_session
      ⟨hbegins, hready.current hstart, hready.alike.summary.trans hsummary⟩

theorem perform_ensures (hlinks : fs.tree.LinkFree)
    (hfailed : ∀ report session,
      (resolved fs config).Readied fs session.fileSystem.tree → failed report session)
    (hroots : ∀ start, (∀ root ∈ config.roots, root.IsDescent) →
      Ensures ((resolved fs config).Begins fs start) (resolved fs config).exportRoots after
        failed) :
    Ensures (At fs {}) (perform config confirm) after failed :=
  perform_begins hlinks (fun report session _ => hfailed report session) hroots

theorem runExport_ensures (h : Ensures (At fs {}) (perform config confirm) after failed) :
    match (runExport config confirm fs).result with
    | .ok summary => after summary (runExport config confirm fs).session
    | .error report => failed report (runExport config confirm fs).session :=
  runExport_from h ⟨rfl, rfl⟩

end Export

end Snapshot
