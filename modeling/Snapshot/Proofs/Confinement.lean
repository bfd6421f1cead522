import Snapshot.Proofs.RemovalBounds
import Snapshot.Proofs.Sources

/-!
# What an export leaves alone

Whatever links a project has, an export changes only places of the destination, as long as there are
no links in that: those of the roots and what is below them, and the record of the version. Besides
it adds directories, on the way to the places of the roots and on the way to a missing destination
as its path is written. This holds at every moment of an export, however it ends.
-/

namespace Snapshot

open ExportM FileTree Export

namespace Config

/-- Where the path of the destination leads, after it is created if it is missing. -/
def LeadsTo (config : Config) (fs : FileSystem) (target : Location) : Prop :=
  ∃ entry,
    (if fs.pathExists config.destination then fs
      else (fs.createDirectories config.destination).1).find .follow config.destination =
        .ok (target, entry)

/-- Whether a place is that of a root in the destination, or below it. -/
def InRoot (config : Config) (fs : FileSystem) (place : Location) : Prop :=
  ∃ target, config.LeadsTo fs target ∧ ∃ root ∈ config.roots, target ++ root.names <+: place

/-- Whether a place in the destination is on the way to that of a root. -/
def AboveRoot (config : Config) (fs : FileSystem) (place : Location) : Prop :=
  ∃ target, config.LeadsTo fs target ∧ target <+: place ∧
    ∃ root ∈ config.roots, place <+: target ++ root.names

/-- Whether a place is that of a directory which is created on the way to a missing destination, as
the path of the destination is written. -/
def OnTheWay (config : Config) (fs : FileSystem) (place : Location) : Prop :=
  fs.pathExists config.destination = false ∧
    ∃ count, (fs.createDirectories config.destination).1.find .follow
      (config.destination.upTo count) = .ok (place, .directory)

/-- Whether a place is as it was, unless it is that of a root, or holds a new directory. -/
def Permits (config : Config) (fs : FileSystem) (tree : FileTree) (place : Location) : Prop :=
  tree.get? place = fs.tree.get? place ∨ config.InRoot fs place ∨
    fs.tree.get? place = none ∧ tree.get? place = some .directory ∧
      (config.OnTheWay fs place ∨ config.AboveRoot fs place)

/-- Apart from the places of the roots a tree is what it was, with more directories at most. -/
def Confines (config : Config) (fs : FileSystem) (tree : FileTree) : Prop :=
  ∀ place, config.Permits fs tree place

/-- Whether a place is that of the record of the version. -/
def IsRecord (config : Config) (fs : FileSystem) (place : Location) : Prop :=
  ∃ target, config.LeadsTo fs target ∧ place = target ++ versionFile.names

/-- What an export can leave of a tree in the end. -/
def Leaves (config : Config) (fs : FileSystem) (tree : FileTree) : Prop :=
  ∀ place, config.IsRecord fs place ∨ config.Permits fs tree place

/-- Whether there is no link in the destination. -/
def Unlinked (config : Config) (fs : FileSystem) : Prop :=
  ∀ target, config.LeadsTo fs target → ∀ below link,
    fs.tree.get? (target ++ below) ≠ some (.link link)

variable {config : Config} {fs : FileSystem} {tree before after : FileTree} {target : Location}

theorem confines_refl (config : Config) (fs : FileSystem) : config.Confines fs fs.tree :=
  fun _ => .inl rfl

/-- A tree stays confined if every change is at the place of a root, or a new directory on the way
to one. -/
theorem Confines.step (h : config.Confines fs before)
    (hchanged : ∀ place, after.get? place = before.get? place ∨ config.InRoot fs place ∨
      before.get? place = none ∧ after.get? place = some .directory ∧ config.AboveRoot fs place) :
    config.Confines fs after := by
  intro place
  rcases hchanged place with hsame | hroot | ⟨hnone, hdirectory, habove⟩
  · rw [Permits, hsame]
    exact h place
  · exact .inr (.inl hroot)
  · rcases h place with hbefore | hroot | ⟨-, hthere, -⟩
    · exact .inr (.inr ⟨hbefore ▸ hnone, hdirectory, .inr habove⟩)
    · exact .inr (.inl hroot)
    · simp [hnone] at hthere

theorem Confines.leaves (h : config.Confines fs tree) : config.Leaves fs tree :=
  fun place => .inr (h place)

theorem leadsTo_of_find {entry : Entry}
    (h : fs.find .follow config.destination = .ok (target, entry)) : config.LeadsTo fs target := by
  refine ⟨entry, ?_⟩
  rw [if_pos (FileSystem.pathExists_of_find h)]
  exact h

theorem LeadsTo.unique {other : Location} (h : config.LeadsTo fs target)
    (hother : config.LeadsTo fs other) : other = target := by
  obtain ⟨entry, hfind⟩ := h
  obtain ⟨found, hfound⟩ := hother
  rw [hfind] at hfound
  cases hfound
  rfl

theorem unlinked_of_entries (hleads : config.LeadsTo fs target)
    (h : ∀ entry ∈ fs.tree.entries, target <+: entry.1 → ¬entry.2 matches .link _) :
    config.Unlinked fs := by
  intro other hother below link hlink
  by_cases hroot : other ++ below = []
  · simp [hroot] at hlink
  · refine h _ ((get?_eq_some_iff_mem hroot).1 hlink) ?_ rfl
    exact hleads.unique hother ▸ List.prefix_append _ _

end Config

namespace Project

variable {project : Project} {confirm : Path → Bool} {begun session : Session}
  {fs after : FileSystem} {target : Location}

/-- Making the destination ready is confined. -/
theorem Readies.confines (h : project.Readies confirm fs after)
    (hdescent : ∀ root ∈ project.config.roots, root.IsDescent)
    (hunlinked : project.config.Unlinked fs) : project.config.Confines fs after.tree := by
  rcases h with rfl | ⟨-, hexists, -, hlosing⟩ | ⟨-, hmissing, rfl⟩
  · exact Config.confines_refl _ _
  · intro place
    refine hlosing.keeps.imp_right fun hnamed => .inl ?_
    obtain ⟨root, hroot, location, entry, hfind, hplace⟩ := hnamed
    have hleads := Config.leadsTo_of_find hexists
    have hgoesDown := (hdescent root hroot).goesDown.1
    refine ⟨_, hleads, root, hroot, ?_⟩
    rwa [← eq_of_find_join hgoesDown hexists hfind]
    intro way hway _ link hlink
    rw [Location.follow_of_not_up fun hmem => hgoesDown.up_not_mem (hway.subset hmem)] at hlink
    exact hunlinked _ hleads _ link hlink
  · obtain ⟨hadded, -⟩ := FileSystem.createDirectories_leads fs project.config.destination
    intro place
    refine (hadded.changed place).imp_right fun hnew => .inr ?_
    exact ⟨hnew.1, hnew.2.1, .inl ⟨hmissing, hnew.2.2⟩⟩

theorem IsReady.leadsTo (h : project.IsReady confirm begun target session) :
    project.config.LeadsTo begun.fileSystem target := by
  obtain ⟨-, entry, hfind⟩ := FileSystem.find_of_resolveExisting h.resolved
  rcases h.way with ⟨⟨location, hexists⟩, -, -, hlosing, -⟩ | ⟨hmissing, hcreate⟩
  · exact Config.leadsTo_of_find (hlosing.find hfind)
  · refine ⟨entry, ?_⟩
    rw [if_neg (by simp [hmissing]), hcreate]
    exact hfind

/-- No link is added in the destination. -/
theorem IsReady.unlinked (h : project.IsReady confirm begun target session)
    (hunlinked : project.config.Unlinked begun.fileSystem) (below : Location) (link : Path) :
    session.fileSystem.tree.get? (target ++ below) ≠ some (.link link) := by
  intro hlink
  refine hunlinked target h.leadsTo below link ?_
  rcases h.way with ⟨-, -, -, hlosing, -⟩ | ⟨-, hcreate⟩
  · exact hlosing.old hlink
  · obtain ⟨hadded, -⟩ :=
      FileSystem.createDirectories_leads begun.fileSystem project.config.destination
    rw [hcreate] at hadded
    rcases hadded.adds hlink with hold | ⟨hdirectory, -⟩
    · exact hold
    · cases hdirectory

end Project

namespace Export

variable {job : Export} {fs : FileSystem} {config : Config} {confirm : Path → Bool}
  {tree before after : FileTree} {path : Path}

/-- A tree in which an export is confined to its destination. -/
structure Confined (job : Export) (fs : FileSystem) (tree : FileTree) : Prop where
  leadsTo : job.config.LeadsTo fs job.target
  confines : job.config.Confines fs tree
  stands : ∃ entry, tree.get? job.target = some entry
  unlinked : ∀ below link, tree.get? (job.target ++ below) ≠ some (.link link)

namespace Confined

theorem isPlain (h : job.Confined fs tree) : job.target.IsPlain := by
  obtain ⟨entry, hentry⟩ := h.stands
  exact isPlain_of_get? hentry

/-- What the export writes it writes without passing links. -/
theorem straight (h : job.Confined fs tree) (hpath : path.GoesDown) :
    tree.Straight [] (job.targetOf path).hops := by
  have hup : Hop.up ∉ (job.targetOf path).hops := Path.up_not_mem_ofLocation_join h.isPlain hpath
  have hnames : (job.targetOf path).names = job.target ++ path.names :=
    Path.names_ofLocation_join h.isPlain hpath
  intro way hway link hlink
  rw [Location.follow_of_not_up fun hmem => hup (hway.subset hmem), List.nil_append] at hlink
  have hplace : way.filterMap Hop.name? <+: job.target ++ path.names :=
    hnames ▸ hway.filterMap Hop.name?
  rcases List.prefix_or_prefix_of_prefix hplace (List.prefix_append _ _) with
    ⟨below, hbelow⟩ | ⟨below, hbelow⟩
  · cases below with
    | nil =>
        rw [List.append_nil] at hbelow
        exact h.unlinked [] link (by rwa [List.append_nil, ← hbelow])
    | cons name below =>
        obtain ⟨entry, hentry⟩ := h.stands
        rw [← hbelow] at hentry
        simp [get?_of_get?_append hentry] at hlink
  · exact h.unlinked below link (hbelow ▸ hlink)

/-- Where new directories are on the way to a visited place, they are in the destination. -/
theorem inRoot_or_aboveRoot (h : job.Confined fs before) (hvisits : job.Visits path)
    {place : Location} (hnew : before.get? place = none) (hplace : place <+: job.placeOf path) :
    job.config.InRoot fs place ∨ job.config.AboveRoot fs place := by
  obtain ⟨-, root, hroot, habove⟩ := hvisits
  have htarget : job.target <+: place := by
    refine (List.prefix_or_prefix_of_prefix hplace (List.prefix_append _ _)).resolve_left ?_
    intro hover
    obtain ⟨entry, hentry⟩ := h.stands
    obtain ⟨found, hfound⟩ := exists_get?_of_prefix hover hentry
    simp [hnew] at hfound
  have hplaces : job.target ++ root.names <+: job.placeOf path :=
    (List.prefix_append_right_inj _).2 habove
  rcases List.prefix_or_prefix_of_prefix hplace hplaces with hover | hbelow
  · exact .inr ⟨job.target, h.leadsTo, htarget, root, hroot, hover⟩
  · exact .inl ⟨job.target, h.leadsTo, root, hroot, hbelow⟩

/-- A step at a visited path keeps an export confined. -/
theorem step (h : job.Confined fs before) (hvisits : job.Visits path)
    (hkeeps : ∀ place, place ≠ job.placeOf path → after.get? place = before.get? place ∨
      before.get? place = none ∧ after.get? place = some .directory ∧ place <+: job.placeOf path)
    (hstands : ∃ entry, after.get? job.target = some entry)
    (hlink : ∀ link, after.get? (job.placeOf path) ≠ some (.link link)) :
    job.Confined fs after where
  leadsTo := h.leadsTo
  stands := hstands
  confines := by
    apply h.confines.step
    intro place
    by_cases hplace : place = job.placeOf path
    · obtain ⟨-, root, hroot, habove⟩ := hvisits
      exact .inr (.inl ⟨job.target, h.leadsTo, root, hroot,
        hplace ▸ (List.prefix_append_right_inj _).2 habove⟩)
    · rcases hkeeps place hplace with hsame | ⟨hnew, hdirectory, hover⟩
      · exact .inl hsame
      · exact .inr ((h.inRoot_or_aboveRoot hvisits hnew hover).imp_right fun habove =>
          ⟨hnew, hdirectory, habove⟩)
  unlinked := by
    intro below link hbelow
    by_cases hplace : job.target ++ below = job.placeOf path
    · exact hlink link (hplace ▸ hbelow)
    · rcases hkeeps _ hplace with hsame | ⟨-, hdirectory, -⟩
      · exact h.unlinked below link (hsame ▸ hbelow)
      · simp [hdirectory] at hbelow

theorem of_directoriesAdded (h : job.Confined fs before) (hvisits : job.Visits path)
    (hadded : before.DirectoriesAdded after (· <+: job.placeOf path)) : job.Confined fs after := by
  apply h.step hvisits
  · exact fun place _ => hadded.changed place
  · obtain ⟨entry, hentry⟩ := h.stands
    exact ⟨entry, hadded.keeps hentry⟩
  · intro link hlink
    rcases hadded.adds hlink with hold | ⟨hdirectory, -⟩
    · exact h.unlinked path.names link hold
    · cases hdirectory

theorem of_fileWritten (h : job.Confined fs before) (hvisits : job.Visits path)
    {content : List UInt8}
    (hwritten : before.FileWritten after (job.placeOf path) content) : job.Confined fs after := by
  have hplace : after.get? (job.placeOf path) = some .sink ∨
      after.get? (job.placeOf path) = some (.file content) := by
    by_cases hsink : before.get? (job.placeOf path) = some .sink
    · exact .inl (hwritten.swallowed hsink)
    · exact .inr (hwritten.written hsink)
  apply h.step hvisits
  · exact fun place hother =>
      same_or_new (fun _ => hwritten.keeps hother) fun _ => hwritten.adds hother
  · by_cases htarget : job.target = job.placeOf path
    · rw [htarget]
      exact hplace.elim (fun hsink => ⟨_, hsink⟩) fun hfile => ⟨_, hfile⟩
    · obtain ⟨entry, hentry⟩ := h.stands
      exact ⟨entry, hwritten.keeps htarget hentry⟩
  · intro link hlink
    simp [hlink] at hplace

/-- Where the destination is ready, nothing but the places of the roots has changed so far. -/
theorem of_isReady {session : Session}
    (hdescent : ∀ root ∈ job.config.roots, root.IsDescent)
    (hready : job.toProject.IsReady confirm { fileSystem := fs } job.target session)
    (hunlinked : job.config.Unlinked fs) : job.Confined fs session.fileSystem.tree where
  leadsTo := hready.leadsTo
  confines := hready.readies.confines hdescent hunlinked
  stands := by
    obtain ⟨-, entry, hfind⟩ := FileSystem.find_of_resolveExisting hready.resolved
    exact ⟨entry, FileSystem.get?_of_find hfind⟩
  unlinked := hready.unlinked hunlinked

end Confined

/-- A walk keeps an export confined. -/
theorem keeps_confined (job : Export) (fs : FileSystem) :
    job.Keeps job.Visits (fun session => job.Confined fs session.fileSystem.tree)
      fun _ session => job.Confined fs session.fileSystem.tree where
  of_kept _ _ h := h
  of_status _ _ h := h
  of_missing _ _ _ _ h := h
  failed_of_status _ _ _ h := h
  visited_join _ _ hpath hname := hpath.join hname
  createTarget path hpath := by
    refine ensures_of_at fun session hsession => ?_
    have hstart := session.fileSystem.current.isLeftOf_append_replicate
    have hstep : Ensures (At session.fileSystem session.summary) (job.createTarget path) _ _ :=
      createTarget_ensures (hsession.straight hpath.1) hstart hsession.isPlain hpath.1
    refine hstep.imp (fun _ h => h) ?_ ?_
    · exact fun _ after hafter => hsession.of_directoriesAdded hpath hafter.1
    · exact fun _ after hafter => hsession.of_directoriesAdded hpath hafter.1
  exportFile path hpath := by
    refine ensures_of_at fun session hsession => ?_
    have hstart := session.fileSystem.current.isLeftOf_append_replicate
    have hstep : Ensures (At session.fileSystem session.summary) (job.exportFile path) _ _ :=
      exportFile_ensures (hsession.straight hpath.1) hstart hsession.isPlain hpath.1
    refine hstep.imp (fun _ h => h) ?_ ?_
    · intro _ after hafter
      obtain ⟨content, out, hcopied, -⟩ := hafter
      by_cases hout : out = []
      · rw [hcopied.unchanged hout]
        exact hsession
      · exact hsession.of_fileWritten hpath (hcopied.written hout)
    · exact fun _ after hafter => hsession.of_directoriesAdded hpath hafter.1

/-- Recording the version changes its place alone. -/
theorem writeVersion_leaves :
    Ensures (fun session => job.Confined fs session.fileSystem.tree) job.writeVersion
      (fun _ session => job.config.Leaves fs session.fileSystem.tree)
      fun _ session => job.config.Leaves fs session.fileSystem.tree := by
  refine ensures_of_at fun session hsession => ?_
  have hstart := session.fileSystem.current.isLeftOf_append_replicate
  have hwrite : Ensures (At session.fileSystem session.summary) job.writeVersion _ _ :=
    writeVersion_ensures (hsession.straight goesDown_versionFile) hstart hsession.isPlain
  refine hwrite.imp (fun _ h => h) ?_ ?_
  · intro _ after hafter
    obtain ⟨-, hafter, -⟩ := hafter
    intro place
    by_cases hplace : place = job.placeOf versionFile
    · exact .inl ⟨job.target, hsession.leadsTo, hplace⟩
    · right
      have hsame := hafter place
      rw [if_neg fun h => hplace h.1] at hsame
      rw [Config.Permits, hsame]
      exact hsession.confines place
  · intro _ after hafter
    rw [hafter.1]
    exact hsession.confines.leaves

theorem perform_leaves (confirm : Path → Bool) (hunlinked : config.Unlinked fs) :
    Ensures (fun session => session = { fileSystem := fs }) (perform config confirm)
      (fun _ session => config.Leaves fs session.fileSystem.tree)
      fun _ session => config.Leaves fs session.fileSystem.tree := by
  apply perform_readies
  · exact fun _ => (Config.confines_refl config fs).leaves
  · intro base report session hdescent _ hstopped
    exact (hstopped.2.confines hdescent hunlinked).leaves
  · intro base target hdescent _
    let job : Export := { config, base, target }
    have hroots : Ensures (fun session => job.Confined fs session.fileSystem.tree)
        (config.roots.forM job.exportRoot)
        (fun _ session => job.Confined fs session.fileSystem.tree)
        fun _ session => config.Leaves fs session.fileSystem.tree :=
      ((job.keeps_confined fs).exportRoots (visits_root job hdescent)).imp (fun _ h => h)
        (fun _ _ h => h) fun _ _ h => h.confines.leaves
    refine (exportRoots_ensures hroots writeVersion_leaves fun _ _ h => h).imp ?_
      (fun _ _ h => h.1) fun _ _ h => h
    exact fun session hready => .of_isReady hdescent hready hunlinked

theorem runExport_leaves (confirm : Path → Bool) (hunlinked : config.Unlinked fs) :
    config.Leaves fs (runExport config confirm fs).session.fileSystem.tree := by
  have hrun := runExport_from (perform_leaves confirm hunlinked) rfl
  split at hrun
  · exact hrun
  · exact hrun

/-- Whatever comes of an export, it leaves everything as it was, apart from the record of the
version, the places of the roots in the destination and what is below them, and new directories on
the way to these places or to a missing destination. -/
theorem export_confined (hunlinked : config.Unlinked fs) (place : Location) :
    let after := (runExport config confirm fs).session.fileSystem.tree
    after.get? place = fs.tree.get? place ∨
      (∃ target, config.LeadsTo fs target ∧ place = target ++ versionFile.names) ∨
      config.InRoot fs place ∨
      fs.tree.get? place = none ∧ after.get? place = some .directory ∧
        (config.OnTheWay fs place ∨ config.AboveRoot fs place) := by
  intro after
  rcases runExport_leaves confirm hunlinked place with hrecord | hsame | hchanged
  · exact .inr (.inl hrecord)
  · exact .inl hsame
  · exact .inr (.inr hchanged)

/-- A project with a link, and a destination that holds a file of its own. -/
def keptBeside : FileSystem :=
  .ofTree
    { entries :=
        [(.ofString "p/a.c", .file [0x61, 0x0A]),
          (.ofString "p/src/b.c", .link (Path.ofString "../a.c")),
          (.ofString "p/src", .directory), (.ofString "p", .directory),
          (.ofString "out/kept.c", .file [0x6B, 0x0A]),
          (.ofString "out", .directory)]
      wellFormed := ⟨by decide +kernel, by decide +kernel, by decide +kernel, by decide +kernel⟩ }
    []

/-- What else is in the destination stays. -/
theorem export_confined_keptBeside :
    let place : Location := [{ text := "out" }, { text := "kept.c" }]
    besideProject.Unlinked keptBeside ∧
      (runExport besideProject (fun _ => true) keptBeside).session.fileSystem.tree.get? place =
        some (.file [0x6B, 0x0A]) := by
  intro place
  have hleads : besideProject.LeadsTo keptBeside [{ text := "out" }] :=
    ⟨.directory, eq_ok_of_toOption (by decide +kernel)⟩
  have hunlinked : besideProject.Unlinked keptBeside :=
    Config.unlinked_of_entries hleads (by decide +kernel)
  have hbefore : keptBeside.tree.get? place = some (.file [0x6B, 0x0A]) := by decide +kernel
  refine ⟨hunlinked, ?_⟩
  rw [← hbefore]
  refine (export_confined hunlinked place).resolve_right ?_
  rintro (⟨target, htarget, hrecord⟩ | ⟨target, htarget, root, hroot, hbelow⟩ | ⟨hnew, -⟩)
  · rw [hleads.unique htarget] at hrecord
    exact absurd hrecord (by decide +kernel)
  · rw [hleads.unique htarget, List.mem_singleton.1 hroot] at hbelow
    exact absurd hbelow (by decide +kernel)
  · simp [hbefore] at hnew

/-- The settings with which the path of a new destination goes into a directory of it and out again.
-/
def throughSub : Config where
  baseDirectory := Path.ofString "p"
  destination := Path.ofString "new/sub/.."
  roots := [Path.ofString "src"]

/-- A directory that is created on the way to a new destination can be in it, without being on the
way to a root. -/
theorem directory_added_throughSub :
    let target : Location := [{ text := "new" }]
    let place : Location := target ++ [{ text := "sub" }]
    let outcome := runExport throughSub (fun _ => true) smallProject
    smallProject.tree.LinkFree ∧ throughSub.LeadsTo smallProject target ∧
      outcome.result = .ok { written := 1 } ∧ smallProject.tree.get? target = none ∧
      smallProject.tree.get? place = none ∧
      outcome.session.fileSystem.tree.get? place = some .directory ∧
      place ≠ target ++ versionFile.names ∧
      ∀ root ∈ throughSub.roots,
        ¬target ++ root.names <+: place ∧ ¬place <+: target ++ root.names := by
  intro target place outcome
  have hleads : throughSub.LeadsTo smallProject target :=
    ⟨.directory, eq_ok_of_toOption (by decide +kernel)⟩
  exact ⟨linkFree_of_entries (by decide), hleads, eq_ok_of_toOption (by decide +kernel),
    by decide +kernel, by decide +kernel, by decide +kernel, by decide +kernel, by decide +kernel⟩

end Export

end Snapshot
