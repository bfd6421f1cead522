import Snapshot.Proofs.Listings
import Snapshot.Proofs.Preparation

/-!
# Walks through the project

What every step of an export keeps, the export keeps. The steps are those at the paths that a walk
visits: with a path it visits the paths that have one name more, whatever its depth. A property that
is kept in this way need not say anything about the order of the steps.
-/

namespace Snapshot

theorem FileSystem.exists_names_of_list_eq_ok {fs : FileSystem} {path : Path}
    {names : List Segment} (h : fs.list path = .ok names) :
    ∃ location, names = fs.tree.names location := by
  unfold list at h
  cases hfind : fs.find .follow path with
  | error fault => simp [hfind, Except.bind] at h
  | ok found =>
      obtain ⟨location, entry⟩ := found
      simp only [hfind, Except.bind] at h
      split at h
      · cases h
        exact ⟨location, rfl⟩
      · cases h

/-- A listing shows paths with one name more. -/
theorem Listing.exists_isName_of_mem {project : Project} {destination : Location}
    {fs : FileSystem} {directory path : Path} {listing : Listing}
    (h : read project destination fs directory = .ok listing)
    (hpath : path ∈ listing.files ∨ path ∈ listing.subdirectories) :
    ∃ name : Segment, name.IsName ∧ path = directory.join (.ofSegment name) := by
  unfold read at h
  split at h
  · next names hlist =>
      cases h
      obtain ⟨location, rfl⟩ := FileSystem.exists_names_of_list_eq_ok hlist
      simp only [ofNames, List.mem_map, mem_filter_sorted] at hpath
      rcases hpath with ⟨name, ⟨hmem, -⟩, rfl⟩ | ⟨name, ⟨hmem, -⟩, rfl⟩
      · exact ⟨name, FileTree.isName_of_mem_names hmem, rfl⟩
      · exact ⟨name, FileTree.isName_of_mem_names hmem, rfl⟩
  · cases h

theorem Listing.exists_of_mem_files {project : Project} {destination : Location}
    {fs : FileSystem} {directory path : Path} {listing : Listing} (hdirectory : directory.GoesDown)
    (h : read project destination fs directory = .ok listing) (hpath : path ∈ listing.files) :
    ∃ name : Segment, name.IsName ∧ path = directory.join (.ofSegment name) ∧
      fs.isFile (project.pathOf path) = true := by
  obtain ⟨name, hname, rfl⟩ := exists_isName_of_mem h (.inl hpath)
  refine ⟨name, hname, rfl, ?_⟩
  unfold read at h
  split at h
  · cases h
    simp only [ofNames, List.mem_map, List.mem_filter, Project.pathOf_join hdirectory] at hpath
    obtain ⟨other, ⟨-, hfile⟩, heq⟩ := hpath
    exact heq ▸ hfile
  · cases h

/-- The directories in a listing are directories, and none of them is found in the destination. -/
theorem Listing.exists_of_mem_subdirectories {project : Project} {destination : Location}
    {fs : FileSystem} {directory path : Path} {listing : Listing} (hdirectory : directory.GoesDown)
    (h : read project destination fs directory = .ok listing)
    (hpath : path ∈ listing.subdirectories) :
    ∃ name : Segment, name.IsName ∧ path = directory.join (.ofSegment name) ∧
      fs.isDirectory (project.pathOf path) = true ∧
      fs.leadsInto destination (project.pathOf path) = false := by
  obtain ⟨name, hname, rfl⟩ := exists_isName_of_mem h (.inr hpath)
  refine ⟨name, hname, rfl, ?_⟩
  unfold read at h
  split at h
  · cases h
    simp only [ofNames, List.mem_map, List.mem_filter, Bool.and_eq_true, Bool.not_eq_true',
      Project.pathOf_join hdirectory] at hpath
    obtain ⟨other, ⟨-, hthere, houtside⟩, heq⟩ := hpath
    exact heq ▸ ⟨hthere, houtside⟩
  · cases h

namespace Export

open ExportM

variable {job : Export} {visited : Path → Prop} {kept : Session → Prop}
  {failed : Report → Session → Prop}

/-- Every step at a visited path keeps a property of the file system, and where one fails something
is known as well. -/
structure Keeps (job : Export) (visited : Path → Prop) (kept : Session → Prop)
    (failed : Report → Session → Prop) : Prop where
  of_kept : ∀ report session, kept session → failed report session
  of_status : ∀ session status, kept session → kept { session with status }
  of_missing : ∀ root session, visited root →
    session.fileSystem.pathExists (job.pathOf root) = false → kept session →
      kept { session with summary :=
        { session.summary with missingRoots := session.summary.missingRoots ++ [root] } }
  failed_of_status : ∀ report session status,
    failed report session → failed report { session with status }
  visited_join : ∀ path name, visited path → Segment.IsName name →
    visited (path.join (.ofSegment name))
  createTarget : ∀ path, visited path →
    Ensures kept (job.createTarget path) (fun _ => kept) failed
  exportFile : ∀ path, visited path → Ensures kept (job.exportFile path) (fun _ => kept) failed

/-- Of an export that fails nothing need be known. -/
theorem Keeps.anyhow (h : job.Keeps visited kept failed) :
    job.Keeps visited kept fun _ _ => True where
  of_kept _ _ _ := trivial
  of_status := h.of_status
  of_missing := h.of_missing
  failed_of_status _ _ _ _ := trivial
  visited_join := h.visited_join
  createTarget path hpath :=
    (h.createTarget path hpath).anyhow
  exportFile path hpath :=
    (h.exportFile path hpath).anyhow

/-- Scanning a directory changes nothing, and gives a listing of it. -/
theorem scan_ensures {path : Path}
    (hfailed : ∀ report session, kept session → failed report session)
    (hfailedStatus : ∀ report session status,
      failed report session → failed report { session with status }) :
    Ensures kept
      (job.sayingFailure <| query fun fs =>
        (Listing.read job.toProject job.target fs path).mapError fun report =>
          (report.within .exporting).noting .directoryNotScanned)
      (fun listing session => kept session ∧
        Listing.read job.toProject job.target session.fileSystem path = .ok listing)
      failed := by
  refine sayingFailure_ensures hfailedStatus (ensures_query ?_ fun session report h _ =>
    hfailed report session h)
  intro session listing hsession hread
  exact ⟨hsession, mapError_eq_ok.1 hread⟩

/-- What is done with a listing keeps up what is kept at each path in it. -/
theorem Keeps.exportListing (h : job.Keeps visited kept failed) {path : Path} (hpath : visited path)
    {next : Path → ExportM Unit}
    (hnext : ∀ path, visited path → Ensures kept (next path) (fun _ => kept) failed) :
    Ensures kept
      (do let listing ← job.sayingFailure <| query fun fs =>
            (Listing.read job.toProject job.target fs path).mapError fun report =>
              (report.within .exporting).noting .directoryNotScanned
          listing.files.forM job.exportFile
          listing.subdirectories.forM next)
      (fun _ => kept) failed := by
  refine (scan_ensures h.of_kept h.failed_of_status).bind fun listing => ?_
  apply Ensures.of_start
  intro session hsession
  obtain ⟨hsession, hread⟩ := hsession
  -- the property says nothing of the listing, so the loops keep it element by element
  have hvisited (next : Path)
      (hnext : next ∈ listing.files ∨ next ∈ listing.subdirectories) : visited next := by
    obtain ⟨name, hname, rfl⟩ := Listing.exists_isName_of_mem hread hnext
    exact h.visited_join path name hpath hname
  have hkept : Ensures kept
      (do listing.files.forM job.exportFile
          listing.subdirectories.forM next) (fun _ => kept) failed :=
    (Ensures.forM fun file hmem => h.exportFile file (hvisited file (.inl hmem))).bind
      fun _ => Ensures.forM fun directory hmem => hnext directory (hvisited directory (.inr hmem))
  exact hkept.from_session hsession

theorem Keeps.exportDirectory (h : job.Keeps visited kept failed) (depth : Nat) {path : Path}
    (hpath : visited path) :
    Ensures kept (job.exportDirectory depth path) (fun _ => kept) failed := by
  induction depth generalizing path with
  | zero => exact .throw (h.of_kept _)
  | succ depth ih =>
      unfold Export.exportDirectory
      refine (ensures_say h.of_status).bind fun _ => ?_
      exact (h.createTarget path hpath).bind fun _ => h.exportListing hpath fun _ => ih

theorem Keeps.exportRoot (h : job.Keeps visited kept failed) {root : Path}
    (hroot : visited root) :
    Ensures kept (job.exportRoot root) (fun _ => kept) failed := by
  apply Ensures.of_start
  intro start hstart
  unfold Export.exportRoot
  refine Ensures.get_bind fun state hstate => ?_
  rw [hstate]
  dsimp only
  split
  · next hmissing =>
      refine ensures_say_eq.bind fun _ => ensures_count ?_
      intro session hsession
      obtain ⟨lines, rfl⟩ := hsession
      exact h.of_missing root _ hroot (by simpa using hmissing) (h.of_status _ _ hstart)
  · split
    · exact .pure fun session hsession => hsession ▸ hstart
    · split
      · exact (h.exportDirectory _ hroot).from_session hstart
      · exact (h.exportFile root hroot).from_session hstart

theorem Keeps.exportRoots (h : job.Keeps visited kept failed) {roots : List Path}
    (hroots : ∀ root ∈ roots, visited root) :
    Ensures kept (roots.forM job.exportRoot) (fun _ => kept) failed :=
  Ensures.forM fun root hmem => h.exportRoot (hroots root hmem)

/-! ## Properties of the tree -/

/-- A walk visits the roots and what is below them. -/
def Visits (job : Export) (path : Path) : Prop :=
  path.GoesDown ∧ ∃ root ∈ job.config.roots, root.names <+: path.names

/-- A session in a tree without links that has a property. -/
structure Settled (start : Location) (property : FileTree → Prop) (session : Session) : Prop where
  linkFree : session.fileSystem.tree.LinkFree
  current : session.fileSystem.current.IsLeftOf start
  holds : property session.fileSystem.tree

theorem Visits.join {path : Path} (h : job.Visits path) {name : Segment} (hname : name.IsName) :
    job.Visits (path.join (.ofSegment name)) := by
  obtain ⟨hpath, root, hmem, habove⟩ := h
  obtain ⟨hjoin, hnames⟩ := Path.goesDown_join_ofSegment hpath hname.ofSegment_eq
  refine ⟨hjoin, root, hmem, ?_⟩
  rw [hnames]
  exact habove.trans (List.prefix_append _ _)

theorem visits_root (job : Export) (hroots : ∀ root ∈ job.config.roots, root.IsDescent) :
    ∀ root ∈ job.config.roots, job.Visits root :=
  fun root hmem => ⟨(hroots root hmem).goesDown.1, root, hmem, List.prefix_rfl⟩

/-- A walk takes nothing away. -/
theorem keeps_retains (job : Export) (fs : FileSystem) :
    job.Keeps job.Visits (fun session => session.fileSystem.Retains fs)
      fun _ session => session.fileSystem.Retains fs where
  of_kept _ _ h := h
  of_status _ _ h := h
  of_missing _ _ _ _ h := h
  failed_of_status _ _ _ h := h
  visited_join _ _ hpath hname := hpath.join hname
  createTarget _ _ := createTarget_retains fs
  exportFile _ _ := exportFile_retains fs

variable {start : Location} {property reached : FileTree → Prop} {path : Path}

theorem createTarget_settled (htarget : job.target.IsPlain) (hpath : path.GoesDown)
    (hdirectories : ∀ before after, before.DirectoriesAdded after (· <+: job.placeOf path) →
      property before → property after) :
    Ensures (Settled start property) (job.createTarget path) (fun _ => Settled start property)
      fun _ => Settled start property := by
  refine ensures_of_at fun session hsession => ?_
  have hstep : Ensures (At session.fileSystem session.summary) (job.createTarget path) _ _ :=
    createTarget_ensures hsession.linkFree.straight hsession.current htarget hpath
  refine hstep.imp (fun _ h => h) ?_ ?_
  · intro _ after hafter
    obtain ⟨hadded, -, hcurrent, -⟩ := hafter
    exact ⟨hadded.linkFree hsession.linkFree, hcurrent, hdirectories _ _ hadded hsession.holds⟩
  · intro _ after hafter
    obtain ⟨hadded, hcurrent⟩ := hafter
    exact ⟨hadded.linkFree hsession.linkFree, hcurrent, hdirectories _ _ hadded hsession.holds⟩

/-- A copied file can bring something about. -/
theorem exportFile_settled (htarget : job.target.IsPlain) (hpath : path.GoesDown)
    (hdirectories : ∀ before after, before.DirectoriesAdded after (· <+: job.placeOf path) →
      property before → property after)
    (hcopied : ∀ before after content out, before.tree.LinkFree →
      job.Copied start path before after content out → property before.tree →
        reached after.tree) :
    Ensures (Settled start property) (job.exportFile path) (fun _ => Settled start reached)
      fun _ => Settled start property := by
  refine ensures_of_at fun session hsession => ?_
  have hstep : Ensures (At session.fileSystem session.summary) (job.exportFile path) _ _ :=
    exportFile_ensures hsession.linkFree.straight hsession.current htarget hpath
  refine hstep.imp (fun _ h => h) ?_ ?_
  · intro _ after hafter
    obtain ⟨content, out, hcopy, -⟩ := hafter
    exact ⟨hcopy.linkFree hsession.linkFree, hcopy.current,
      hcopied _ _ content out hsession.linkFree hcopy hsession.holds⟩
  · intro _ after hafter
    obtain ⟨hadded, hcurrent⟩ := hafter
    exact ⟨hadded.linkFree hsession.linkFree, hcurrent, hdirectories _ _ hadded hsession.holds⟩

/-- A property of the tree is kept if new directories on the way to a visited place keep it, and
copied files do. -/
theorem keeps_settled (htarget : job.target.IsPlain)
    (hdirectories : ∀ before after path, job.Visits path →
      before.DirectoriesAdded after (· <+: job.placeOf path) → property before → property after)
    (hcopied : ∀ before after path content out, before.tree.LinkFree → job.Visits path →
      job.Copied start path before after content out → property before.tree →
        property after.tree) :
    job.Keeps job.Visits (Settled start property) (fun _ => Settled start property) where
  of_kept _ _ h := h
  of_status _ _ h := ⟨h.linkFree, h.current, h.holds⟩
  of_missing _ _ _ _ h := ⟨h.linkFree, h.current, h.holds⟩
  failed_of_status _ _ _ h := ⟨h.linkFree, h.current, h.holds⟩
  visited_join _ _ hpath hname := hpath.join hname
  createTarget path hpath :=
    createTarget_settled htarget hpath.1 fun before after => hdirectories before after path hpath
  exportFile path hpath :=
    exportFile_settled htarget hpath.1 (fun before after => hdirectories before after path hpath)
      fun before after content out hlinks => hcopied before after path content out hlinks hpath

/-- Recording the version touches no other place. -/
theorem writeVersion_settled (holds : Option Entry → Prop) (htarget : job.target.IsPlain)
    {place : Location} (hplace : place ≠ job.placeOf versionFile)
    (hholds : ∀ tree, property tree → holds (tree.get? place)) :
    Ensures (Settled start property) job.writeVersion
      (fun _ session => holds (session.fileSystem.tree.get? place))
      fun _ => Settled start property := by
  refine ensures_of_at fun session hsession => ?_
  have hwrite : Ensures (At session.fileSystem session.summary) job.writeVersion _ _ :=
    writeVersion_ensures hsession.linkFree.straight hsession.current htarget
  refine hwrite.imp (fun _ h => h) ?_ ?_
  · intro _ after hafter
    obtain ⟨-, hafter, -⟩ := hafter
    rw [hafter, if_neg fun h => hplace h.1]
    exact hholds _ hsession.holds
  · intro _ after hafter
    obtain ⟨hsame, -⟩ := hafter
    exact ⟨hsame ▸ hsession.linkFree, hsame ▸ hsession.current, hsame ▸ hsession.holds⟩

/-- An export of roots that have been checked is a walk from each of them, and the record of the
version after that. -/
theorem exportRoots_ensures {before middle after : Session → Prop}
    (hroots : Ensures before (job.config.roots.forM job.exportRoot) (fun _ => middle) failed)
    (hversion : Ensures middle job.writeVersion (fun _ => after) failed)
    (hstatus : ∀ session status, after session → after { session with status }) :
    Ensures before job.exportRoots (fun summary session => after session ∧
      summary = session.summary) failed := by
  unfold Export.exportRoots
  refine hroots.bind fun _ => hversion.bind fun _ => ?_
  apply Ensures.of_start
  intro session hsession
  refine Ensures.get_bind fun state hstate => ?_
  have hsay : Ensures (fun session => after session ∧ state.summary = session.summary)
      (say job.config (.done state.summary.written state.summary.skipped))
      (fun _ session => after session ∧ state.summary = session.summary) failed :=
    ensures_say fun session status h => ⟨hstatus session status h.1, h.2⟩
  have hdone : Ensures (fun session => after session ∧ state.summary = session.summary)
      (do say job.config (.done state.summary.written state.summary.skipped)
          return state.summary)
      (fun summary session => after session ∧ summary = session.summary) failed :=
    hsay.bind fun _ => .pure fun _ h => h
  apply hdone.mono_before
  intro same hsame
  rw [hsame, hstate]
  exact ⟨hsession, rfl⟩

end Export

end Snapshot
