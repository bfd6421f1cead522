import Snapshot.Proofs.Sources

/-!
# What an export delivers

A file of the project is followed through an export: up to its turn it stays as it is, at its turn
what is left of it is written to its place in the destination, and from then on that stays there. A
file gets its turn if a walk leads to it. Walks leave out names that are ignored, paths that the
system cannot follow, and directories that lie in the destination, though these need not be what the
export itself has written.
-/

namespace Snapshot

open ExportM FileTree Export

namespace Export

/-- A file of the project that has not been touched, and whose place in the destination takes what
is written there. -/
structure Awaits (job : Export) (place : Location) (content : List UInt8) (tree : FileTree) :
    Prop where
  source : tree.get? (job.base ++ place) = some (.file content)
  no_sink : tree.get? (job.target ++ place) ≠ some .sink

/-- A file of the project that has been copied and not been touched. -/
structure Delivered (job : Export) (place : Location) (content out : List UInt8)
    (tree : FileTree) : Prop extends job.Awaits place content tree where
  delivered : tree.get? (job.target ++ place) = some (.file out)

/-- A walk from a path of the project leads to a file below it. -/
structure Leads (job : Export) (path : Path) (below : Location) : Prop where
  kept : ∀ name ∈ below, job.config.isIgnored name = false
  /-- The directory of the file does not lie in the destination, unless it is the path itself. -/
  walked : below.length ≤ 1 ∨ ¬job.target <+: job.base ++ (path.names ++ below.dropLast)
  followed : (job.pathOf (path.extend below)).size ≤ Path.maxSize
  /-- A slash after the name of a file leads nowhere. -/
  ends : (job.pathOf (path.extend below)).EndsInName

variable {job : Export} {place start below : Location} {content out : List UInt8} {path : Path}
  {before after : FileTree} {fs next : FileSystem}

/-- A walk leads on from a directory that it does not take for output. -/
theorem leads_cons_iff {name : Segment} (hpath : path.GoesDown) (hname : name.IsName) :
    job.Leads path (name :: below) ↔ job.config.isIgnored name = false ∧
      (below ≠ [] → ¬job.target <+: job.base ++ (path.names ++ [name])) ∧
      job.Leads (path.join (.ofSegment name)) below := by
  obtain ⟨-, hnames⟩ := Path.goesDown_join_ofSegment hpath hname.ofSegment_eq
  constructor
  · intro h
    refine ⟨h.kept name List.mem_cons_self, fun hne hinside => ?_, ?_, ?_, h.followed, h.ends⟩
    · obtain ⟨second, rest, rfl⟩ := List.exists_cons_of_ne_nil hne
      refine h.walked.resolve_left (by simp) (hinside.trans ?_)
      simp
    · exact fun other hmem => h.kept other (List.mem_cons_of_mem _ hmem)
    · cases below with
      | nil => exact .inl (Nat.zero_le 1)
      | cons second rest =>
          rw [hnames, ← List.append_cons]
          exact .inr (h.walked.resolve_left (by simp))
  · intro h
    obtain ⟨hkept, hnot, h⟩ := h
    refine ⟨?_, ?_, h.followed, h.ends⟩
    · intro other hmem
      rcases List.mem_cons.1 hmem with rfl | hmem
      · exact hkept
      · exact h.kept other hmem
    · rcases below with _ | ⟨second, _ | ⟨third, rest⟩⟩
      · exact .inl (Nat.le_refl 1)
      · exact .inr (hnot (List.cons_ne_nil _ _))
      · have hwalked := h.walked.resolve_left (by simp)
        rw [hnames, ← List.append_cons] at hwalked
        exact .inr hwalked

section Listed

variable {name second : Segment} {entry : Entry} {listing : Listing}
  {files subdirectories : List Segment} (hbase : job.base.IsPlain) (hpath : path.GoesDown)
  (hshows : listing.Shows job.toProject job.target fs path files subdirectories)

include hbase hpath hshows

theorem mem_files_of_leads
    (hget : fs.tree.get? (job.base ++ (path.names ++ [name])) = some (.file content))
    (hleads : job.Leads path [name]) : path.join (.ofSegment name) ∈ listing.files := by
  have hname := isName_below hget
  have hkept := hleads.kept name List.mem_cons_self
  have hfinds := Project.finds_extend hbase hpath hget hleads.followed
  rw [hshows.files_eq]
  exact List.mem_map_of_mem ((hshows.mem_files name).2 ⟨hname, hkept, content, hfinds⟩)

theorem mem_subdirectories_of_leads (hlinks : fs.tree.LinkFree)
    (hstart : fs.current.IsLeftOf start)
    (hget : fs.tree.get? (job.base ++ (path.names ++ name :: second :: below)) = some entry)
    (hleads : job.Leads path (name :: second :: below)) :
    path.join (.ofSegment name) ∈ listing.subdirectories := by
  have hname := isName_below hget
  have hplain : Location.IsPlain (second :: below) :=
    fun other hmem => isPlain_below hget other (List.mem_cons_of_mem _ hmem)
  obtain ⟨hjoin, hnames⟩ := Path.goesDown_join_ofSegment hpath hname.ofSegment_eq
  obtain ⟨hkept, hnot, -⟩ := (leads_cons_iff hpath hname).1 hleads
  have hfile := Project.finds_extend hbase hpath hget hleads.followed
  have hfinds := Project.finds_directory_of_extend hbase hjoin hplain hfile
  have houtside : fs.leadsInto job.target (job.pathOf (path.join (.ofSegment name))) = false := by
    apply FileSystem.leadsInto_eq_false hlinks hstart
    rw [Project.pathOf, Path.placeFrom_ofLocation_join hbase hjoin, hnames]
    exact hnot (List.cons_ne_nil _ _)
  rw [hshows.subdirectories_eq]
  exact List.mem_map_of_mem
    ((hshows.mem_subdirectories name).2 ⟨hname, hkept, hfinds, houtside⟩)

end Listed

section Following

variable (hbase : job.base.IsPlain) (htarget : job.target.IsPlain)
  (hspares : ∀ root ∈ job.config.roots, ¬job.target ++ root.names <+: job.base ++ place)
  (hout : filterBytes job.config.version content = .ok out) (hne : out ≠ [])

theorem Awaits.of_directoriesAdded {added : Location → Prop} (h : job.Awaits place content before)
    (hadded : before.DirectoriesAdded after added) : job.Awaits place content after where
  source := hadded.keeps h.source
  no_sink hsink := by
    rcases hadded.adds hsink with hold | ⟨hdirectory, -⟩
    · exact h.no_sink hold
    · cases hdirectory

include hspares in
theorem Awaits.of_copied {other read : List UInt8} (hpath : job.Visits path)
    (hcopied : job.Copied start path fs next read other) (h : job.Awaits place content fs.tree) :
    job.Awaits place content next.tree := by
  by_cases hother : other = []
  · rw [hcopied.unchanged hother]
    exact h
  · have hwritten := hcopied.written hother
    have hsource : job.base ++ place ≠ job.placeOf path := by
      obtain ⟨-, root, hmem, above, habove⟩ := hpath
      intro heq
      refine hspares root hmem ⟨above, ?_⟩
      rw [heq, placeOf, ← habove, List.append_assoc]
    refine ⟨hwritten.keeps hsource h.source, fun hsink => ?_⟩
    by_cases hplace : job.target ++ place = job.placeOf path
    · have hfree : fs.tree.get? (job.placeOf path) ≠ some .sink := hplace ▸ h.no_sink
      rw [hplace, hwritten.written hfree] at hsink
      cases hsink
    · rcases hwritten.adds hplace hsink with hold | ⟨hdirectory, -⟩
      · exact h.no_sink hold
      · cases hdirectory

include hbase hspares hout hne in
/-- Copying the file, under whatever path, delivers it. -/
theorem Delivered.of_copied_self {other read : List UInt8} (hlinks : fs.tree.LinkFree)
    (hpath : job.Visits path) (hnames : path.names = place)
    (hcopied : job.Copied start path fs next read other) (h : job.Awaits place content fs.tree) :
    job.Delivered place content out next.tree where
  toAwaits := h.of_copied hspares hpath hcopied
  delivered := by
    obtain ⟨habsolute, hup, hplace⟩ := Project.pathOf_goesDown hbase hpath.1
    rw [hnames] at hplace
    have hread : read = content := by
      rcases FileSystem.open?_eq_ok hlinks habsolute hup hcopied.opened with hfile | ⟨hsink, -⟩
      · have hget := hfile.get?
        rw [hplace, h.source] at hget
        simpa using hget.symm
      · have hget := hsink.get?
        rw [hplace, h.source] at hget
        cases hget
    have hother : other = out := by
      have hfiltered := hcopied.filtered
      rw [hread, hout] at hfiltered
      simpa using hfiltered.symm
    have hwritten := hcopied.written (hother ▸ hne)
    have htarget : job.placeOf path = job.target ++ place := by rw [placeOf, hnames]
    rw [htarget, hother] at hwritten
    exact hwritten.written h.no_sink

include hbase hspares hout hne in
/-- Copying any file keeps what has been delivered. -/
theorem Delivered.of_copied {other read : List UInt8} (hlinks : fs.tree.LinkFree)
    (hpath : job.Visits path) (hcopied : job.Copied start path fs next read other)
    (h : job.Delivered place content out fs.tree) :
    job.Delivered place content out next.tree := by
  by_cases hnames : path.names = place
  · exact .of_copied_self hbase hspares hout hne hlinks hpath hnames hcopied h.toAwaits
  · refine ⟨h.toAwaits.of_copied hspares hpath hcopied, ?_⟩
    by_cases hother : other = []
    · rw [hcopied.unchanged hother, h.delivered]
    · refine (hcopied.written hother).keeps (fun heq => hnames ?_) h.delivered
      exact (List.append_cancel_left heq).symm

include htarget hspares in
theorem keeps_awaits :
    job.Keeps job.Visits (Settled start (job.Awaits place content)) fun _ _ => True :=
  (keeps_settled htarget (fun _ _ _ _ hadded h => h.of_directoriesAdded hadded)
    fun _ _ _ _ _ _ hpath hcopied h => h.of_copied hspares hpath hcopied).anyhow

include hbase htarget hspares hout hne in
theorem keeps_delivered :
    job.Keeps job.Visits (Settled start (job.Delivered place content out)) fun _ _ => True :=
  (keeps_settled htarget
    (fun _ _ _ _ hadded h => ⟨h.toAwaits.of_directoriesAdded hadded, hadded.keeps h.delivered⟩)
    fun _ _ _ _ _ hlinks hpath hcopied h =>
      h.of_copied hbase hspares hout hne hlinks hpath hcopied).anyhow

/-! ## The turn of the file -/

include hbase htarget hspares hout hne in
theorem exportFile_delivers (hpath : job.Visits path) (hnames : path.names = place) :
    Ensures (Settled start (job.Awaits place content)) (job.exportFile path)
      (fun _ => Settled start (job.Delivered place content out)) fun _ _ => True := by
  refine (exportFile_settled htarget hpath.1 (fun _ _ hadded h => h.of_directoriesAdded hadded)
    fun _ _ _ _ hlinks hcopied h => ?_).anyhow
  exact .of_copied_self hbase hspares hout hne hlinks hpath hnames hcopied h

include hbase htarget hspares hout hne in
theorem files_deliver {files : List Path} (hvisits : ∀ next ∈ files, job.Visits next)
    (hmem : path ∈ files) (hnames : path.names = place) :
    Ensures (Settled start (job.Awaits place content)) (files.forM job.exportFile)
      (fun _ => Settled start (job.Delivered place content out)) fun _ _ => True := by
  have hwaits : job.Keeps job.Visits (Settled start (job.Awaits place content)) fun _ _ => True :=
    keeps_awaits htarget hspares
  have hstays : job.Keeps job.Visits (Settled start (job.Delivered place content out))
      fun _ _ => True := keeps_delivered hbase htarget hspares hout hne
  apply Ensures.forM_of_mem hmem
  · exact fun next hnext => hwaits.exportFile next (hvisits next hnext)
  · exact exportFile_delivers hbase htarget hspares hout hne (hvisits path hmem) hnames
  · exact fun next hnext => hstays.exportFile next (hvisits next hnext)

include hbase htarget hspares hout hne in
theorem directories_deliver {directories : List Path} {depth : Nat}
    (hvisits : ∀ next ∈ directories, job.Visits next) (hmem : path ∈ directories)
    (hdeeper : Ensures (Settled start (job.Awaits place content)) (job.exportDirectory depth path)
      (fun _ => Settled start (job.Delivered place content out)) fun _ _ => True) :
    Ensures (Settled start (job.Awaits place content))
      (directories.forM (job.exportDirectory depth))
      (fun _ => Settled start (job.Delivered place content out)) fun _ _ => True := by
  have hwaits : job.Keeps job.Visits (Settled start (job.Awaits place content)) fun _ _ => True :=
    keeps_awaits htarget hspares
  have hstays : job.Keeps job.Visits (Settled start (job.Delivered place content out))
      fun _ _ => True := keeps_delivered hbase htarget hspares hout hne
  apply Ensures.forM_of_mem hmem
  · exact fun next hnext => hwaits.exportDirectory depth (hvisits next hnext)
  · exact hdeeper
  · exact fun next hnext => hstays.exportDirectory depth (hvisits next hnext)

include hbase htarget hspares hout hne in
/-- A directory that a walk leads through delivers the file. The induction is on the levels that the
walk may still go down; with none left it fails. -/
theorem exportDirectory_delivers (depth : Nat) (hpath : job.Visits path)
    (hnames : path.names ++ below = place) (hbelow : below ≠ []) (hleads : job.Leads path below) :
    Ensures (Settled start (job.Awaits place content)) (job.exportDirectory depth path)
      (fun _ => Settled start (job.Delivered place content out)) fun _ _ => True := by
  have hwaits : job.Keeps job.Visits (Settled start (job.Awaits place content)) fun _ _ => True :=
    keeps_awaits htarget hspares
  have hstays : job.Keeps job.Visits (Settled start (job.Delivered place content out))
      fun _ _ => True := keeps_delivered hbase htarget hspares hout hne
  induction depth generalizing path below with
  | zero => exact .throw fun _ _ => trivial
  | succ depth ih =>
      unfold exportDirectory
      refine (ensures_say hwaits.of_status).bind fun _ => ?_
      refine (hwaits.createTarget path hpath).bind fun _ => ?_
      refine (scan_ensures hwaits.of_kept hwaits.failed_of_status).bind fun listing => ?_
      apply Ensures.of_start
      intro session hstart
      obtain ⟨hsession, hread⟩ := hstart
      obtain ⟨-, files, subdirectories, hshows⟩ :=
        Listing.read_eq_ok hsession.linkFree hbase hpath.1 hread
      have hvisits (next : Path)
          (hnext : next ∈ listing.files ∨ next ∈ listing.subdirectories) : job.Visits next := by
        obtain ⟨other, hother, rfl⟩ := Listing.exists_isName_of_mem hread hnext
        exact hpath.join hother
      obtain ⟨name, rest, rfl⟩ := List.exists_cons_of_ne_nil hbelow
      have hsource := hsession.holds.source
      rw [← hnames] at hsource
      have hname := isName_below hsource
      obtain ⟨-, hjoinNames⟩ := Path.goesDown_join_ofSegment hpath.1 hname.ofSegment_eq
      cases rest with
      | nil =>
          -- the file is right in this directory
          have hmem := mem_files_of_leads hbase hpath.1 hshows hsource hleads
          have hfiles : Ensures (Settled start (job.Awaits place content))
              (listing.files.forM job.exportFile)
              (fun _ => Settled start (job.Delivered place content out)) fun _ _ => True :=
            files_deliver hbase htarget hspares hout hne
              (fun next hnext => hvisits next (.inl hnext)) hmem (hjoinNames.trans hnames)
          have hrest := hfiles.bind fun _ => Ensures.forM fun next hnext =>
            hstays.exportDirectory depth (hvisits next (.inr hnext))
          exact hrest.from_session hsession
      | cons second rest =>
          -- the file is further down
          have hmem := mem_subdirectories_of_leads hbase hpath.1 hshows hsession.linkFree
            hsession.current hsource hleads
          have hfiles : Ensures (Settled start (job.Awaits place content))
              (listing.files.forM job.exportFile)
              (fun _ => Settled start (job.Awaits place content)) fun _ _ => True :=
            Ensures.forM fun next hnext => hwaits.exportFile next (hvisits next (.inl hnext))
          have hdeeper : Ensures (Settled start (job.Awaits place content))
              (job.exportDirectory depth (path.join (.ofSegment name)))
              (fun _ => Settled start (job.Delivered place content out)) fun _ _ => True := by
            refine ih (hpath.join hname) ?_ (List.cons_ne_nil _ _)
              ((leads_cons_iff hpath.1 hname).1 hleads).2.2
            rw [hjoinNames, ← List.append_cons, hnames]
          have hdirectories := directories_deliver hbase htarget hspares hout hne
            (fun next hnext => hvisits next (.inr hnext)) hmem hdeeper
          exact (hfiles.bind fun _ => hdirectories).from_session hsession

include hbase htarget hspares hout hne in
theorem exportRoot_delivers {root : Path} (hroot : job.Visits root)
    (hnames : root.names ++ below = place)
    (hkept : root.fileName?.any job.config.isIgnored = false) (hleads : job.Leads root below) :
    Ensures (Settled start (job.Awaits place content)) (job.exportRoot root)
      (fun _ => Settled start (job.Delivered place content out)) fun _ _ => True := by
  obtain ⟨habsolute, hup, hrootNames⟩ := Project.pathOf_goesDown hbase hroot.1
  unfold exportRoot
  refine Ensures.get_bind fun state hstate => ?_
  have hsource := hstate.holds.source
  rw [← hnames] at hsource
  have hexists {entry : Entry} (h : state.fileSystem.tree.Finds (job.pathOf root) entry) :
      ¬(!state.fileSystem.pathExists (job.pathOf root)) = true := by
    simp [(FileSystem.pathExists_iff hstate.linkFree habsolute hup).2 ⟨entry, h⟩]
  dsimp only
  cases below with
  | nil =>
      have hfinds : state.fileSystem.tree.Finds (job.pathOf root) (.file content) :=
        ⟨hleads.followed, by rw [hrootNames]; simpa using hsource, .inr hleads.ends⟩
      have hfile : ¬state.fileSystem.isDirectory (job.pathOf root) = true := by
        intro hdirectory
        have hother := (FileSystem.isDirectory_iff hstate.linkFree habsolute hup).1 hdirectory
        cases hother.unique hfinds
      rw [if_neg (hexists hfinds), if_neg (by simp [hkept]), if_neg hfile]
      exact exportFile_delivers hbase htarget hspares hout hne hroot (by simpa using hnames)
  | cons name below =>
      have hfile := Project.finds_extend hbase hroot.1 hsource hleads.followed
      have hfinds :=
        Project.finds_directory_of_extend hbase hroot.1 (isPlain_below hsource) hfile
      have hdirectory := (FileSystem.isDirectory_iff hstate.linkFree habsolute hup).2 hfinds
      rw [if_neg (hexists hfinds), if_neg (by simp [hkept]), if_pos hdirectory]
      exact exportDirectory_delivers hbase htarget hspares hout hne _ hroot hnames
        (List.cons_ne_nil _ _) hleads

end Following

/-! ## Whole exports -/

variable {config : Config}

/-- Whether a walk from one of the roots leads to a place of the project. -/
def Takes (job : Export) (place : Location) : Prop :=
  ∃ root ∈ job.config.roots, root.fileName?.any job.config.isIgnored = false ∧
    ∃ below, root.names ++ below = place ∧ job.Leads root below

/-- A file of the project of which something is left for the version, and which is not where the
record of the version goes. -/
structure Asked (fs : FileSystem) (config : Config) (place : Location) (content out : List UInt8) :
    Prop where
  found : fs.tree.get? (fs.place config.baseDirectory ++ place) = some (.file content)
  filtered : filterBytes config.version content = .ok out
  nonempty : out ≠ []
  not_record : place ≠ versionFile.names

theorem perform_delivers (confirm : Path → Bool) (hlinks : fs.tree.LinkFree)
    (hasked : Asked fs config place content out)
    (hspares : ∀ root ∈ config.roots, ¬fs.place config.destination ++ root.names <+:
      fs.place config.baseDirectory ++ place)
    (hsink : fs.tree.get? (fs.place config.destination ++ place) ≠ some .sink)
    (htakes : (resolved fs config).Takes place) :
    Ensures (At fs {}) (perform config confirm)
      (fun _ session => session.fileSystem.tree.get? (fs.place config.destination ++ place) =
        some (.file out))
      fun _ _ => True := by
  obtain ⟨root, hmem, hkept, below, hnames, hleads⟩ := htakes
  apply perform_ensures hlinks (fun _ _ _ => trivial)
  intro start hdescent
  have hbase : (resolved fs config).base.IsPlain := fs.isPlain_place _
  have htarget : (resolved fs config).target.IsPlain := fs.isPlain_place _
  have hvisits := visits_root (resolved fs config) hdescent
  apply Ensures.of_start
  intro session hbegins
  have hawaits : Settled start ((resolved fs config).Awaits place content) session :=
    { linkFree := hbegins.ready.linkFree hlinks
      current := hbegins.current
      holds :=
        { source := hbegins.ready.keeps hasked.found hspares
          no_sink := fun hafter => by
            rcases hbegins.ready.adds hafter with hold | ⟨hdirectory, -⟩
            · exact hsink hold
            · cases hdirectory } }
  have hwaits : (resolved fs config).Keeps (resolved fs config).Visits
      (Settled start ((resolved fs config).Awaits place content)) fun _ _ => True :=
    keeps_awaits htarget hspares
  have hstays : (resolved fs config).Keeps (resolved fs config).Visits
      (Settled start ((resolved fs config).Delivered place content out)) fun _ _ => True :=
    keeps_delivered hbase htarget hspares hasked.filtered hasked.nonempty
  have hroots := Ensures.forM_of_mem hmem
    (fun other hmem => hwaits.exportRoot (hvisits other hmem))
    (exportRoot_delivers hbase htarget hspares hasked.filtered hasked.nonempty
      (hvisits root hmem) hnames hkept hleads)
    fun other hmem => hstays.exportRoot (hvisits other hmem)
  have hversion : Ensures
      (Settled start ((resolved fs config).Delivered place content out))
      (resolved fs config).writeVersion
      (fun _ session => session.fileSystem.tree.get? (fs.place config.destination ++ place) =
        some (.file out))
      fun _ _ => True := by
    refine (writeVersion_settled (· = some (.file out)) htarget ?_ fun tree h => h.delivered).anyhow
    exact fun heq => hasked.not_record (List.append_cancel_left heq)
  exact (exportRoots_ensures hroots hversion fun _ _ h => h).imp (fun _ heq => heq ▸ hawaits)
    (fun _ _ h => h.1) fun _ _ _ => trivial

end Export

end Snapshot
