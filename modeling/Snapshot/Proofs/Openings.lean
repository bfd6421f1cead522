import Snapshot.Proofs.Filtering
import Snapshot.Proofs.Inputs

/-!
# What an export opens

Below its roots an export opens regular files in directories that it has entered, and a directory of
the destination it does not enter: a listing leaves these out. What was entered stays what it is as
long as the export goes on, for an export takes nothing away. So at the end it can be told of every
input how the export has come to it, and two ways are left on which it can come to its own output: a
root that leads into the destination, and a link to a file.
-/

namespace Snapshot

open ExportM FileTree

/-! ## Paths that go on to lead -/

/-- A walk through directories and links comes to the same in a tree that has these as well. -/
theorem FileTree.Leads.walk_eq {small big : FileTree} {here there : Location} {hops : List Hop}
    {used links : Nat} {ending : Ending}
    (hdirectories : ∀ {place}, small.get? place = some .directory →
      big.get? place = some .directory)
    (hlinks : ∀ {place target}, small.get? place = some (.link target) →
      big.get? place = some (.link target))
    (h : small.Leads here hops used there) :
    big.walk ending links here hops = small.walk ending links here hops := by
  induction h generalizing links with
  | nil => rw [walk_nil, walk_nil]
  | step hhop _ ih => rw [walk_step hhop, walk_step hhop, ih]
  | into hdirectory _ ih => rw [walk_into, walk_into, hdirectory, hdirectories hdirectory, ih]
  | @link here _ name target hops used hlink _ ih =>
      have hchase : big.chase ending links here target hops =
          small.chase ending links here target hops := by
        cases links with
        | zero => rfl
        | succ fewer => exact ih
      rw [walk_into, walk_into, hlink, hlinks hlink]
      dsimp only
      rw [hchase]

namespace FileSystem

variable {fs after : FileSystem} {path left : Path} {name : Segment} {location : Location}
  {content : List UInt8}

namespace Retains

/-- The location of a directory is spelled as it was. -/
theorem canonicalize_eq (h : after.Retains fs) (habsolute : path.isAbsolute)
    (hdirectory : fs.isDirectory path = true) : after.canonicalize path = fs.canonicalize path := by
  obtain ⟨-, used, -, there, hleads⟩ := leads_of_isDirectory habsolute hdirectory
  have hwalk : after.tree.walk .spell linkLimit [] path.hops =
      fs.tree.walk .spell linkLimit [] path.hops := hleads.walk_eq h.directories h.links.2
  rw [FileSystem.canonicalize, FileSystem.canonicalize, habsolute, FileSystem.find,
    FileSystem.find, FileSystem.locate, FileSystem.locate, FileSystem.reach, FileSystem.reach,
    if_pos habsolute, if_pos habsolute, hwalk]
  rfl

theorem isDirectory (h : after.Retains fs) (habsolute : path.isAbsolute)
    (hdirectory : fs.isDirectory path = true) : after.isDirectory path = true := by
  obtain ⟨location, hfind⟩ := find_of_isDirectory (by rw [habsolute, Bool.true_or]) hdirectory
  obtain ⟨hnul, hsize, hwalk⟩ :=
    (locate_eq_ok_iff_of_isAbsolute habsolute).1 (find_eq_ok_iff.1 hfind)
  obtain ⟨used, hused, hleads⟩ := leads_of_walk hwalk
  rw [← hleads.walk_eq h.directories h.links.2] at hwalk
  exact isDirectory_of_find (find_eq_ok_iff.2
    ((locate_eq_ok_iff_of_isAbsolute habsolute).2 ⟨hnul, hsize, hwalk⟩))

theorem isFile (h : after.Retains fs) (habsolute : path.isAbsolute)
    (hfile : fs.isFile path = true) : after.isFile path = true := by
  have hleads (tree : FileSystem) : (path.isAbsolute || tree.hasCurrent) = true := by
    rw [habsolute, Bool.true_or]
  obtain ⟨location, content, hfind⟩ := (isFile_iff_find (hleads fs)).1 hfile
  obtain ⟨found, hfound, hbecomes⟩ := h.keeps (get?_of_find hfind)
  obtain ⟨new, rfl⟩ : ∃ new, found = .file new := by
    rcases Entry.canBecome_iff.1 hbecomes with rfl | ⟨-, new, -, rfl⟩
    · exact ⟨content, rfl⟩
    · exact ⟨new, rfl⟩
  obtain ⟨hnul, hsize, hwalk⟩ :=
    (locate_eq_ok_iff_of_isAbsolute habsolute).1 (find_eq_ok_iff.1 hfind)
  refine (isFile_iff_find (hleads after)).2 ⟨location, new, find_eq_ok_iff.2 ?_⟩
  exact (locate_eq_ok_iff_of_isAbsolute habsolute).2
    ⟨hnul, hsize, h.walk_put (.inr ⟨content, rfl⟩) hfound hwalk⟩

end Retains

theorem leadsInto_iff : fs.leadsInto location path = true ↔
    ∃ place, fs.canonicalize path = .ok place ∧ location <+: place := by
  unfold leadsInto
  split
  · next place hplace => simp [hplace]
  · next fault hfault => simp [hfault]

/-- A name more stands in the directory that the path leads to, if it is not that of a link. -/
theorem canonicalize_of_join_ofSegment (habsolute : left.isAbsolute)
    (hname : Hop.ofSegment name = .into name)
    (hsize : (left.join (.ofSegment name)).size ≤ Path.maxSize)
    (h : fs.canonicalize (left.join (.ofSegment name)) = .ok location) :
    ∃ there, fs.canonicalize left = .ok there ∧
      (location = there ++ [name] ∨
        ∃ aim, fs.entryAt .keep (left.join (.ofSegment name)) = .ok (.link aim)) := by
  have hsegment : (Path.ofSegment name).isAbsolute = false := rfl
  have hjoin : (left.join (.ofSegment name)).isAbsolute := by
    rwa [(Path.body_join left hsegment).1]
  obtain ⟨hnul, -, entry, hwalk⟩ := walk_of_canonicalize h
  have hleftNul := hnul
  rw [Path.hasNul_join hsegment, Bool.or_eq_false_iff] at hleftNul
  obtain ⟨front, hhops, hleft⟩ := Path.exists_hops_join left hsegment
  rw [Path.hops_ofSegment hname] at hhops
  rw [Path.startFrom_of_isAbsolute hjoin, hhops] at hwalk
  obtain ⟨used, more, there, hlinks, hleads, hlast⟩ := walk_append_eq_ok (by simp) hwalk
  have hspell := hleads.walk_spell_append (fun _ _ => id) hwalk more
  have hthere : fs.tree.walk .spell linkLimit [] left.hops = .ok (.taken there .directory) := by
    rw [hlinks]
    rcases hleft with hleft | hleft
    · rw [hleft, ← List.append_nil front, hspell, walk_nil]
    · rw [hleft, hspell, walk_step rfl, walk_nil]
      rfl
  refine ⟨there, canonicalize_of_walk habsolute hleftNul.1 hthere, ?_⟩
  rcases walk_into_eq_ok hlast with
    ⟨-, hend⟩ | ⟨aim, fewer, hlink, -⟩ | ⟨-, ⟨_, -, -, -, heq⟩ | ⟨-, heq⟩⟩
  · rw [walk_nil] at hend
    cases hend
    exact .inl rfl
  · right
    have hfind : fs.find .keep (left.join (.ofSegment name)) =
        .ok (there ++ [name], .link aim) := by
      refine find_eq_ok_iff.2 ((locate_eq_ok_iff_of_isAbsolute hjoin).2 ⟨hnul, .inr hsize, ?_⟩)
      rw [hhops, hlinks, hleads.walk_append (by simp) (.inr rfl), walk_into, hlink,
        if_neg (by simp), if_neg (by simp [Nat.not_lt.2 (isName_of_get? hlink).size_le,
          Ending.admits])]
      exact if_pos ⟨rfl, rfl⟩
    exact ⟨aim, entryAt_of_find hfind⟩
  · cases heq
    exact .inl rfl
  · cases heq

end FileSystem

/-! ## Directories that are entered -/

namespace Export

variable {job : Export} {fs after : FileSystem} {config : Config} {confirm : Path → Bool}
  {path root : Path} {names : List Segment} {start session : Session}

/-- The names lead from a path through directories that are not in the destination. -/
def Enters (job : Export) (fs : FileSystem) (root : Path) (names : List Segment) : Prop :=
  ∀ below, below ≠ [] → below <+: names →
    fs.isDirectory (job.pathOf (root.extend below)) = true ∧
      fs.leadsInto job.target (job.pathOf (root.extend below)) = false

/-- A path is a root, or that of a regular file in a directory that is entered below one. -/
def Opens (job : Export) (fs : FileSystem) (path : Path) : Prop :=
  ∃ root ∈ job.config.roots, path = root ∨ ∃ names name,
    path = root.extend (names ++ [name]) ∧ Location.IsPlain (names ++ [name]) ∧
      job.Enters fs root names ∧ fs.isFile (job.pathOf path) = true

theorem Enters.of_retains (h : job.Enters fs root names) (hretains : after.Retains fs) :
    job.Enters after root names := by
  intro below hne hbelow
  obtain ⟨hdirectory, houtside⟩ := h below hne hbelow
  have habsolute := job.isAbsolute_pathOf (root.extend below)
  refine ⟨hretains.isDirectory habsolute hdirectory, ?_⟩
  rwa [FileSystem.leadsInto, hretains.canonicalize_eq habsolute hdirectory]

theorem Opens.of_retains (h : job.Opens fs path) (hretains : after.Retains fs) :
    job.Opens after path := by
  obtain ⟨root, hroot, hpath⟩ := h
  refine ⟨root, hroot, hpath.imp_right fun hbelow => ?_⟩
  obtain ⟨names, name, hpath, hplain, henters, hfile⟩ := hbelow
  exact ⟨names, name, hpath, hplain, henters.of_retains hretains,
    hretains.isFile (job.isAbsolute_pathOf path) hfile⟩

theorem enters_nil (job : Export) (fs : FileSystem) (root : Path) : job.Enters fs root [] :=
  fun _ hne hbelow => absurd (List.prefix_nil.1 hbelow) hne

theorem Enters.concat {name : Segment} (h : job.Enters fs root names)
    (hdirectory : fs.isDirectory (job.pathOf (root.extend (names ++ [name]))) = true)
    (houtside : fs.leadsInto job.target (job.pathOf (root.extend (names ++ [name]))) = false) :
    job.Enters fs root (names ++ [name]) := by
  intro below hne hbelow
  rcases List.prefix_concat_iff.1 hbelow with rfl | habove
  · exact ⟨hdirectory, houtside⟩
  · exact h below hne habove

/-- What holds while an export goes on: nothing has been taken away since a moment, and every input
was opened in a directory that was entered. -/
structure Opening (job : Export) (fs : FileSystem) (session : Session) : Prop where
  retains : session.fileSystem.Retains fs
  inputs : ∀ input ∈ session.inputs, job.Opens session.fileSystem input.path

theorem Opening.step (h : job.Opening fs start)
    (hretains : session.fileSystem.Retains start.fileSystem)
    (hinputs : ∀ input ∈ session.inputs, input ∈ start.inputs ∨ input.path = path)
    (hpath : job.Opens start.fileSystem path) : job.Opening fs session where
  retains := hretains.trans h.retains
  inputs input hinput := by
    rcases hinputs input hinput with hold | hnew
    · exact (h.inputs input hold).of_retains hretains
    · rw [hnew]
      exact hpath.of_retains hretains

theorem Opening.of_retains (h : job.Opening fs session)
    (hretains : after.Retains session.fileSystem) :
    job.Opening fs { session with fileSystem := after } where
  retains := hretains.trans h.retains
  inputs input hinput := (h.inputs input hinput).of_retains hretains

/-- However a part of an export ends, it has opened only what can be opened on the way. -/
abbrev KeepsOpening {α : Type} (job : Export) (fs : FileSystem) (part : ExportM α) : Prop :=
  Ensures (job.Opening fs) part (fun _ => job.Opening fs) fun _ => job.Opening fs

theorem createTarget_opens : job.KeepsOpening fs (job.createTarget path) := by
  have hstep {session : Session} {after : FileSystem} (h : job.Opening fs session)
      (hafter : (session.fileSystem.createDirectories (job.targetOf path)).1 = after) :
      job.Opening fs { session with fileSystem := after } :=
    h.of_retains (hafter ▸ FileSystem.Retains.createDirectories _ _)
  exact ensures_change (fun _ _ _ h hrequest => hstep h (congrArg Prod.fst hrequest))
    fun _ _ _ h hrequest => hstep h (congrArg Prod.fst hrequest)

theorem writeVersion_opens : job.KeepsOpening fs job.writeVersion := by
  unfold writeVersion
  refine ensures_change ?_ ?_
  · intro session after _ h hrequest
    split at hrequest
    · next written hwrite =>
        obtain ⟨rfl, -⟩ := Prod.mk.inj hrequest
        exact h.of_retains (.write hwrite)
    · cases (Prod.mk.inj hrequest).2
  · intro session after _ h hrequest
    split at hrequest
    · cases (Prod.mk.inj hrequest).2
    · obtain ⟨rfl, -⟩ := Prod.mk.inj hrequest
      exact h

theorem exportFile_opens (hpath : job.Opens fs path) :
    job.KeepsOpening fs (job.exportFile path) := by
  apply Ensures.of_start
  intro start hstart
  have hstep (session : Session) (hsession : session.fileSystem.Retains start.fileSystem ∧
      job.Logs path start session) : job.Opening fs session := by
    refine hstart.step hsession.1 (fun input hinput => ?_) (hpath.of_retains hstart.retains)
    rcases hsession.2.inputs with hsame | ⟨content, -, hmore⟩
    · exact .inl (hsame ▸ hinput)
    · rw [hmore, List.mem_append, List.mem_singleton] at hinput
      exact hinput.imp_right (congrArg Input.path)
  have hfile : Ensures _ (job.exportFile path) _ _ := exportFile_retains start.fileSystem
  have hretains := hfile.from_session (.refl _)
  exact (hretains.and exportFile_logs).imp (fun _ h => h) (fun _ => hstep) fun _ => hstep

theorem exportDirectory_opens (hroot : root ∈ job.config.roots) (hdown : root.GoesDown)
    (depth : Nat) (hnames : Location.IsPlain names) (henters : job.Enters fs root names) :
    job.KeepsOpening fs (job.exportDirectory depth (root.extend names)) := by
  induction depth generalizing fs names with
  | zero => exact .throw fun _ h => h
  | succ depth ih =>
      unfold exportDirectory
      refine (ensures_say fun _ _ h => ⟨h.retains, h.inputs⟩).bind fun _ => ?_
      refine createTarget_opens.bind fun _ => ?_
      refine (scan_ensures (fun _ _ h => h) fun _ _ _ h => ⟨h.retains, h.inputs⟩).bind
        fun listing => ?_
      -- what is listed is entered or opened as it is now, and stays so while the rest goes on
      apply Ensures.of_start
      intro start hlisted
      obtain ⟨hstart, hread⟩ := hlisted
      have hpath := (Path.goesDown_extend hdown hnames).1
      have hhere := henters.of_retains hstart.retains
      have hplain {name : Segment} (hname : name.IsName) : Location.IsPlain (names ++ [name]) :=
        List.forall_mem_append.2 ⟨hnames, by simpa using hname.ofSegment_eq⟩
      have hfile (file : Path) (hmem : file ∈ listing.files) : job.Opens start.fileSystem file := by
        obtain ⟨name, hname, rfl, hfile⟩ := Listing.exists_of_mem_files hpath hread hmem
        exact ⟨root, hroot,
          .inr ⟨names, name, Path.extend_concat.symm, hplain hname, hhere, hfile⟩⟩
      have hnext (next : Path) (hmem : next ∈ listing.subdirectories) :
          job.KeepsOpening start.fileSystem (job.exportDirectory depth next) := by
        obtain ⟨name, hname, rfl, hdirectory, houtside⟩ :=
          Listing.exists_of_mem_subdirectories hpath hread hmem
        rw [← Path.extend_concat] at hdirectory houtside ⊢
        exact ih (hplain hname) (hhere.concat hdirectory houtside)
      have hloops : job.KeepsOpening start.fileSystem (do
          listing.files.forM job.exportFile
          listing.subdirectories.forM (job.exportDirectory depth)) :=
        (Ensures.forM fun file hmem => exportFile_opens (hfile file hmem)).bind
          fun _ => Ensures.forM hnext
      apply (hloops.from_session ⟨.refl _, hstart.inputs⟩).imp (fun _ h => h)
      · exact fun _ _ h => ⟨h.retains.trans hstart.retains, h.inputs⟩
      · exact fun _ _ h => ⟨h.retains.trans hstart.retains, h.inputs⟩

theorem exportRoot_opens (hdescent : ∀ root ∈ job.config.roots, root.IsDescent)
    (hroot : root ∈ job.config.roots) : job.KeepsOpening fs (job.exportRoot root) := by
  unfold exportRoot
  refine Ensures.get_bind fun state _ => ?_
  dsimp only
  split
  · refine (ensures_say fun _ _ h => ⟨h.retains, h.inputs⟩).bind fun _ => ensures_count ?_
    exact fun _ h => ⟨h.retains, h.inputs⟩
  · split
    · exact .pure fun _ h => h
    · split
      · have hdirectory : job.KeepsOpening fs
            (job.exportDirectory depthLimit (root.extend [])) :=
          exportDirectory_opens hroot (hdescent root hroot).goesDown.1 depthLimit
            (by simp [Location.IsPlain]) (enters_nil job fs root)
        exact hdirectory
      · exact exportFile_opens ⟨root, hroot, .inl rfl⟩

theorem exportRoots_opens (hdescent : ∀ root ∈ job.config.roots, root.IsDescent) :
    job.KeepsOpening fs job.exportRoots := by
  have hroots : job.KeepsOpening fs (job.config.roots.forM job.exportRoot) :=
    Ensures.forM fun root hroot => exportRoot_opens hdescent hroot
  exact (exportRoots_ensures hroots writeVersion_opens
    fun _ _ h => ⟨h.retains, h.inputs⟩).mono_after fun _ _ h => h.1

/-! ## Whole exports -/

/-- An input that is in the destination is so through its root, or by a link. -/
theorem Opens.root_or_link (h : job.Opens fs path)
    (hdescent : ∀ root ∈ job.config.roots, root.IsDescent)
    (htarget : fs.tree.get? job.target = some .directory)
    (hinto : fs.leadsInto job.target (job.pathOf path) = true) :
    (∃ root ∈ job.config.roots, (∃ names, path = root.extend names) ∧
      fs.leadsInto job.target (job.pathOf root) = true) ∨
        ∃ aim, fs.entryAt .keep (job.pathOf path) = .ok (.link aim) := by
  obtain ⟨root, hroot, rfl | ⟨names, name, rfl, hplain, henters, hfile⟩⟩ := h
  · exact .inl ⟨path, hroot, ⟨[], rfl⟩, hinto⟩
  have hdown : (root.extend names).GoesDown :=
    (Path.goesDown_extend (hdescent root hroot).goesDown.1
      fun segment hmem => hplain segment (List.mem_append_left _ hmem)).1
  have habsolute := job.isAbsolute_pathOf (root.extend (names ++ [name]))
  obtain ⟨place, content, hfind⟩ :=
    (FileSystem.isFile_iff_find (by rw [habsolute, Bool.true_or])).1 hfile
  obtain ⟨location, hlocation, hbelow⟩ := FileSystem.leadsInto_iff.1 hinto
  have hsize := (FileSystem.acceptable_of_reach (FileSystem.find_eq_ok_iff.1 hfind)).size_le
  obtain ⟨entry, hsame⟩ :=
    FileSystem.find_of_canonicalize hlocation (hsize.resolve_left (by simp))
  obtain ⟨rfl, rfl⟩ : place = location ∧ Entry.file content = entry := by simpa [hfind] using hsame
  rw [Path.extend_concat, ← job.pathOf_join hdown] at hlocation hsize ⊢
  obtain ⟨there, hthere, rfl | hlink⟩ := FileSystem.canonicalize_of_join_ofSegment
    (job.isAbsolute_pathOf _) (hplain name (by simp)) (hsize.resolve_left (by simp)) hlocation
  · left
    -- the file is not the destination itself, so the directory is in it
    have hin : job.target <+: there := by
      refine (List.prefix_concat_iff.1 hbelow).resolve_left fun heq => ?_
      rw [heq, FileSystem.get?_of_find hfind] at htarget
      cases htarget
    have hleads := FileSystem.leadsInto_iff.2 ⟨there, hthere, hin⟩
    refine ⟨root, hroot, ⟨_, Path.extend_concat.symm⟩, ?_⟩
    by_cases hnames : names = []
    · rwa [hnames, Path.extend_nil] at hleads
    · rw [(henters names hnames List.prefix_rfl).2] at hleads
      cases hleads
  · exact .inr hlink

/-- How an export has come to a path in the project: it has opened the path, and if that is one in
the destination, it is so through its root, or by a link. -/
def HasOpened (config : Config) (fs after : FileSystem) (path : Path) : Prop :=
  ∃ job : Export, job.config = config ∧ fs.resolveExisting config.baseDirectory = .ok job.base ∧
    config.LeadsTo fs job.target ∧ job.Opens after path ∧
      (after.leadsInto job.target (job.pathOf path) = true →
        (∃ root ∈ config.roots, (∃ names, path = root.extend names) ∧
          after.leadsInto job.target (job.pathOf root) = true) ∨
        ∃ aim, after.entryAt .keep (job.pathOf path) = .ok (.link aim))

theorem perform_opens (config : Config) (confirm : Path → Bool) (fs : FileSystem) :
    Ensures (fun session => session = { fileSystem := fs }) (perform config confirm)
      (fun _ session =>
        ∀ input ∈ session.inputs, HasOpened config fs session.fileSystem input.path)
      fun _ session =>
        ∀ input ∈ session.inputs, HasOpened config fs session.fileSystem input.path := by
  apply perform_readies
  · simp
  · intro base report session _ _ hstopped
    rw [hstopped.1.inputs]
    simp
  · intro base target hdescent hbase
    let job : Export := { config, base, target }
    apply Ensures.of_start
    intro start hready
    have hstart : job.Opening start.fileSystem start := by
      refine ⟨.refl _, ?_⟩
      rw [hready.alike.inputs]
      simp
    have hopens : job.KeepsOpening start.fileSystem job.exportRoots :=
      exportRoots_opens hdescent
    have htarget := FileSystem.get?_of_find hready.directory
    have hopened (session : Session) (h : job.Opening start.fileSystem session) :
        ∀ input ∈ session.inputs, HasOpened config fs session.fileSystem input.path := by
      intro input hinput
      have hinputs := h.inputs input hinput
      exact ⟨job, rfl, hbase, hready.leadsTo, hinputs,
        hinputs.root_or_link hdescent (h.retains.directories htarget)⟩
    exact (hopens.from_session hstart).imp (fun _ h => h) (fun _ => hopened) fun _ => hopened

/-- Below its roots an export enters no directory of the destination, whatever links there are and
however it ends: what it opens is a root, or a regular file at the end of a path through directories
that are not there. So it reads what is in the destination only under a root that is in it, or under
a path that ends with a link. -/
theorem inputs_opened (config : Config) (confirm : Path → Bool) (fs : FileSystem) :
    let after := (runExport config confirm fs).session
    ∀ input ∈ after.inputs, HasOpened config fs after.fileSystem input.path := by
  intro after
  have hrun := runExport_from (perform_opens config confirm fs) rfl
  split at hrun
  · exact hrun
  · exact hrun

end Export

end Snapshot
