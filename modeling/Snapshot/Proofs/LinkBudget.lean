import Snapshot.Proofs.Confinement
import Snapshot.Proofs.Depth
import Snapshot.Proofs.Resolution

/-!
# Links and levels

However the links of a project point, an export goes down so many levels only as its file tree and
the limit for links allow, as long as there are no links in the destination. A path that has one
name more leads to a directory right below the one before, or it passes one link more. Links are
followed up to a limit only, and between two of them a walk goes down through directories that were
there before: what it makes is in the destination, where it enters nothing.
-/

namespace Snapshot

open ExportM FileTree Export

/-- The file system in which an export looks for its destination. -/
def Config.prepared (config : Config) (fs : FileSystem) : FileSystem :=
  if fs.pathExists config.destination then fs
  else (fs.createDirectories config.destination).1

namespace FileTree

/-- Every place in the tree can be spelled by a path that can be followed. -/
def Spelled (tree : FileTree) : Prop :=
  ∀ place entry, tree.get? place = some entry → place.size ≤ Path.maxSize

variable {tree before after : FileTree}

theorem spelled_of_entries (h : ∀ entry ∈ tree.entries, entry.1.size ≤ Path.maxSize) :
    tree.Spelled := by
  intro place entry hentry
  by_cases hroot : place = []
  · simp [hroot, Location.size, Segment.sizeWithSlashes]
  · exact h _ ((get?_eq_some_iff_mem hroot).1 hentry)

/-- With less in it a tree is still spelled. -/
theorem Spelled.of_old (h : before.Spelled)
    (hold : ∀ {place entry}, after.get? place = some entry → before.get? place = some entry) :
    after.Spelled :=
  fun place entry hentry => h place entry (hold hentry)

theorem Spelled.of_directoriesAdded (h : before.Spelled) {added : Location → Prop}
    (hadded : before.DirectoriesAdded after added)
    (hfits : ∀ place, added place → place.size ≤ Path.maxSize) : after.Spelled := by
  intro place entry hentry
  rcases hadded.adds hentry with hold | ⟨-, hnew⟩
  · exact h place entry hold
  · exact hfits place hnew

end FileTree

namespace FileSystem

variable {fs after : FileSystem} {path : Path} {copy : FileCopy}

/-- What is found without passing a link has the path for its name. -/
theorem size_le_of_find (habsolute : path.isAbsolute) (hup : Hop.up ∉ path.hops)
    (hstraight : fs.tree.Straight [] path.hops) {place : Location} {entry : Entry}
    (h : fs.find .follow path = .ok (place, entry)) : place.size ≤ Path.maxSize := by
  have hstart := fs.current.isLeftOf_append_replicate
  have haccepted := acceptable_of_reach (find_eq_ok_iff.1 h)
  rw [← Path.startFrom_of_isAbsolute habsolute] at hstraight
  obtain ⟨rfl, -⟩ := find_holds_of_straight hstraight hstart h
  rw [Path.placeFrom_of_not_up hup, if_pos habsolute, List.nil_append]
  exact Nat.le_trans (Path.size_names_le habsolute) (haccepted.size_le.resolve_left (by simp))

theorem spelled_createDirectories (habsolute : path.isAbsolute) (hup : Hop.up ∉ path.hops)
    (hstraight : fs.tree.Straight [] path.hops) (h : fs.tree.Spelled) :
    (fs.createDirectories path).1.tree.Spelled := by
  obtain ⟨hadded, -⟩ := fs.createDirectories_leads path
  apply h.of_directoriesAdded hadded
  intro place hplace
  obtain ⟨count, hfind⟩ := hplace
  apply size_le_of_find _ (Path.up_not_mem_hops_upTo hup count) _ hfind
  · rwa [Path.isAbsolute_upTo]
  · exact (hadded.straight hstraight).upTo count

theorem spelled_of_write (habsolute : path.isAbsolute) (hup : Hop.up ∉ path.hops)
    (hstraight : fs.tree.Straight [] path.hops) {content : List UInt8}
    (hwrite : fs.write path content = .ok after) (h : fs.tree.Spelled) : after.tree.Spelled := by
  have hsize := (acceptable_of_write hwrite).size_le.resolve_left (by simp)
  rw [← Path.startFrom_of_isAbsolute habsolute] at hstraight
  obtain ⟨-, hafter, -⟩ :=
    write_eq_ok hstraight fs.current.isLeftOf_append_replicate hwrite
  intro place entry hentry
  rw [hafter] at hentry
  split at hentry
  · next hplace =>
      rw [hplace.1, Path.placeFrom_of_not_up hup, if_pos habsolute, List.nil_append]
      exact Nat.le_trans (Path.size_names_le habsolute) hsize
  · exact h place entry hentry

theorem spelled_of_finish (habsolute : copy.output.isAbsolute) (hup : Hop.up ∉ copy.output.hops)
    (hstraight : fs.tree.Straight [] copy.output.hops) {outcome : Except Report Bool}
    (hfinish : copy.finish fs = (after, outcome)) (h : fs.tree.Spelled) : after.tree.Spelled := by
  have hcreate : (copy.createOutputDirectory fs).1.tree.Spelled := by
    unfold FileCopy.createOutputDirectory
    split
    · exact h
    · next parent hparent =>
        obtain ⟨count, -, rfl⟩ := Option.map_eq_some_iff.1 hparent
        apply spelled_createDirectories _ (Path.up_not_mem_hops_upTo hup count)
          (hstraight.upTo count) h
        rwa [Path.isAbsolute_upTo]
  have hkept := FileCopy.finish_keeps (fun after => after.tree.Spelled ∧ after.Retains fs)
    ⟨h, .refl fs⟩ ⟨hcreate, copy.retains_createOutputDirectory fs⟩ ?_ hfinish
  · exact hkept.1
  · intro middle written hmiddle hwrite
    exact ⟨spelled_of_write habsolute hup (hmiddle.2.straight hstraight) hwrite hmiddle.1,
      (Retains.write hwrite).trans hmiddle.2⟩

/-- Where a path leads that can be followed can be told in a spelled tree. -/
theorem leadsInto_of_leads (h : fs.tree.Spelled) (habsolute : path.isAbsolute)
    (hnul : path.hasNul = false) {used : Nat} {there target : Location} (hused : used ≤ linkLimit)
    (hleads : fs.tree.Leads [] path.hops used there) (htarget : target <+: there) :
    fs.leadsInto target path = true := by
  obtain ⟨left, hleft⟩ := Nat.exists_eq_add_of_le hused
  have hspell : fs.tree.walk .spell linkLimit [] path.hops = .ok (.taken there .directory) := by
    rw [hleft]
    apply hleads.walk_end (.inr rfl)
    exact fun place entry hentry => by simp [Ending.admits, h place entry hentry]
  rw [leadsInto, canonicalize_of_walk habsolute hnul hspell]
  simpa using htarget

end FileSystem

namespace Export

/-! ## Levels that are left -/

/-- How many levels a walk can go down that has so many links left, in a tree of the given height
and from the given depth in it. -/
def levelsLeft (height links depth : Nat) : Nat :=
  links * (height + 1) + (height - depth)

variable {height links depth : Nat}

theorem levelsLeft_lt : levelsLeft height links depth < (links + 1) * (height + 1) := by
  rw [levelsLeft, Nat.add_one_mul]
  omega

theorem levelsLeft_mono {fewer : Nat} (h : fewer ≤ links) :
    levelsLeft height fewer depth ≤ levelsLeft height links depth :=
  Nat.add_le_add_right (Nat.mul_le_mul_right _ h) _

theorem levelsLeft_succ_lt (h : depth < height) :
    levelsLeft height links (depth + 1) < levelsLeft height links depth := by
  unfold levelsLeft
  omega

/-- For one link less a walk can be anywhere again. -/
theorem levelsLeft_lt_of_lt {fewer other : Nat} (h : fewer < links) :
    levelsLeft height fewer other < levelsLeft height links depth :=
  calc levelsLeft height fewer other
      < (fewer + 1) * (height + 1) := levelsLeft_lt
    _ ≤ links * (height + 1) := Nat.mul_le_mul_right _ h
    _ ≤ levelsLeft height links depth := Nat.le_add_right _ _

variable {job : Export} {fs : FileSystem} {config : Config} {confirm : Path → Bool}
  {tree : FileTree} {path : Path} {name : Segment} {there : Location} {used level : Nat}

/-- Outside the destination there is nothing new, apart from what was made on the way to it. -/
theorem Confined.get?_prepared (h : job.Confined fs tree) {place : Location} {entry : Entry}
    (houtside : ¬job.target <+: place) (hentry : tree.get? place = some entry) :
    (job.config.prepared fs).tree.get? place = some entry := by
  have hin {target : Location} (hleads : job.config.LeadsTo fs target) : ¬target <+: place := by
    rw [h.leadsTo.unique hleads]
    exact houtside
  rcases h.confines place with hsame | ⟨target, hleads, root, -, hroot⟩ | ⟨-, hnew, hway | habove⟩
  · rw [hsame] at hentry
    unfold Config.prepared
    split
    · exact hentry
    · exact (fs.createDirectories_leads job.config.destination).1.keeps hentry
  · exact absurd ((List.prefix_append _ _).trans hroot) (hin hleads)
  · obtain ⟨hmissing, count, hfind⟩ := hway
    rw [Config.prepared, if_neg (by simp [hmissing]), FileSystem.get?_of_find hfind, ← hentry, hnew]
  · obtain ⟨target, hleads, htarget, -⟩ := habove
    exact absurd htarget (hin hleads)

/-- A name more leads right below, or over a link. -/
theorem leads_join_cases {next : Location} {more : Nat} (hname : name.IsName)
    (h : tree.Leads [] path.hops used there)
    (hnext : tree.Leads [] (path.join (.ofSegment name)).hops more next) :
    (more = used ∧ next = there ++ [name] ∧ tree.get? next = some .directory) ∨
      (∃ link, tree.get? (there ++ [name]) = some (.link link)) ∧ used < more := by
  have hsegment : (Path.ofSegment name).isAbsolute = false := rfl
  obtain ⟨front, hjoin, hfront⟩ := exists_leads_join hsegment h
  rw [hjoin, Path.hops_ofSegment hname.ofSegment_eq] at hnext
  obtain ⟨first, left, middle, rfl, hmiddle, hlast⟩ := hnext.exists_middle
  obtain ⟨rfl, rfl⟩ := hfront.unique hmiddle
  cases hlast with
  | step hhop _ => cases hhop
  | into hdirectory hend =>
      cases hend
      exact .inl ⟨rfl, rfl, hdirectory⟩
  | link hlink _ => exact .inr ⟨⟨_, hlink⟩, by omega⟩

/-- The export is confined, and everything in its tree is spelled. -/
structure Traceable (job : Export) (fs : FileSystem) (tree : FileTree) : Prop where
  confined : job.Confined fs tree
  spelled : tree.Spelled

/-- Outside the destination a path has as many levels left below it as there are links left. -/
def WithinBudget (job : Export) (fs : FileSystem) (level : Nat) (path : Path) (tree : FileTree) :
    Prop :=
  ∃ used ≤ linkLimit, ∃ there, tree.Leads [] (job.pathOf path).hops used there ∧
    (¬job.target <+: there →
      levelsLeft (job.config.prepared fs).tree.height (linkLimit - used) there.length ≤ level)

namespace Traceable

theorem of_isReady {session : Session} (hdescent : ∀ root ∈ job.config.roots, root.IsDescent)
    (hready : job.toProject.IsReady confirm { fileSystem := fs } job.target session)
    (hunlinked : job.config.Unlinked fs) (hspelled : (job.config.prepared fs).tree.Spelled) :
    job.Traceable fs session.fileSystem.tree where
  confined := .of_isReady hdescent hready hunlinked
  spelled := by
    unfold Config.prepared at hspelled
    rcases hready.way with ⟨⟨location, hexists⟩, -, -, hlosing, -⟩ | ⟨hmissing, hcreate⟩
    · rw [if_pos (FileSystem.pathExists_of_find hexists)] at hspelled
      exact hspelled.of_old hlosing.old
    · rwa [if_neg (by simp [hmissing]), hcreate] at hspelled

/-- What has a name more and is entered is outside the destination. -/
theorem exists_leads_of_mem {session : Session} {listing : Listing} {next : Path}
    (h : job.Traceable fs session.fileSystem.tree) (hpath : job.Visits path)
    (hread : Listing.read job.toProject job.target session.fileSystem path = .ok listing)
    (hnext : next ∈ listing.subdirectories) :
    ∃ name : Segment, name.IsName ∧ job.pathOf next = (job.pathOf path).join (.ofSegment name) ∧
      ∃ used ≤ linkLimit, ∃ there, ¬job.target <+: there ∧
        session.fileSystem.tree.Leads [] (job.pathOf next).hops used there := by
  obtain ⟨name, hname, rfl, hdirectory, houtside⟩ :=
    Listing.exists_of_mem_subdirectories hpath.1 hread hnext
  have habsolute := job.isAbsolute_pathOf (path.join (.ofSegment name))
  obtain ⟨hnul, used, hused, there, hleads⟩ :=
    FileSystem.leads_of_isDirectory habsolute hdirectory
  refine ⟨name, hname, (Project.pathOf_join hpath.1).symm, used, hused, there, ?_, hleads⟩
  intro htarget
  rw [FileSystem.leadsInto_of_leads h.spelled habsolute hnul hused hleads htarget] at houtside
  cases houtside

end Traceable

/-- Every directory in a listing leaves fewer levels below it. -/
theorem WithinBudget.exists_lower {session : Session} {listing : Listing} {next : Path}
    (h : job.WithinBudget fs level path session.fileSystem.tree)
    (htrace : job.Traceable fs session.fileSystem.tree) (hpath : job.Visits path)
    (hread : Listing.read job.toProject job.target session.fileSystem path = .ok listing)
    (hnext : next ∈ listing.subdirectories) :
    ∃ lower < level, job.WithinBudget fs lower next session.fileSystem.tree := by
  obtain ⟨used, -, here, hleads, hlevel⟩ := h
  obtain ⟨name, hname, hjoin, more, hmore, there, houtside, hthere⟩ :=
    htrace.exists_leads_of_mem hpath hread hnext
  refine ⟨levelsLeft (job.config.prepared fs).tree.height (linkLimit - more) there.length, ?_,
    more, hmore, there, hthere, fun _ => Nat.le_refl _⟩
  rcases leads_join_cases hname hleads (hjoin ▸ hthere) with
    ⟨rfl, rfl, hdirectory⟩ | ⟨⟨link, hlink⟩, hused⟩
  · have hbefore : ¬job.target <+: here := fun habove =>
      houtside (habove.trans (List.prefix_append _ _))
    have hlength := length_le_height (htrace.confined.get?_prepared houtside hdirectory)
    rw [List.length_append, List.length_singleton] at hlength ⊢
    exact Nat.lt_of_lt_of_le (levelsLeft_succ_lt hlength) (hlevel hbefore)
  · have hbefore : ¬job.target <+: here := by
      rintro ⟨below, rfl⟩
      rw [List.append_assoc] at hlink
      exact htrace.confined.unlinked _ link hlink
    exact Nat.lt_of_lt_of_le (levelsLeft_lt_of_lt (by omega)) (hlevel hbefore)

/-- A directory is led to with the whole limit for links at most. -/
theorem exists_withinBudget {root : Path} {session : Session}
    (h : session.fileSystem.isDirectory (job.pathOf root) = true) :
    ∃ level < (linkLimit + 1) * ((job.config.prepared fs).tree.height + 1),
      job.WithinBudget fs level root session.fileSystem.tree := by
  obtain ⟨-, used, hused, there, hleads⟩ :=
    FileSystem.leads_of_isDirectory (job.isAbsolute_pathOf root) h
  exact ⟨levelsLeft (job.config.prepared fs).tree.height linkLimit there.length, levelsLeft_lt,
    used, hused, there, hleads, fun _ => levelsLeft_mono (Nat.sub_le _ _)⟩

/-- A step that takes no directory and no link away keeps up what is left. -/
theorem WithinBudget.of_retains {before after : FileSystem}
    (h : job.WithinBudget fs level path before.tree) (hretains : after.Retains before) :
    job.WithinBudget fs level path after.tree := by
  obtain ⟨used, hused, there, hleads, hlevel⟩ := h
  exact ⟨used, hused, there, hretains.leads hleads, hlevel⟩

/-! ## Steps of a walk -/

/-- A session whose tree can be traced, with something that stays as long as nothing is taken away.
-/
def Tracing (job : Export) (fs : FileSystem) (kept : FileSystem → Prop) (session : Session) :
    Prop :=
  job.Traceable fs session.fileSystem.tree ∧ kept session.fileSystem

section Tracing

variable {kept : FileSystem → Prop}
  (hkept : ∀ before after, after.Retains before → kept before → kept after)

/-- That an export is confined is known already. -/
theorem tracing_of_change {part : ExportM Unit}
    (hconfined : Ensures (fun session => job.Confined fs session.fileSystem.tree) part
      (fun _ session => job.Confined fs session.fileSystem.tree) fun _ _ => True)
    (hchange : Ensures (job.Tracing fs kept) part
      (fun _ session => session.fileSystem.tree.Spelled ∧ kept session.fileSystem)
      fun _ _ => True) :
    Ensures (job.Tracing fs kept) part (fun _ => job.Tracing fs kept) fun _ _ => True := by
  have hboth := (hconfined.mono_before fun _ h => h.1.confined).and hchange
  refine hboth.imp (fun _ h => h) ?_ fun _ _ _ => trivial
  exact fun _ _ h => ⟨⟨h.1, h.2.1⟩, h.2.2⟩

include hkept

theorem createTarget_traces (hpath : job.Visits path) :
    Ensures (job.Tracing fs kept) (job.createTarget path)
      (fun _ session => session.fileSystem.tree.Spelled ∧ kept session.fileSystem)
      fun _ _ => True := by
  refine ensures_change ?_ fun _ _ _ _ _ => trivial
  intro session after _ htracing hcreate
  obtain rfl : (session.fileSystem.createDirectories (job.targetOf path)).1 = after :=
    congrArg Prod.fst hcreate
  obtain ⟨htrace, hsession⟩ := htracing
  constructor
  · apply FileSystem.spelled_createDirectories
    · exact Path.isAbsolute_ofLocation_join
    · exact Path.up_not_mem_ofLocation_join htrace.confined.isPlain hpath.1
    · exact htrace.confined.straight hpath.1
    · exact htrace.spelled
  · exact hkept _ _ (.createDirectories _ _) hsession

theorem exportFile_traces (hpath : job.Visits path) :
    Ensures (job.Tracing fs kept) (job.exportFile path)
      (fun _ session => session.fileSystem.tree.Spelled ∧ kept session.fileSystem)
      fun _ _ => True := by
  have hchanges : Ensures (job.Tracing fs kept) (job.exportFile path)
      (fun _ session => session.fileSystem.tree.Spelled ∧ kept session.fileSystem)
      fun _ session => session.fileSystem.tree.Spelled ∧ kept session.fileSystem := by
    apply exportFile_changes
    · exact fun session other heq _ h => by rwa [Tracing, heq]
    · exact fun session other heq _ h => by rwa [heq]
    · exact fun session h => ⟨h.1.spelled, h.2⟩
    · intro session after copy outcome houtput htracing hfinish
      obtain ⟨htrace, hsession⟩ := htracing
      refine ⟨?_, hkept _ _ (FileCopy.retains_of_finish hfinish) hsession⟩
      apply FileSystem.spelled_of_finish _ _ _ hfinish htrace.spelled
      · rw [houtput]
        exact Path.isAbsolute_ofLocation_join
      · rw [houtput]
        exact Path.up_not_mem_ofLocation_join htrace.confined.isPlain hpath.1
      · rw [houtput]
        exact htrace.confined.straight hpath.1
  exact hchanges.anyhow

/-- A confined export that starts with a spelled tree keeps it so. -/
theorem keeps_tracing : job.Keeps job.Visits (job.Tracing fs kept) fun _ _ => True where
  of_kept _ _ _ := trivial
  of_status _ _ h := h
  of_missing _ _ _ _ h := h
  failed_of_status _ _ _ _ := trivial
  visited_join _ _ hpath hname := hpath.join hname
  createTarget path hpath :=
    tracing_of_change ((job.keeps_confined fs).anyhow.createTarget path hpath)
      (createTarget_traces hkept hpath)
  exportFile path hpath :=
    tracing_of_change ((job.keeps_confined fs).anyhow.exportFile path hpath)
      (exportFile_traces hkept hpath)

end Tracing

theorem ranks_withinBudget (job : Export) (fs : FileSystem) :
    job.Ranks fun level path =>
      job.Tracing fs fun after => job.WithinBudget fs level path after.tree where
  keeps _ _ := keeps_tracing fun _ _ hretains h => h.of_retains hretains
  falls := by
    intro level path session listing hpath h hread next hnext
    obtain ⟨lower, hlower, hrank⟩ := h.2.exists_lower h.1 hpath hread hnext
    exact ⟨lower, hlower, h.1, hrank⟩

/-! ## Whole exports -/

/-- How many levels an export can go down, for all that the links in the project allow. -/
def depthBound (config : Config) (fs : FileSystem) : Nat :=
  (linkLimit + 1) * ((config.prepared fs).tree.height + 1)

theorem runExportBy_walkDown_eq_of_unlinked (hunlinked : config.Unlinked fs)
    (hspelled : (config.prepared fs).tree.Spelled) (beyond : Export → Path → ExportM Unit)
    {depth : Nat} (hdepth : depthBound config fs ≤ depth) :
    runExportBy (fun job => job.walkDown (beyond job) depth) config confirm fs =
      runExport config confirm fs := by
  rcases Nat.le_total Path.maxSize depth with hlong | hshort
  · exact runExportBy_walkDown_eq beyond hlong
  · apply runExportBy_eq
    apply performBy_agrees
    intro base target hdescent _
    let job : Export := { config, base, target }
    have hvisits := visits_root job hdescent
    have hagrees : Agrees (job.Tracing fs fun _ => True)
        (job.exportRootsBy (job.walkDown (beyond job) depth)) job.exportRoots := by
      apply (job.ranks_withinBudget fs).exportRootsBy_agrees (keeps_tracing fun _ _ _ => id) _
        hdepth (Nat.le_trans hdepth hshort) hvisits
      intro root _ session hsession hdirectory
      obtain ⟨level, hlevel, hrank⟩ := exists_withinBudget hdirectory
      exact ⟨level, hlevel, hsession.1, hrank⟩
    exact hagrees.mono_before fun session hready =>
      ⟨.of_isReady hdescent hready hunlinked hspelled, trivial⟩

/-- An export reaches only so many levels below its roots, so it comes to an end without a limit.
However many levels there can be for the length of paths, whatever is to be done beyond them is
never done. Where no link is in the destination, and every place can be spelled, there are no more
than the limit for links and the height of the file tree allow. And a walk without a limit, which
does in each directory what an export does, comes to just what the export comes to. -/
theorem walk_depth_bounded (config : Config) (confirm : Path → Bool) (fs : FileSystem) :
    (∀ (beyond : Export → Path → ExportM Unit) depth, Path.maxSize ≤ depth →
      runExportBy (fun job => job.walkDown (beyond job) depth) config confirm fs =
        runExport config confirm fs) ∧
    (config.Unlinked fs → (config.prepared fs).tree.Spelled →
      ∀ (beyond : Export → Path → ExportM Unit) depth, depthBound config fs ≤ depth →
        runExportBy (fun job => job.walkDown (beyond job) depth) config confirm fs =
          runExport config confirm fs) ∧
    ∀ walk : Export → Path → ExportM Unit, (∀ job, walk job = job.enterDirectory (walk job)) →
      runExportBy walk config confirm fs = runExport config confirm fs := by
  refine ⟨fun beyond _ => runExportBy_walkDown_eq beyond,
    fun hunlinked hspelled beyond _ =>
      runExportBy_walkDown_eq_of_unlinked hunlinked hspelled beyond, ?_⟩
  intro walk hwalk
  have hdown : (fun job : Export => job.walkDown (walk job) Path.maxSize) = walk := by
    funext job
    exact walkDown_eq_of_unlimited (hwalk job) Path.maxSize
  have hrun : runExportBy (fun job => job.walkDown (walk job) Path.maxSize) config confirm fs =
      runExport config confirm fs := runExportBy_walkDown_eq walk (Nat.le_refl _)
  rwa [hdown] at hrun

/-- A project with a link to a directory above it, in which the destination will be as well. -/
def loopedProject : FileSystem :=
  .ofTree
    { entries :=
        [(.ofString "p/src/up", .link (Path.ofString "..")),
          (.ofString "p/src/a.c", .file [0x61, 0x0A]),
          (.ofString "p/src", .directory), (.ofString "p", .directory)]
      wellFormed := ⟨by decide +kernel, by decide +kernel, by decide +kernel, by decide +kernel⟩ }
    []

/-- The settings of an export into the project. -/
def intoProject : Config where
  baseDirectory := Path.ofString "p"
  destination := Path.ofString "p/out"
  roots := [Path.ofString "src"]

/-- What would be done beyond the levels that the forty links can lead to is never done. -/
theorem walk_depth_bounded_loopedProject :
    intoProject.Unlinked loopedProject ∧ (intoProject.prepared loopedProject).tree.Spelled ∧
      depthBound intoProject loopedProject = 164 ∧
      ∀ beyond : Export → Path → ExportM Unit,
        runExportBy (fun job => job.walkDown (beyond job) 164) intoProject (fun _ => true)
            loopedProject =
          runExport intoProject (fun _ => true) loopedProject := by
  have hleads : intoProject.LeadsTo loopedProject [{ text := "p" }, { text := "out" }] :=
    ⟨.directory, eq_ok_of_toOption (by decide +kernel)⟩
  have hunlinked : intoProject.Unlinked loopedProject :=
    Config.unlinked_of_entries hleads (by decide +kernel)
  have hspelled : (intoProject.prepared loopedProject).tree.Spelled :=
    spelled_of_entries (by decide +kernel)
  have hbound : depthBound intoProject loopedProject = 164 := by decide +kernel
  refine ⟨hunlinked, hspelled, hbound, fun beyond => ?_⟩
  obtain ⟨-, hdepth, -⟩ := walk_depth_bounded intoProject (fun _ => true) loopedProject
  exact hdepth hunlinked hspelled beyond 164 (Nat.le_of_eq hbound)

end Export

end Snapshot
