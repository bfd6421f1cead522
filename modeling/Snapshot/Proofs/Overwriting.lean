import Snapshot.Proofs.SideBySide
import Snapshot.Proofs.Sources

/-!
# Exporting over an export

An export whose destination exists empties the places of its roots before it writes there. From then
on it does what the same export does from any other file system in which these places are empty. So
it leaves there what it would have left in an empty destination, whatever the destination has held,
and it changes nothing when it is run again.

The destination and the project are found by paths that the system follows anew in every run. An
export can remove what such a path leads through, so that the project is not found again.
-/

namespace Snapshot

open ExportM FileTree

namespace Export

variable {job : Export} {begun begun' fs other after after' : FileSystem} {root : Path}

/-! ## The record of the version -/

/-- What recording the version leaves. -/
structure Stamped (job : Export) (fs after : FileSystem) : Prop where
  retains : after.Retains fs
  not_directory : fs.tree.get? (job.placeOf versionFile) ≠ some .directory
  written : fs.tree.get? (job.placeOf versionFile) ≠ some .sink →
    after.tree.get? (job.placeOf versionFile) = some (.file job.versionBytes)
  swallowed : fs.tree.get? (job.placeOf versionFile) = some .sink →
    after.tree.get? (job.placeOf versionFile) = some .sink
  keeps : ∀ place, place ≠ job.placeOf versionFile → after.tree.get? place = fs.tree.get? place

theorem stamped_of_write (hlinks : fs.tree.LinkFree) (htarget : job.target.IsPlain)
    (h : fs.write (job.targetOf versionFile) job.versionBytes = .ok after) :
    job.Stamped fs after := by
  have hstart := fs.current.isLeftOf_append_replicate
  have hplace : (job.targetOf versionFile).placeFrom
      (fs.current.anchor ++ List.replicate fs.current.lost Segment.empty) =
        job.placeOf versionFile := Path.placeFrom_ofLocation_join htarget goesDown_versionFile
  obtain ⟨hdirectory, hafter, -⟩ := FileSystem.write_eq_ok hlinks.straight hstart h
  rw [hplace] at hdirectory hafter
  refine ⟨.write h, hdirectory, fun hsink => ?_, fun hsink => ?_, fun place hplace => ?_⟩
  · rw [hafter, if_pos ⟨rfl, hsink⟩]
  · rw [hafter, if_neg (by simp [hsink]), hsink]
  · rw [hafter, if_neg (by simp [hplace])]

theorem Stamped.record (h : job.Stamped fs after) :
    after.tree.get? (job.placeOf versionFile) = some (.file job.versionBytes) ∨
      after.tree.get? (job.placeOf versionFile) = some .sink := by
  by_cases hsink : fs.tree.get? (job.placeOf versionFile) = some .sink
  · exact .inr (h.swallowed hsink)
  · exact .inl (h.written hsink)

/-- Recording the version removes nothing. -/
theorem Stamped.exists_get? (h : job.Stamped fs after) {place : Location} {entry : Entry}
    (hentry : fs.tree.get? place = some entry) : ∃ found, after.tree.get? place = some found := by
  by_cases hplace : place = job.placeOf versionFile
  · rw [hplace]
    exact h.record.elim (fun hfile => ⟨_, hfile⟩) fun hsink => ⟨_, hsink⟩
  · exact ⟨entry, (h.keeps place hplace).trans hentry⟩

/-- Where two file systems hold the same, recording the version leaves the same. -/
theorem Stamped.get?_congr (h : job.Stamped fs after) (hother : job.Stamped other after')
    (hsame : ∀ place, other.tree.get? place = fs.tree.get? place) (place : Location) :
    after'.tree.get? place = after.tree.get? place := by
  by_cases hplace : place = job.placeOf versionFile
  · rw [hplace]
    by_cases hsink : fs.tree.get? (job.placeOf versionFile) = some .sink
    · rw [h.swallowed hsink, hother.swallowed ((hsame _).trans hsink)]
    · rw [h.written hsink, hother.written ((hsame _).trans_ne hsink)]
  · rw [h.keeps place hplace, hother.keeps place hplace, hsame place]

/-- Over a directory the version cannot be recorded. -/
theorem writeVersion_lost (htarget : job.target.IsPlain) :
    Ensures job.Lost job.writeVersion (fun _ => never) fun _ _ => True := by
  unfold writeVersion
  refine ensures_change ?_ fun _ _ _ _ _ => trivial
  intro session fs done hlost hrequest
  split at hrequest
  · next written hwrite =>
      exact (stamped_of_write hlost.linkFree htarget hwrite).not_directory hlost.directory
  · cases hrequest

/-- Two exports that have recorded the version. -/
def BothStamped (job : Export) (begun begun' : FileSystem) (session second : Session) : Prop :=
  ∃ first other, job.Together begun begun' first other ∧
    job.Stamped first.fileSystem session.fileSystem ∧
    job.Stamped other.fileSystem second.fileSystem ∧
    session.summary = first.summary ∧ second.summary = other.summary

/-- What could be recorded in one file system can be recorded in another one, if nothing else is in
the place of the record. -/
theorem exists_record (hlinks : fs.tree.LinkFree) (hother : other.tree.LinkFree)
    (htarget : job.target.IsPlain) (hthere : other.tree.get? job.target = some .directory)
    (hrecord : ∀ entry, other.tree.get? (job.placeOf versionFile) = some entry →
      (entry = .sink ∨ ∃ content, entry = .file content) ∨
        fs.tree.get? (job.placeOf versionFile) = some entry)
    (hwrite : fs.write (job.targetOf versionFile) job.versionBytes = .ok after) :
    ∃ after', other.write (job.targetOf versionFile) job.versionBytes = .ok after' := by
  have habsolute : (job.targetOf versionFile).isAbsolute :=
    Path.isAbsolute_ofLocation_join
  have hup : Hop.up ∉ (job.targetOf versionFile).hops :=
    Path.up_not_mem_ofLocation_join htarget goesDown_versionFile
  have hplace : (job.targetOf versionFile).names = job.placeOf versionFile :=
    Path.names_ofLocation_join htarget goesDown_versionFile
  obtain ⟨name, hlast⟩ : (job.targetOf versionFile).EndsInName :=
    Path.EndsInName.join ⟨_, rfl⟩ goesDown_versionFile.relative
  obtain ⟨front, hends⟩ := List.getLast?_eq_some_iff.1 hlast
  have hnames := FileSystem.names_eq_concat hends
  rw [hplace, placeOf, show versionFile.names = [{ text := ".version" }] from rfl] at hnames
  obtain ⟨hfront, hname⟩ := List.append_inj' hnames rfl
  obtain ⟨haccepted, hoccupant⟩ := FileSystem.entry_of_write hlinks habsolute hup hwrite
  refine FileSystem.exists_write hother habsolute hup hends haccepted ?_ (hfront ▸ hthere)
    fun entry hentry => ?_
  · rw [← List.singleton_inj.1 hname]
    decide
  · rw [hplace] at hentry hoccupant
    exact (hrecord entry hentry).elim id (hoccupant entry)

theorem writeVersion_follows (htarget : job.target.IsPlain)
    (hthere : begun'.tree.get? job.target = some .directory)
    (hnames : ∀ root ∈ job.config.roots, root.names ≠ []) :
    Follows never (job.Together begun begun') job.writeVersion job.writeVersion
      fun _ => job.BothStamped begun begun' := by
  unfold writeVersion
  refine follows_change fun session second fs done htogether hrequest _ => ?_
  have hmatches := htogether.alike
  -- no root is the destination itself, so the export of the roots has left it in place
  have htargetOutside : ¬job.InRoots job.config.roots job.target := by
    rintro ⟨root, hroot, hbelow⟩
    have hlength := hbelow.length_le
    rw [List.length_append] at hlength
    have hpositive := List.length_pos_iff.2 (hnames root hroot)
    omega
  split at hrequest
  · next written hwrite =>
      cases hrequest
      obtain ⟨written', hwrite'⟩ := exists_record hmatches.linkFree hmatches.linkFree_other htarget
        (htogether.grown_other.keeps _ _ htargetOutside hthere) hmatches.record hwrite
      refine ⟨written', ?_, session, second, htogether,
        stamped_of_write hmatches.linkFree htarget hwrite,
        stamped_of_write hmatches.linkFree_other htarget hwrite', rfl, rfl⟩
      unfold versionBytes at hwrite'
      rw [hwrite']
  · cases hrequest

theorem BothStamped.summary {session second : Session}
    (h : job.BothStamped begun begun' session second) : second.summary = session.summary := by
  obtain ⟨first, other, htogether, -, -, hsession, hsecond⟩ := h
  rw [hsession, hsecond, htogether.summary]

/-- From the roots on, the second export gives the same counts as the first one. -/
theorem exportRoots_follows (hbase : job.base.IsPlain) (htarget : job.target.IsPlain)
    (hthere : begun'.tree.get? job.target = some .directory)
    (hcarried : ∀ root ∈ job.config.roots, job.Carried root)
    (hnames : ∀ root ∈ job.config.roots, root.names ≠ []) :
    Follows never (job.Together begun begun') job.exportRoots job.exportRoots
      fun _ => job.BothStamped begun begun' := by
  unfold exportRoots
  have hroots : Follows job.Lost (job.Together begun begun')
      (job.config.roots.forM job.exportRoot) (job.config.roots.forM job.exportRoot)
      fun _ => job.Together begun begun' :=
    .forM (fun root hroot => job.keeps_lost.exportRoot (hcarried root hroot).visits)
      fun root hroot => (simulates_together htarget).exportRoot hbase (hcarried root hroot)
  -- an export that has lost its record fails, and then nothing is said of the second one
  refine hroots.bind (fun _ => (writeVersion_lost htarget).bind fun _ _ => False.elim) fun _ =>
    (writeVersion_follows htarget hthere hnames).never_bind fun _ => ?_
  refine Follows.get_bind fun session second hrecorded => ?_
  dsimp only
  rw [hrecorded.summary]
  have hsaid : Follows never (fun same too => same = session ∧ too = second)
      (say job.config (.done session.summary.written session.summary.skipped))
      (say job.config (.done session.summary.written session.summary.skipped))
      fun _ => job.BothStamped begun begun' := by
    refine follows_say fun same too _ _ hsame => ?_
    obtain ⟨rfl, rfl⟩ := hsame
    exact hrecorded
  exact hsaid.never_bind fun _ => .pure fun _ _ h => h

/-! ## Whole exports -/

/-- A file system from which the same export can be started. It may differ in what the destination
holds, as long as nothing is in the way of the roots that was not there before. -/
structure Repeats (job : Export) (fs other : FileSystem) : Prop where
  linkFree : other.tree.LinkFree
  way : other.HasWay job.config.destination
  start : job.config.destination.startFrom other.current.anchor =
    job.config.destination.startFrom fs.current.anchor
  base : other.resolveExisting job.config.baseDirectory = .ok job.base
  outside : ∀ place, ¬job.target <+: place → other.tree.get? place = fs.tree.get? place
  ways : ∀ root ∈ job.config.roots, ∀ place, place <+: job.target ++ root.names →
    place ≠ job.placeOf versionFile → ¬job.InRoots job.config.roots place → ∀ entry,
      other.tree.get? place = some entry →
        entry = .directory ∨ fs.tree.get? place = some entry
  record : ¬job.InRoots job.config.roots (job.placeOf versionFile) →
    ∀ entry, other.tree.get? (job.placeOf versionFile) = some entry →
      (entry = .sink ∨ ∃ content, entry = .file content) ∨
        fs.tree.get? (job.placeOf versionFile) = some entry
  followed : job.Followed other

/-- Once the places of the roots are emptied, both exports go the same way. -/
theorem Repeats.matches (h : job.Repeats fs other) (hlinks : fs.tree.LinkFree)
    (hfirst : job.Emptied job.config.roots fs after)
    (hsecond : job.Emptied job.config.roots other after') : job.Matches after after' where
  linkFree := hfirst.linkFree hlinks
  linkFree_other := hsecond.linkFree h.linkFree
  outside place hplace := by
    have houtside : ¬job.InRoots job.config.roots place := fun hroots =>
      hplace hroots.target_isPrefix
    rw [hfirst.keeps place houtside, hsecond.keeps place houtside, h.outside place hplace]
  inside place hplace := by rw [hfirst.gone place hplace, hsecond.gone place hplace]
  no_sink place hplace hsink := by
    rw [hfirst.gone place hplace] at hsink
    cases hsink
  ways root hroot place hway hrecord entry hentry := by
    by_cases hplace : job.InRoots job.config.roots place
    · rw [hsecond.gone place hplace] at hentry
      cases hentry
    · rw [hsecond.keeps place hplace] at hentry
      rw [hfirst.keeps place hplace]
      exact h.ways root hroot place hway hrecord hplace entry hentry
  record entry hentry := by
    by_cases hplace : job.InRoots job.config.roots (job.placeOf versionFile)
    · rw [hsecond.gone _ hplace] at hentry
      cases hentry
    · rw [hsecond.keeps _ hplace] at hentry
      rw [hfirst.keeps _ hplace]
      exact h.record hplace entry hentry

/-- Two sessions in which nothing has been exported yet. -/
structure Begin (fs other : FileSystem) (session second : Session) : Prop where
  fileSystem : session.fileSystem = fs
  fileSystem_second : second.fileSystem = other
  summary : second.summary = session.summary

section Whole

variable {config : Config} {confirm : Path → Bool} (hlinks : fs.tree.LinkFree)
  (hnormal : ∀ root ∈ config.roots, root.IsNormal)
  (hfollowed : (resolved fs config).Followed fs)
  (hapart : ∀ root ∈ config.roots,
    (fs.place config.destination).Apart (fs.place config.baseDirectory ++ root.names))
  (hexists : fs.isDirectory config.destination = true)

include hlinks hnormal hfollowed hapart hexists

/-- Both destinations are made ready: the places of the roots in them are emptied. -/
theorem prepareDestination_follows (hrepeats : (resolved fs config).Repeats fs other)
    (hdescent : ∀ root ∈ config.roots, root.IsDescent) :
    Follows never (Begin fs other) ((resolved fs config).prepareDestination confirm)
      ((resolved fs config).prepareDestination confirm) fun target session second =>
        target = (resolved fs config).target ∧
          (resolved fs config).Emptied config.roots fs session.fileSystem ∧
          (resolved fs config).Emptied config.roots other second.fileSystem ∧
          second.summary = session.summary := by
  intro session second hbegin target done hfirst _
  obtain ⟨rfl, rfl, hsummary⟩ := hbegin
  have hready := Project.isReady_of_prepareDestination hdescent hfirst
  obtain ⟨rfl, hreadied⟩ := hready.ready hdescent hlinks
  have hclearable : (resolved session.fileSystem config).Clearable session.fileSystem :=
    clearable_of_isReady hlinks hready hexists hnormal
  -- the destination was there, so the first export has asked
  have hconfirm : confirm config.destination = true := by
    rcases hready.way with ⟨-, hconfirm, -⟩ | ⟨hmissing, -⟩
    · exact hconfirm
    · obtain ⟨location, hfind⟩ := FileSystem.find_of_isDirectory hready.leads hexists
      exact absurd (hmissing.symm.trans (FileSystem.pathExists_of_find hfind)) (by simp)
  have haccepted : (resolved session.fileSystem config).checkDestination second.fileSystem =
      .ok () :=
    checkDestination_eq_ok hrepeats.linkFree hrepeats.way
      (FileSystem.place_eq_of_startFrom_eq hrepeats.start).symm
      (session.fileSystem.isPlain_place _) (fun root hroot => (hnormal root hroot).goesDown)
      hreadied.accepts.ne_base hapart hreadied.accepts.spares
  have hsecond := hclearable.transfer hrepeats.linkFree hrepeats.way hrepeats.start
  obtain ⟨_, also, hprepared, rfl, hemptied', hsummary'⟩ :=
    (hsecond.prepareDestination_empties haccepted hconfirm).exists_ok rfl
  have hemptied := hclearable.prepareDestination_empties hready.accepted hconfirm session rfl
  rw [hfirst] at hemptied
  exact ⟨also, hprepared, rfl, hemptied.2.1.all hfollowed, hemptied'.all hrepeats.followed,
    (hsummary'.trans hsummary).trans hemptied.2.2.symm⟩

omit hlinks hnormal hfollowed hapart hexists in
theorem validate_follows : Follows never (Begin fs other)
    (query fun _ => config.validate.mapError fun report =>
      (report.within .exporting).noting .invalidRoots)
    (query fun _ => config.validate.mapError fun report =>
      (report.within .exporting).noting .invalidRoots)
    fun _ session second => Begin fs other session second ∧
      ∀ root ∈ config.roots, root.IsDescent :=
  follows_query fun _ _ _ hbegin hvalid =>
    ⟨hvalid, hbegin, Config.isDescent_of_validate (mapError_eq_ok.1 hvalid)⟩

omit hnormal hfollowed hapart hexists in
/-- Both exports find the project in the same place. -/
theorem resolveBase_follows (hrepeats : (resolved fs config).Repeats fs other) :
    Follows never (Begin fs other)
      (query fun fs => (fs.resolveExisting config.baseDirectory).mapError fun report =>
        (report.within .exporting).noting .unresolvedProject)
      (query fun fs => (fs.resolveExisting config.baseDirectory).mapError fun report =>
        (report.within .exporting).noting .unresolvedProject)
      fun base session second => Begin fs other session second ∧
        base = (resolved fs config).base := by
  refine follows_query fun session second base hbegin hresolved => ?_
  rw [hbegin.fileSystem] at hresolved
  obtain ⟨-, rfl, -⟩ := FileSystem.resolveExisting_eq_ok hlinks (mapError_eq_ok.1 hresolved)
  refine ⟨mapError_eq_ok.2 ?_, hbegin, rfl⟩
  rw [hbegin.fileSystem_second]
  exact hrepeats.base

/-- Both exports go well, with the same counts. -/
theorem perform_follows (hrepeats : (resolved fs config).Repeats fs other) :
    Follows never (Begin fs other) (perform config confirm) (perform config confirm)
      fun _ session second => ∃ ready ready',
        (resolved fs config).Emptied config.roots fs ready ∧
          (resolved fs config).Emptied config.roots other ready' ∧
          (resolved fs config).BothStamped ready ready' session second := by
  have hsaid : Follows never (Begin fs other) (say config (.usingVersion config.version))
      (say config (.usingVersion config.version)) fun _ => Begin fs other := by
    refine follows_say fun session second _ _ hbegin => ?_
    exact ⟨hbegin.fileSystem, hbegin.fileSystem_second, hbegin.summary⟩
  unfold perform
  refine validate_follows.never_bind fun _ => .of_start fun session second hvalid => ?_
  obtain ⟨hbegin, hdescent⟩ := hvalid
  refine .from_start hbegin ((resolveBase_follows hlinks hrepeats).never_bind fun base =>
    .of_start fun _ _ hbased => ?_)
  obtain ⟨hstart, rfl⟩ := hbased
  refine .from_start hstart (hsaid.never_bind fun _ =>
    (prepareDestination_follows hlinks hnormal hfollowed hapart hexists hrepeats
      hdescent).never_bind fun target => .of_start fun ready ready' hprepared => ?_)
  obtain ⟨rfl, hemptied, hemptied', hsummary⟩ := hprepared
  -- the destination of the second export stands in the same place
  have hplace : other.place config.destination = (resolved fs config).target :=
    FileSystem.place_eq_of_startFrom_eq hrepeats.start
  have hthere : ready'.fileSystem.tree.get? (resolved fs config).target = some .directory :=
    hplace ▸ hemptied'.get?_place
  have htogether : (resolved fs config).Together ready.fileSystem ready'.fileSystem ready ready' :=
    ⟨hrepeats.matches hlinks hemptied hemptied', .refl _, .refl _, hsummary⟩
  have hexported : Follows never
      ((resolved fs config).Together ready.fileSystem ready'.fileSystem)
      (resolved fs config).exportRoots (resolved fs config).exportRoots
      fun _ => (resolved fs config).BothStamped ready.fileSystem ready'.fileSystem :=
    exportRoots_follows (fs.isPlain_place _) (fs.isPlain_place _) hthere
      (fun root hroot => .of_root hroot (hnormal root hroot) (hapart root hroot))
      fun root hroot => (hnormal root hroot).names_ne_nil
  exact .from_start htogether (hexported.imp (fun _ _ => id)
    fun _ _ _ hrecorded => ⟨_, _, hemptied, hemptied', hrecorded⟩)

theorem runExport_follows (hrepeats : (resolved fs config).Repeats fs other) {summary : Summary}
    (hok : (runExport config confirm fs).result = .ok summary) :
    (runExport config confirm other).result = .ok summary ∧ ∃ ready ready',
      (resolved fs config).Emptied config.roots fs ready ∧
        (resolved fs config).Emptied config.roots other ready' ∧
        (resolved fs config).BothStamped ready ready' (runExport config confirm fs).session
          (runExport config confirm other).session := by
  have hfollows : Follows never (Begin fs other) (perform config confirm) (perform config confirm)
      fun _ session second => ∃ ready ready',
        (resolved fs config).Emptied config.roots fs ready ∧
          (resolved fs config).Emptied config.roots other ready' ∧
          (resolved fs config).BothStamped ready ready' session second :=
    perform_follows hlinks hnormal hfollowed hapart hexists hrepeats
  obtain ⟨done, hperform⟩ := exists_perform_of_runExport hok
  obtain ⟨also, hsecond, hend⟩ :=
    hfollows { fileSystem := fs } { fileSystem := other } ⟨rfl, rfl, rfl⟩ _ _ hperform id
  rw [runExport_eq_of_perform hperform, runExport_eq_of_perform hsecond]
  exact ⟨rfl, hend⟩

omit hnormal hapart in
/-- Where an export goes well, it can be started again as it was. -/
theorem repeats_self {summary : Summary}
    (hok : (runExport config confirm fs).result = .ok summary) :
    (resolved fs config).Repeats fs fs := by
  have hchecked : Ensures (fun session => session = { fileSystem := fs })
      (perform config confirm)
      (fun _ _ => (config.destination.isAbsolute || fs.hasCurrent) = true ∧
        ∃ base, fs.resolveExisting config.baseDirectory = .ok base)
      fun _ _ => True := by
    refine perform_readies (fun _ => trivial) (fun _ _ _ _ _ _ => trivial) ?_
    intro base target _ hbase
    refine Ensures.of_start fun session hready => .of_forall (fun _ _ => ?_) fun _ _ => trivial
    exact ⟨hready.leads, base, hbase⟩
  have hrun := runExport_from hchecked rfl
  rw [hok] at hrun
  obtain ⟨hleads, base, hbase⟩ := hrun
  obtain ⟨location, hfind⟩ := FileSystem.find_of_isDirectory hleads hexists
  obtain ⟨-, rfl, -⟩ := FileSystem.resolveExisting_eq_ok hlinks hbase
  exact ⟨hlinks, FileSystem.hasWay_of_find hlinks hleads hfind, rfl, hbase, fun _ _ => rfl,
    fun _ _ _ _ _ _ _ => .inr, fun _ _ => .inr, hfollowed⟩

end Whole

/-! ## Exporting again -/

/-- After an export the same export can be started again. -/
theorem repeats_done {ready middle : FileSystem} (hemptied : job.Emptied job.config.roots fs ready)
    (hgrown : job.Grown ready middle) (hlinks : middle.tree.LinkFree)
    (hrecorded : job.Stamped middle after) (htarget : job.target = fs.place job.config.destination)
    (hfollowed : job.Followed after)
    (hbase : after.resolveExisting job.config.baseDirectory = .ok job.base) :
    job.Repeats fs after := by
  have hcurrent : after.current = ready.current := hrecorded.retains.current.trans hgrown.current
  have hthere : ready.tree.get? job.target = some .directory := htarget ▸ hemptied.get?_place
  refine ⟨hrecorded.retains.linkFree hlinks, ⟨?_, fun way hway => ?_⟩, ?_, hbase, ?_, ?_, ?_,
    hfollowed⟩
  · rw [FileSystem.hasCurrent, hcurrent]
    exact hemptied.way.leads
  · rw [hcurrent]
    have hdirectory := hemptied.way.directory way hway
    refine hrecorded.retains.directories (hgrown.keeps _ _ (fun hinside => ?_) hdirectory)
    rw [hemptied.gone _ hinside] at hdirectory
    cases hdirectory
  · rw [hcurrent, hemptied.start]
  · intro place hplace
    have hrecord : place ≠ job.placeOf versionFile := fun heq =>
      hplace (heq ▸ List.prefix_append _ _)
    rw [hrecorded.keeps place hrecord,
      hgrown.get?_eq hplace fun hway => exists_get?_of_prefix hway hthere]
    exact hemptied.keeps place fun hroots => hplace hroots.target_isPrefix
  · intro root _ place _ hrecord hplace entry hentry
    rw [hrecorded.keeps place hrecord] at hentry
    rcases hgrown.adds place entry hplace hentry with hold | ⟨hdirectory, -⟩
    · exact .inr (hemptied.old hold)
    · exact .inl hdirectory
  · intro _ entry hentry
    rcases hrecorded.record with hfile | hsink
    · rw [hfile] at hentry
      exact .inl (.inr ⟨_, (Option.some.inj hentry).symm⟩)
    · rw [hsink] at hentry
      exact .inl (.inl (Option.some.inj hentry).symm)

/-- Where the places of the roots hold the same in the end, both exports have put it there. -/
theorem BothStamped.get?_eq {session second : Session}
    (h : job.BothStamped begun begun' session second) {place : Location}
    (hplace : job.InRoots job.config.roots place) (hrecord : place ≠ job.placeOf versionFile) :
    second.fileSystem.tree.get? place = session.fileSystem.tree.get? place := by
  obtain ⟨first, other, htogether, hfirst, hother, -, -⟩ := h
  rw [hfirst.keeps place hrecord, hother.keeps place hrecord, htogether.alike.inside place hplace]

/-- An export that is started again leaves everything as it was. -/
theorem BothStamped.unchanged {session second : Session}
    (h : job.BothStamped begun begun' session second)
    (hemptied : job.Emptied job.config.roots session.fileSystem begun') (place : Location) :
    second.fileSystem.tree.get? place = session.fileSystem.tree.get? place := by
  by_cases hplace : job.InRoots job.config.roots place
  · by_cases hrecord : place = job.placeOf versionFile
    · obtain ⟨first, other, htogether, hfirst, hother, -, -⟩ := h
      have hsink := htogether.alike.no_sink place hplace
      rw [hrecord] at hsink hplace ⊢
      rw [hfirst.written hsink, hother.written]
      rwa [htogether.alike.inside _ hplace]
    · exact h.get?_eq hplace hrecord
  · obtain ⟨first, other, htogether, hfirst, hother, -, -⟩ := h
    have hsame := hemptied.keeps place hplace
    by_cases hrecord : place = job.placeOf versionFile
    · rw [hrecord] at hsame hplace ⊢
      rcases hfirst.record with hfile | hsink
      · have hkept := htogether.grown_other.keeps _ _ hplace (hsame.trans hfile)
        rw [hfile, hother.written (by simp [hkept])]
      · have hkept := htogether.grown_other.keeps _ _ hplace (hsame.trans hsink)
        rw [hsink, hother.swallowed hkept]
    · rw [hother.keeps place hrecord, ← hsame]
      cases hold : begun'.tree.get? place with
      | some entry => exact htogether.grown_other.keeps _ _ hplace hold
      | none =>
          cases hentry : other.fileSystem.tree.get? place with
          | none => rfl
          | some entry =>
              -- what was put below has been there already, and with it the directory
              rcases htogether.grown_other.adds _ _ hplace hentry with
                hthere | ⟨-, below, found, hbelow, habove, hfound⟩
              · rw [hold] at hthere
                cases hthere
              · rw [htogether.alike.inside _ hbelow] at hfound
                obtain ⟨last, hlast⟩ := hfirst.exists_get? hfound
                obtain ⟨met, hmet⟩ := exists_get?_of_prefix habove hlast
                rw [← hsame, hold] at hmet
                cases hmet

/-! ## Overwriting -/

/-- The same file system with nothing in the destination. -/
structure Bare (job : Export) (fs bare : FileSystem) : Prop where
  linkFree : bare.tree.LinkFree
  current : bare.current = fs.current
  isDirectory : bare.isDirectory job.config.destination = true
  outside : ∀ place, ¬job.target <+: place → bare.tree.get? place = fs.tree.get? place
  nothing : ∀ name below, bare.tree.get? (job.target ++ name :: below) = none

section Overwriting

variable {config : Config} {confirm : Path → Bool} {bare : FileSystem} {summary : Summary}

theorem Bare.repeats (h : (resolved fs config).Bare fs bare)
    (hself : (resolved fs config).Repeats fs fs) (hnames : ∀ root ∈ config.roots, root.names ≠ [])
    (hbase : ∃ base, bare.resolveExisting config.baseDirectory = .ok base) :
    (resolved fs config).Repeats fs bare := by
  have hplace (path : Path) : bare.place path = fs.place path := by
    rw [FileSystem.place, FileSystem.place, h.current]
  obtain ⟨base, hbase⟩ := hbase
  obtain ⟨-, rfl, -⟩ := FileSystem.resolveExisting_eq_ok h.linkFree hbase
  rw [hplace] at hbase
  have hleads : (config.destination.isAbsolute || bare.hasCurrent) = true := by
    rw [FileSystem.hasCurrent, h.current]
    exact hself.way.leads
  obtain ⟨location, hfind⟩ := FileSystem.find_of_isDirectory hleads h.isDirectory
  have hway := FileSystem.hasWay_of_find h.linkFree hleads hfind
  have hthere := hway.get?_place
  rw [hplace] at hthere
  refine ⟨h.linkFree, hway, by rw [h.current], hbase, h.outside, ?_, ?_, ?_⟩
  · intro root _ place _ _ _ entry hentry
    by_cases htarget : (resolved fs config).target <+: place
    · obtain ⟨below, rfl⟩ := htarget
      cases below with
      | nil =>
          rw [List.append_nil] at hentry
          exact .inl (Option.some.inj (hentry.symm.trans hthere))
      | cons name below =>
          rw [h.nothing name below] at hentry
          cases hentry
    · exact .inr ((h.outside place htarget).symm.trans hentry)
  · intro _ entry hentry
    rw [placeOf, show versionFile.names = [{ text := ".version" }] from rfl, h.nothing] at hentry
    cases hentry
  · intro root hroot hthere
    obtain ⟨entry, hentry⟩ := hthere
    obtain ⟨name, below, hbelow⟩ := List.exists_cons_of_ne_nil (hnames root hroot)
    rw [hbelow, h.nothing] at hentry
    cases hentry

/-- A file system is bare if its entries are those that are not below the destination. -/
theorem bare_of_entries (hlinks : fs.tree.LinkFree) (hcurrent : bare.current = fs.current)
    (hdirectory : bare.isDirectory config.destination = true)
    (hentries : bare.tree.entries = fs.tree.entries.filter fun entry =>
      ¬((resolved fs config).target <+: entry.1 ∧ entry.1 ≠ (resolved fs config).target)) :
    (resolved fs config).Bare fs bare where
  linkFree := linkFree_of_entries fun entry hentry hlink => by
    obtain ⟨place, entry⟩ := entry
    rw [hentries] at hentry
    cases entry with
    | link path => exact hlinks place path (get?_of_mem (List.mem_filter.1 hentry).1)
    | _ => cases hlink
  current := hcurrent
  isDirectory := hdirectory
  outside place hplace := by
    by_cases hroot : place = []
    · rw [hroot, get?_root, get?_root]
    · ext entry
      rw [get?_eq_some_iff_mem hroot, get?_eq_some_iff_mem hroot, hentries, List.mem_filter]
      exact and_iff_left (decide_eq_true fun hbelow => hplace hbelow.1)
  nothing name below := by
    refine get?_eq_none_iff.2 ⟨by simp, fun entry hentry => ?_⟩
    rw [hentries, List.mem_filter] at hentry
    exact of_decide_eq_true hentry.2 ⟨List.prefix_append _ _, by simp⟩

/-- If the project is found again after an export, it is found where it was. -/
theorem resolveExisting_done {ready middle : FileSystem} (hlinks : middle.tree.LinkFree)
    (hself : (resolved fs config).Repeats fs fs)
    (hemptied : (resolved fs config).Emptied config.roots fs ready)
    (hgrown : (resolved fs config).Grown ready middle)
    (hrecorded : (resolved fs config).Stamped middle after)
    (hbase : ∃ base, after.resolveExisting config.baseDirectory = .ok base) :
    after.resolveExisting config.baseDirectory = .ok (resolved fs config).base := by
  obtain ⟨base, hbase⟩ := hbase
  obtain ⟨start, hstart, hplaces⟩ := fs.exists_isLeftOf
  have hleft := hemptied.current start hstart
  rw [← hgrown.current, ← hrecorded.retains.current] at hleft
  obtain ⟨rfl, -⟩ :=
    FileSystem.resolveExisting_holds (hrecorded.retains.linkFree hlinks) hleft hbase
  have hleads : (config.baseDirectory.isAbsolute || fs.hasCurrent) = true :=
    (FileSystem.resolveExisting_eq_ok hself.linkFree hself.base).1
  rw [hplaces _ hleads] at hbase
  exact hbase

/-- An export over an existing destination leaves at the places of the roots what the same export
leaves in an empty destination, and the same export after it changes nothing and counts the same.
The project has to be found again by the path that the settings give for it: that path may go
through what the destination has held. Where something stands at the place of a root before an
export, the system has to follow the path of the root in the destination. -/
theorem overwriting_eq_fresh (hlinks : fs.tree.LinkFree)
    (hnormal : ∀ root ∈ config.roots, root.IsNormal)
    (hfollowed : (resolved fs config).Followed fs)
    (hapart : ∀ root ∈ config.roots,
      (fs.place config.destination).Apart (fs.place config.baseDirectory ++ root.names))
    (hexists : fs.isDirectory config.destination = true)
    (hok : (runExport config confirm fs).result = .ok summary) :
    (∀ bare, (resolved fs config).Bare fs bare →
      (∃ base, bare.resolveExisting config.baseDirectory = .ok base) →
        (runExport config confirm bare).result = .ok summary ∧
        ∀ root ∈ config.roots, ∀ place, fs.place config.destination ++ root.names <+: place →
          place ≠ (resolved fs config).placeOf versionFile →
            (runExport config confirm fs).session.fileSystem.tree.get? place =
              (runExport config confirm bare).session.fileSystem.tree.get? place) ∧
    ∀ after, after = (runExport config confirm fs).session.fileSystem →
      (resolved fs config).Followed after →
      (∃ base, after.resolveExisting config.baseDirectory = .ok base) →
        (runExport config confirm after).result = .ok summary ∧
        ∀ place, (runExport config confirm after).session.fileSystem.tree.get? place =
          after.tree.get? place := by
  have hself := repeats_self hlinks hfollowed hexists hok
  have hnames (root : Path) (hroot : root ∈ config.roots) : root.names ≠ [] :=
    (hnormal root hroot).names_ne_nil
  have hfollows {other : FileSystem} (hrepeats : (resolved fs config).Repeats fs other) :=
    runExport_follows hlinks hnormal hfollowed hapart hexists hrepeats hok
  refine ⟨fun bare hbare hbase => ?_, ?_⟩
  · obtain ⟨hsame, ready, ready', -, -, hrecorded⟩ := hfollows (hbare.repeats hself hnames hbase)
    refine ⟨hsame, fun root hroot place hplace hrecord => ?_⟩
    exact (hrecorded.get?_eq ⟨root, hroot, hplace⟩ hrecord).symm
  · rintro after rfl hfollowedAgain hbase
    obtain ⟨-, ready, _, hemptied, -, middle, _, htogether, hrecorded, -⟩ := hfollows hself
    have hbaseAgain := resolveExisting_done htogether.alike.linkFree hself hemptied
      htogether.grown hrecorded hbase
    have hagain := repeats_done hemptied htogether.grown htogether.alike.linkFree hrecorded rfl
      hfollowedAgain hbaseAgain
    obtain ⟨hsame, _, ready', -, hemptied', hrecordedAgain⟩ := hfollows hagain
    exact ⟨hsame, hrecordedAgain.unchanged hemptied'⟩

end Overwriting

/-- A project with an old export beside it, in which a directory has the name of the file. -/
def besideOld : FileSystem :=
  .ofTree
    { entries :=
        [(.ofString "p/src/main.c", .file [0x78, 0x0A]),
          (.ofString "p/src", .directory), (.ofString "p", .directory),
          (.ofString "out/src/main.c/old", .file [0x6F, 0x0A]),
          (.ofString "out/src/main.c", .directory),
          (.ofString "out/src", .directory), (.ofString "out", .directory)]
      wellFormed := ⟨by decide +kernel, by decide +kernel, by decide +kernel, by decide +kernel⟩ }
    []

/-- The same project beside an empty directory. -/
def besideEmpty : FileSystem :=
  .ofTree
    { entries :=
        [(.ofString "p/src/main.c", .file [0x78, 0x0A]),
          (.ofString "p/src", .directory), (.ofString "p", .directory),
          (.ofString "out", .directory)]
      wellFormed := ⟨by decide +kernel, by decide +kernel, by decide +kernel, by decide +kernel⟩ }
    []

/-- The old export leaves no trace. -/
theorem overwriting_eq_fresh_besideOld :
    let outcome := runExport besideProject (fun _ => true) besideOld
    let fresh := runExport besideProject (fun _ => true) besideEmpty
    let again := runExport besideProject (fun _ => true) outcome.session.fileSystem
    outcome.result = .ok { written := 1 } ∧ fresh.result = .ok { written := 1 } ∧
      again.result = .ok { written := 1 } ∧
      (∀ place : Location, [{ text := "out" }, { text := "src" }] <+: place →
        outcome.session.fileSystem.tree.get? place = fresh.session.fileSystem.tree.get? place) ∧
      ∀ place, again.session.fileSystem.tree.get? place =
        outcome.session.fileSystem.tree.get? place := by
  intro outcome fresh again
  have hok : outcome.result = .ok { written := 1 } := eq_ok_of_toOption (by decide +kernel)
  have hlinks : besideOld.tree.LinkFree := linkFree_of_entries (by decide +kernel)
  have hbare : (resolved besideOld besideProject).Bare besideOld besideEmpty :=
    bare_of_entries hlinks rfl (by decide +kernel) (by decide +kernel)
  have hsize : ∀ root ∈ besideProject.roots,
      (besideProject.destination.join root).size ≤ Path.maxSize := by decide +kernel
  obtain ⟨hfresh, hagain⟩ := overwriting_eq_fresh hlinks (by decide +kernel)
    (fun root hroot _ => hsize root hroot) (by decide +kernel) (by decide +kernel) hok
  obtain ⟨hfresh, hsame⟩ := hfresh besideEmpty hbare
    ⟨[{ text := "p" }], eq_ok_of_toOption (by decide +kernel)⟩
  obtain ⟨hagain, hunchanged⟩ := hagain _ rfl (fun root hroot _ => hsize root hroot)
    ⟨[{ text := "p" }], eq_ok_of_toOption (by decide +kernel)⟩
  refine ⟨hok, hfresh, hagain, fun place hplace => ?_, hunchanged⟩
  refine hsame (Path.ofString "src") (by decide +kernel) place hplace ?_
  rintro rfl
  exact absurd hplace (by decide +kernel)

/-- The settings with which the path of the project leads through the destination. -/
def throughOld : Config where
  baseDirectory := Path.ofString "p/../out/src/../../p"
  destination := Path.ofString "out"
  roots := [Path.ofString "src"]

/-- A project without its root, and an old export of it. -/
def rootless : FileSystem :=
  .ofTree
    { entries :=
        [(.ofString "p", .directory),
          (.ofString "out/src/old.c", .file [0x6F, 0x0A]),
          (.ofString "out/src", .directory), (.ofString "out", .directory)]
      wellFormed := ⟨by decide +kernel, by decide +kernel, by decide +kernel, by decide +kernel⟩ }
    []

/-- Where the path of the project leads through what an export removes, the same export fails when
it is run again. -/
theorem project_lost_throughOld :
    let outcome := runExport throughOld (fun _ => true) rootless
    let again := runExport throughOld (fun _ => true) outcome.session.fileSystem
    rootless.tree.LinkFree ∧ (∀ root ∈ throughOld.roots, root.IsNormal) ∧
      (∀ root ∈ throughOld.roots, (rootless.place throughOld.destination).Apart
        (rootless.place throughOld.baseDirectory ++ root.names)) ∧
      rootless.isDirectory throughOld.destination = true ∧
      outcome.result = .ok { missingRoots := [Path.ofString "src"] } ∧
      again.result.toOption = none := by
  intro outcome again
  exact ⟨linkFree_of_entries (by decide), by decide +kernel, by decide +kernel, by decide +kernel,
    eq_ok_of_toOption (by decide +kernel), by decide +kernel⟩

end Export

end Snapshot
