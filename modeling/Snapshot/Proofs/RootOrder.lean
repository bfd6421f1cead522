import Snapshot.Proofs.Between
import Snapshot.Proofs.Inputs
import Snapshot.Proofs.Overwriting

/-!
# The order of the roots

An export of the same roots in another order goes well if the export does, and leaves the same: what
one of them leaves in the end, the other one leaves as well, since each lies between the start and
the end of the other. The roots may overlap, and a root may be given more than once.
-/

namespace Snapshot

open ExportM FileTree

namespace Export

/-- The same export of other roots. -/
def withRoots (job : Export) (roots : List Path) : Export :=
  { job with config := { job.config with roots } }

/-- Whether nothing is found of a root. -/
def isMissing (job : Export) (fs : FileSystem) (root : Path) : Bool :=
  !fs.pathExists (job.pathOf root)

variable {job : Export} {roots : List Path} {path root : Path} {noted : List Path} {depth : Nat}
  {fs after : FileSystem} {session other start done : Session} {summary : Summary}

/-! ## Missing roots -/

theorem exportDirectory_noted :
    Ensures (fun session => session.summary.missingRoots = noted) (job.exportDirectory depth path)
      (fun _ session => session.summary.missingRoots = noted) fun _ _ => True := by
  have hfile (path : Path) :
      Ensures (fun session => session.summary.missingRoots = noted) (job.exportFile path)
        (fun _ session => session.summary.missingRoots = noted) fun _ _ => True :=
    .of_start fun _ hstart =>
      (exportFile_logs.mono_after fun _ _ hlogs => hlogs.missing.trans hstart).anyhow
  have htarget (path : Path) :
      Ensures (fun session => session.summary.missingRoots = noted) (job.createTarget path)
        (fun _ session => session.summary.missingRoots = noted) fun _ _ => True :=
    .of_start fun _ hstart =>
      (createTarget_logs.mono_after fun _ _ hlogs => hlogs.missing.trans hstart).anyhow
  induction depth generalizing path with
  | zero => exact .throw fun _ _ => trivial
  | succ depth ih =>
      unfold Export.exportDirectory
      refine (ensures_say fun _ _ h => h).bind fun _ => (htarget path).bind fun _ => ?_
      refine (scan_ensures (fun _ _ _ => trivial) fun _ _ _ _ => trivial).bind fun listing => ?_
      have hlisted : Ensures (fun session => session.summary.missingRoots = noted)
          (do listing.files.forM job.exportFile
              listing.subdirectories.forM (job.exportDirectory depth))
          (fun _ session => session.summary.missingRoots = noted) fun _ _ => True :=
        (Ensures.forM fun file _ => hfile file).bind fun _ => Ensures.forM fun directory _ => ih
      exact hlisted.mono_before fun _ h => h.1

/-- A root is noted if it is missing when its turn comes. -/
theorem exportRoot_noted :
    Ensures (fun session => session = start) (job.exportRoot root)
      (fun _ session => session.summary.missingRoots = start.summary.missingRoots ++
        [root].filter (job.isMissing start.fileSystem))
      fun _ _ => True := by
  unfold exportRoot
  refine Ensures.get_bind fun state hstate => ?_
  rw [hstate]
  dsimp only
  split
  · next hmissing =>
      have hmissing : job.isMissing start.fileSystem root = true := hmissing
      rw [List.filter_cons_of_pos hmissing, List.filter_nil]
      refine ensures_say_eq.bind fun _ => ensures_count ?_
      intro session hsession
      obtain ⟨lines, rfl⟩ := hsession
      rfl
  · next hexists =>
      have hexists : ¬job.isMissing start.fileSystem root = true := hexists
      rw [List.filter_cons_of_neg hexists, List.filter_nil, List.append_nil]
      split
      · exact .pure fun session hsession => by rw [hsession]
      · split
        · exact exportDirectory_noted.from_session rfl
        · exact (exportFile_logs.mono_after fun _ _ hlogs => hlogs.missing).anyhow

/-- The roots are noted that were missing at the start. -/
theorem exportRoots_noted (hseparate : job.Separate) (hstart : job.Poised start)
    (hroots : ∀ root ∈ roots, root ∈ job.config.roots)
    (hexported : roots.forM job.exportRoot start = .ok () done) :
    done.summary.missingRoots = roots.filter (job.isMissing start.fileSystem) := by
  let location := start.fileSystem.current.anchor ++
    List.replicate start.fileSystem.current.lost Segment.empty
  let reached (front : List Path) (session : Session) : Prop :=
    Settled location (job.Inside start.fileSystem.tree) session ∧
      session.summary.missingRoots = front.filter (job.isMissing start.fileSystem)
  have hnoted : Ensures (reached []) (roots.forM job.exportRoot) (fun _ => reached roots)
      fun _ _ => True := by
    refine Ensures.forM_prefix reached fun front root rest heq => ?_
    apply Ensures.of_start
    intro session hsession
    obtain ⟨hsettled, hfront⟩ := hsession
    have hcarried := hseparate.roots root (hroots root (by simp [heq]))
    have hsame : job.SameOutside start.fileSystem session.fileSystem :=
      ⟨hstart.linkFree, hsettled.linkFree, hsettled.holds.outside⟩
    have hmissing : job.isMissing session.fileSystem root = job.isMissing start.fileSystem root :=
      congrArg not (hsame.pathExists_eq hseparate.base hcarried)
    have hkept := (keeps_inside hseparate start.fileSystem.tree location).exportRoot
      hcarried.visits
    refine ((hkept.from_session hsettled).and exportRoot_noted).mono_after ?_ |>.anyhow
    intro _ last hlast
    refine ⟨hlast.1, ?_⟩
    rw [hlast.2, hfront, List.filter_append, List.filter_singleton, List.filter_singleton, hmissing]
  have hbegins : reached [] start := by
    refine ⟨⟨hstart.linkFree, Place.isLeftOf_append_replicate _, fun _ _ => rfl, hstart.stands⟩, ?_⟩
    rw [hstart.summary]
    rfl
  have hend := hnoted start hbegins
  rw [hexported] at hend
  exact hend.2

/-! ## Exports of the roots in another order -/

theorem exportDirectory_withRoots :
    (job.withRoots roots).exportDirectory depth = job.exportDirectory depth := by
  induction depth with
  | zero => rfl
  | succ depth ih =>
      funext path
      rw [Export.exportDirectory, Export.exportDirectory, ih]
      rfl

/-- What is exported of a root does not depend on the other roots. -/
theorem exportRoot_withRoots : (job.withRoots roots).exportRoot = job.exportRoot := by
  funext root
  unfold Export.exportRoot
  rw [exportDirectory_withRoots]
  rfl

theorem forM_withRoots : (job.withRoots roots).config.roots.forM (job.withRoots roots).exportRoot =
    roots.forM job.exportRoot := by
  rw [exportRoot_withRoots]
  rfl

theorem Separate.withRoots (h : job.Separate) (hperm : roots.Perm job.config.roots) :
    (job.withRoots roots).Separate where
  base := h.base
  target := h.target
  roots root hroot := by
    have hcarried := h.roots root (hperm.mem_iff.1 hroot)
    exact ⟨⟨hcarried.visits.1, root, hroot, List.prefix_rfl⟩, hcarried.ends, hcarried.apart⟩

theorem Poised.withRoots (h : job.Poised session) : (job.withRoots roots).Poised session :=
  ⟨h.linkFree, h.stands, h.summary⟩

/-- Exporting the roots in another order leaves the same. -/
theorem forM_exportRoot_perm (hseparate : job.Separate) (hperm : roots.Perm job.config.roots)
    (hstart : job.Poised session) (hother : job.Poised other)
    (hsame : ∀ place, other.fileSystem.tree.get? place = session.fileSystem.tree.get? place)
    (hexported : job.config.roots.forM job.exportRoot session = .ok () done) :
    ∃ also, roots.forM job.exportRoot other = .ok () also ∧
      (∀ place, also.fileSystem.tree.get? place = done.fileSystem.tree.get? place) ∧
      also.summary =
        { done.summary with missingRoots := roots.filter (job.isMissing session.fileSystem) } := by
  obtain ⟨also, halso, hbetween, hwritten, hskipped⟩ :=
    exportRoots_between hseparate hstart hperm hother hsame hexported
  -- each of the two ends lies between the start and the other one
  have hback : other.fileSystem.tree.Between also.fileSystem.tree done.fileSystem.tree := by
    rw [← forM_withRoots] at halso
    obtain ⟨again, hagain, hback, -⟩ :=
      exportRoots_between (hseparate.withRoots hperm) hother.withRoots hperm.symm hstart.withRoots
        (fun place => (hsame place).symm) halso
    rw [exportRoot_withRoots, hexported] at hagain
    cases hagain
    exact hback
  refine ⟨also, halso, fun place => ?_, Summary.ext hwritten hskipped ?_⟩
  · rcases hbetween place with hbegun | hdone
    · rcases hback place with hbegun' | halso
      · rw [hbegun, hbegun', hsame]
      · exact halso.symm
    · exact hdone
  · have houtside : job.SameOutside session.fileSystem other.fileSystem :=
      ⟨hstart.linkFree, hother.linkFree, fun place _ => hsame place⟩
    rw [exportRoots_noted hseparate hother (fun _ => hperm.mem_iff.1) halso]
    apply List.filter_congr
    intro root hroot
    have hcarried := hseparate.roots root (hperm.mem_iff.1 hroot)
    exact congrArg not (houtside.pathExists_eq hseparate.base hcarried)

theorem writeVersion_eq_ok_iff : job.writeVersion session = .ok () done ↔
    ∃ after, session.fileSystem.write (job.targetOf versionFile) job.versionBytes = .ok after ∧
      { session with fileSystem := after } = done := by
  unfold writeVersion versionBytes
  rw [change_eq_ok]
  cases session.fileSystem.write (job.targetOf versionFile)
    (Utf8.encode (toString job.config.version.toInt).toList) with
  | ok after => simp
  | error fault => simp

/-- An export of the roots ends with their counts, once the version is recorded. -/
theorem exists_exportRoots_eq_ok_iff :
    (∃ done, job.exportRoots session = .ok summary done ∧ done.fileSystem = after) ↔
      ∃ middle, job.config.roots.forM job.exportRoot session = .ok () middle ∧
        middle.fileSystem.write (job.targetOf versionFile) job.versionBytes = .ok after ∧
        middle.summary = summary := by
  unfold exportRoots
  constructor
  · intro h
    obtain ⟨done, h, rfl⟩ := h
    obtain ⟨⟨⟩, middle, hroots, h⟩ := bind_eq_ok.1 h
    obtain ⟨⟨⟩, recorded, hversion, h⟩ := bind_eq_ok.1 h
    obtain ⟨after, hwrite, rfl⟩ := writeVersion_eq_ok_iff.1 hversion
    obtain ⟨_, _, ⟨⟩, h⟩ := bind_eq_ok.1 h
    obtain ⟨⟨⟩, _, ⟨⟩, ⟨⟩⟩ := bind_eq_ok.1 h
    refine ⟨middle, hroots, ?_, rfl⟩
    rw [hwrite]
    split <;> rfl
  · intro h
    obtain ⟨middle, hroots, hwrite, rfl⟩ := h
    have hversion := writeVersion_eq_ok_iff.2 ⟨after, hwrite, rfl⟩
    refine ⟨_, bind_eq_ok.2 ⟨(), middle, hroots, bind_eq_ok.2 ⟨(), _, hversion,
      bind_eq_ok.2 ⟨_, _, rfl, bind_eq_ok.2 ⟨(), _, rfl, rfl⟩⟩⟩⟩, ?_⟩
    split <;> rfl

/-- The version is recorded over the same file system. -/
theorem exportRoots_reordered (hseparate : job.Separate) (hperm : roots.Perm job.config.roots)
    (hstart : job.Poised session) (hother : job.Poised other)
    (hsame : ∀ place, other.fileSystem.tree.get? place = session.fileSystem.tree.get? place)
    (h : job.exportRoots session = .ok summary done) :
    summary.missingRoots = job.config.roots.filter (job.isMissing session.fileSystem) ∧
      ∃ also, (job.withRoots roots).exportRoots other =
          .ok { summary with
            missingRoots := roots.filter (job.isMissing session.fileSystem) } also ∧
        ∀ place, also.fileSystem.tree.get? place = done.fileSystem.tree.get? place := by
  obtain ⟨middle, hexported, hwrite, rfl⟩ := exists_exportRoots_eq_ok_iff.1 ⟨done, h, rfl⟩
  have hnoted := exportRoots_noted hseparate hstart (fun _ => id) hexported
  obtain ⟨also, hexported', halso, hsummary⟩ :=
    forM_exportRoot_perm hseparate hperm hstart hother hsame hexported
  have hspans := spans_of_exportRoots hseparate hstart hexported
  have hlinks := hspans.retains.linkFree hstart.linkFree
  have hlinks' : also.fileSystem.tree.LinkFree := hlinks.of_same halso
  obtain ⟨after, hwrite'⟩ := exists_record hlinks hlinks' hseparate.target
    ((halso _).trans hspans.inside.stands) (fun _ hentry => .inr ((halso _).symm.trans hentry))
    hwrite
  rw [← forM_withRoots] at hexported'
  obtain ⟨last, hlast, rfl⟩ :=
    exists_exportRoots_eq_ok_iff.2 ⟨also, hexported', hwrite', hsummary⟩
  have hrecorded := stamped_of_write hlinks hseparate.target hwrite
  have hrecorded' := stamped_of_write hlinks' hseparate.target hwrite'
  exact ⟨hnoted, last, hlast, hrecorded.get?_congr hrecorded' halso⟩

/-! ## Preparation -/

section Preparation

variable {confirm : Path → Bool} {place : Location} {ready : Session}
  (hperm : roots.Perm job.config.roots)

include hperm

theorem inRoots_removable_withRoots :
    (job.withRoots roots).InRoots (job.withRoots roots).removable place ↔
      job.InRoots job.removable place := by
  have hremovable : (job.withRoots roots).removable.Perm job.removable := hperm.filter _
  exact exists_congr fun root => and_congr_left fun _ => hremovable.mem_iff

theorem Clearable.withRoots (h : job.Clearable fs) : (job.withRoots roots).Clearable fs where
  linkFree := h.linkFree
  way := h.way
  resolved := h.resolved
  normal root hroot := h.normal root (hperm.mem_iff.1 hroot)
  avoids way hway hinside := h.avoids way hway ((inRoots_removable_withRoots hperm).1 hinside)

theorem checkDestination_withRoots (h : job.checkDestination fs = .ok ()) :
    (job.withRoots roots).checkDestination fs = .ok () := by
  obtain ⟨resolved, hresolved, hbase, hchecked⟩ := Project.checkDestination_eq_ok_iff.1 h
  exact Project.checkDestination_eq_ok_iff.2
    ⟨resolved, hresolved, hbase, fun root hroot => hchecked root (hperm.mem_iff.1 hroot)⟩

/-- A missing destination is created whatever the roots are. -/
theorem prepareDestination_of_missing {target : Location}
    (hmissing : session.fileSystem.pathExists job.config.destination = false)
    (h : job.prepareDestination confirm session = .ok target ready) :
    (job.withRoots roots).prepareDestination confirm session = .ok target ready := by
  unfold Project.prepareDestination at h ⊢
  obtain ⟨⟨⟩, _, hchecked, h⟩ := bind_eq_ok.1 h
  obtain ⟨haccepted, rfl⟩ := query_eq_ok.1 hchecked
  obtain ⟨_, _, ⟨⟩, h⟩ := bind_eq_ok.1 h
  have hcreates : ¬session.fileSystem.pathExists job.config.destination = true := by simp [hmissing]
  dsimp only at h
  rw [if_neg hcreates] at h
  refine bind_eq_ok.2 ⟨(), session, query_eq_ok.2 ⟨checkDestination_withRoots hperm haccepted, rfl⟩,
    bind_eq_ok.2 ⟨session, session, rfl, ?_⟩⟩
  exact (congrFun (if_neg hcreates) session).trans h

/-- A destination is made ready for the roots in another order, too, and the same is left of it. -/
theorem prepareDestination_reordered (hlinks : session.fileSystem.tree.LinkFree)
    (hnormal : ∀ root ∈ job.config.roots, root.IsNormal)
    (hdescent : ∀ root ∈ job.config.roots, root.IsDescent)
    (h : job.prepareDestination confirm session = .ok job.target ready) :
    ∃ also, (job.withRoots roots).prepareDestination confirm session = .ok job.target also ∧
      also.summary = session.summary ∧
      ∀ place, also.fileSystem.tree.get? place = ready.fileSystem.tree.get? place := by
  have hready := Project.isReady_of_prepareDestination hdescent h
  have haccepted := checkDestination_withRoots hperm hready.accepted
  rcases hready.way with ⟨⟨location, hfind⟩, hconfirm, -⟩ | ⟨hmissing, -⟩
  · have hclearable : job.Clearable session.fileSystem :=
      clearable_of_isReady hlinks hready (FileSystem.isDirectory_of_find hfind) hnormal
    obtain ⟨_, also, hok, rfl, hemptied', hsummary⟩ :=
      ((hclearable.withRoots hperm).prepareDestination_empties haccepted hconfirm).exists_ok rfl
    have hemptied := hclearable.prepareDestination_empties hready.accepted hconfirm session rfl
    rw [h] at hemptied
    refine ⟨also, hok, hsummary, fun place => ?_⟩
    by_cases hinside : job.InRoots job.removable place
    · rw [hemptied.2.1.gone place hinside,
        hemptied'.gone place ((inRoots_removable_withRoots hperm).2 hinside)]
    · rw [hemptied.2.1.keeps place hinside,
        hemptied'.keeps place (mt (inRoots_removable_withRoots hperm).1 hinside)]
  · have hsame := prepareDestination_of_missing hperm hmissing h
    exact ⟨ready, hsame, hready.alike.summary, fun _ => rfl⟩

end Preparation

/-! ## Whole exports -/

/-- The destination that is ready is a directory. -/
theorem get?_of_isReady {project : Project} {confirm : Path → Bool} {target : Location}
    (h : project.IsReady confirm start target session) :
    session.fileSystem.tree.get? target = some .directory := by
  obtain ⟨hleads, entry, hfind⟩ := FileSystem.find_of_resolveExisting h.resolved
  have hget := FileSystem.get?_of_find hfind
  rcases h.way with ⟨⟨location, hbefore⟩, -, -, hlosing, -⟩ | ⟨-, hcreate⟩
  · have hsame := hlosing.find hfind
    rw [hbefore] at hsame
    cases hsame
    exact hget
  · have hnonempty := (FileSystem.acceptable_of_reach (FileSystem.find_eq_ok_iff.1 hfind)).nonempty
    obtain ⟨location, hdirectory⟩ := FileSystem.find_of_isDirectory hleads
      (FileSystem.isDirectory_of_createDirectories hnonempty hcreate)
    rw [hfind] at hdirectory
    cases hdirectory
    exact hget

/-- An export that goes well has its settings checked, finds the project, makes the destination
ready and exports the roots. -/
theorem perform_eq_ok_iff {config : Config} {confirm : Path → Bool} :
    perform config confirm session = .ok summary done ↔
      config.validate = .ok () ∧ ∃ base target said ready,
        session.fileSystem.resolveExisting config.baseDirectory = .ok base ∧
        say config (.usingVersion config.version) session = .ok () said ∧
        ({ config, base } : Project).prepareDestination confirm said = .ok target ready ∧
        ({ config, base, target } : Export).exportRoots ready = .ok summary done := by
  unfold perform
  constructor
  · intro h
    obtain ⟨⟨⟩, _, hchecked, h⟩ := bind_eq_ok.1 h
    obtain ⟨hvalid, rfl⟩ := query_eq_ok.1 hchecked
    obtain ⟨base, _, hfound, h⟩ := bind_eq_ok.1 h
    obtain ⟨hbase, rfl⟩ := query_eq_ok.1 hfound
    obtain ⟨⟨⟩, said, hsaid, h⟩ := bind_eq_ok.1 h
    obtain ⟨target, ready, hready, h⟩ := bind_eq_ok.1 h
    exact ⟨mapError_eq_ok.1 hvalid, base, target, said, ready, mapError_eq_ok.1 hbase, hsaid,
      hready, h⟩
  · intro h
    obtain ⟨hvalid, base, target, said, ready, hbase, hsaid, hready, h⟩ := h
    exact bind_eq_ok.2 ⟨(), session, query_eq_ok.2 ⟨mapError_eq_ok.2 hvalid, rfl⟩,
      bind_eq_ok.2 ⟨base, session, query_eq_ok.2 ⟨mapError_eq_ok.2 hbase, rfl⟩,
        bind_eq_ok.2 ⟨(), said, hsaid, bind_eq_ok.2 ⟨target, ready, hready, h⟩⟩⟩⟩

section Whole

variable {config : Config} {confirm : Path → Bool} (hlinks : fs.tree.LinkFree)
  (hnormal : ∀ root ∈ config.roots, root.IsNormal)
  (hapart : ∀ root ∈ config.roots,
    (fs.place config.destination).Apart (fs.place config.baseDirectory ++ root.names))
  (hperm : roots.Perm config.roots)

include hlinks hnormal hapart hperm

theorem perform_reordered (h : perform config confirm { fileSystem := fs } = .ok summary done) :
    ∃ missing : Path → Bool, summary.missingRoots = config.roots.filter missing ∧
      ∃ also, perform { config with roots } confirm { fileSystem := fs } =
          .ok { summary with missingRoots := roots.filter missing } also ∧
        ∀ place, also.fileSystem.tree.get? place = done.fileSystem.tree.get? place := by
  obtain ⟨hvalid, base, target, said, ready, hbase, hsaid, hprepared, hexported⟩ :=
    perform_eq_ok_iff.1 h
  have hdescent := Config.validate_eq_ok_iff.1 hvalid
  obtain ⟨-, rfl, -⟩ := FileSystem.resolveExisting_eq_ok hlinks hbase
  obtain ⟨rfl, hempty⟩ : said.fileSystem = fs ∧ said.summary = {} := by
    cases hsaid
    split <;> exact ⟨rfl, rfl⟩
  have hready := Project.isReady_of_prepareDestination hdescent hprepared
  obtain ⟨rfl, hreadied⟩ := hready.ready hdescent hlinks
  let job : Export := resolved said.fileSystem config
  have hseparate : job.Separate :=
    ⟨said.fileSystem.isPlain_place _, said.fileSystem.isPlain_place _, fun root hroot =>
      .of_root hroot (hnormal root hroot) (hapart root hroot)⟩
  have hprepared : job.prepareDestination confirm said = .ok job.target ready := hprepared
  obtain ⟨prepared, hprepared', hsummary, hsame⟩ :=
    prepareDestination_reordered hperm hlinks hnormal hdescent hprepared
  have hpoised : job.Poised ready :=
    ⟨hreadied.linkFree hlinks, get?_of_isReady hready, hready.alike.summary.trans hempty⟩
  have hpoised' : job.Poised prepared :=
    ⟨hpoised.linkFree.of_same hsame, (hsame _).trans hpoised.stands, hsummary.trans hempty⟩
  obtain ⟨hmissing, also, hexported', halso⟩ :=
    exportRoots_reordered hseparate hperm hpoised hpoised' hsame hexported
  refine ⟨_, hmissing, also, perform_eq_ok_iff.2 ⟨?_, _, _, said, prepared, hbase, hsaid,
    hprepared', hexported'⟩, halso⟩
  exact Config.validate_eq_ok_iff.2 fun root hroot => hdescent root (hperm.mem_iff.1 hroot)

theorem exists_ok_reordered (h : ∃ summary, (runExport config confirm fs).result = .ok summary) :
    ∃ summary, (runExport { config with roots } confirm fs).result = .ok summary := by
  obtain ⟨summary, hok⟩ := h
  obtain ⟨done, hperform⟩ := exists_perform_of_runExport hok
  obtain ⟨missing, -, also, hreordered, -⟩ :=
    perform_reordered hlinks hnormal hapart hperm hperform
  exact ⟨_, congrArg Outcome.result (runExport_eq_of_perform hreordered)⟩

end Whole

/-- What an export leaves does not depend on the order of the roots, and neither does whether it
goes well or what it counts. The roots that are missing are reported in the order of the roots.
Roots may overlap, or be given more than once. -/
theorem root_order_irrelevant {config : Config} (confirm : Path → Bool)
    (hlinks : fs.tree.LinkFree) (hnormal : ∀ root ∈ config.roots, root.IsNormal)
    (hapart : ∀ root ∈ config.roots,
      (fs.place config.destination).Apart (fs.place config.baseDirectory ++ root.names))
    (hperm : roots.Perm config.roots) :
    let outcome := runExport config confirm fs
    let reordered := runExport { config with roots } confirm fs
    ((∃ summary, reordered.result = .ok summary) ↔ ∃ summary, outcome.result = .ok summary) ∧
    ∀ summary, outcome.result = .ok summary →
      reordered.result =
          .ok { summary with missingRoots := roots.filter (· ∈ summary.missingRoots) } ∧
        summary.missingRoots = config.roots.filter (· ∈ summary.missingRoots) ∧
        ∀ place, reordered.session.fileSystem.tree.get? place =
          outcome.session.fileSystem.tree.get? place := by
  intro outcome reordered
  constructor
  · -- the roots in their own order are the reordered ones in another order
    let other : Config := { config with roots }
    have hnormal' : ∀ root ∈ other.roots, root.IsNormal := fun root hroot =>
      hnormal root (hperm.mem_iff.1 hroot)
    have hapart' : ∀ root ∈ other.roots,
        (fs.place other.destination).Apart (fs.place other.baseDirectory ++ root.names) :=
      fun root hroot => hapart root (hperm.mem_iff.1 hroot)
    exact ⟨exists_ok_reordered hlinks hnormal' hapart' hperm.symm,
      exists_ok_reordered hlinks hnormal hapart hperm⟩
  · intro summary hok
    obtain ⟨done, hperform⟩ := exists_perform_of_runExport hok
    obtain ⟨missing, hmissing, also, hreordered, hsame⟩ :=
      perform_reordered hlinks hnormal hapart hperm hperform
    have hfilter (list : List Path) (hlist : ∀ root ∈ list, root ∈ config.roots) :
        list.filter (· ∈ summary.missingRoots) = list.filter missing := by
      refine List.filter_congr fun root hroot => ?_
      simp [hmissing, hlist root hroot]
    have hdone : outcome = _ := runExport_eq_of_perform hperform
    have halso : reordered = _ := runExport_eq_of_perform hreordered
    rw [hfilter config.roots fun _ => id, hfilter roots fun _ => hperm.mem_iff.1, hdone, halso]
    exact ⟨rfl, hmissing, hsame⟩

/-- Roots of which one holds another, one is given twice, and two are missing. -/
def overlapping : Config where
  baseDirectory := Path.ofString "p"
  destination := Path.ofString "out"
  roots := ["src", "lost", "src/main.c", "src", "gone"].map Path.ofString

/-- The same roots in another order. -/
def overlappingReordered : List Path :=
  ["gone", "src/main.c", "src", "lost", "src"].map Path.ofString

/-- Both exports replace what an old one has left, and write the file three times. -/
theorem root_order_irrelevant_overlapping :
    let outcome := runExport overlapping (fun _ => true) besideOld
    let reordered :=
      runExport { overlapping with roots := overlappingReordered } (fun _ => true) besideOld
    outcome.result =
        .ok { written := 3, missingRoots := [Path.ofString "lost", Path.ofString "gone"] } ∧
      reordered.result =
        .ok { written := 3, missingRoots := [Path.ofString "gone", Path.ofString "lost"] } ∧
      ∀ place, reordered.session.fileSystem.tree.get? place =
        outcome.session.fileSystem.tree.get? place := by
  have hlinks : besideOld.tree.LinkFree := linkFree_of_entries (by decide +kernel)
  have hnormal : ∀ root ∈ overlapping.roots, root.IsNormal := by decide +kernel
  have hapart : ∀ root ∈ overlapping.roots, (besideOld.place overlapping.destination).Apart
      (besideOld.place overlapping.baseDirectory ++ root.names) := by decide +kernel
  have hperm : overlappingReordered.Perm overlapping.roots := by decide +kernel
  have hok : (runExport overlapping (fun _ => true) besideOld).result =
      .ok { written := 3, missingRoots := [Path.ofString "lost", Path.ofString "gone"] } :=
    eq_ok_of_toOption (by decide +kernel)
  have hmissing : overlappingReordered.filter
      (· ∈ [Path.ofString "lost", Path.ofString "gone"]) =
        [Path.ofString "gone", Path.ofString "lost"] := by decide +kernel
  obtain ⟨hreordered, -, htree⟩ :=
    (root_order_irrelevant (fun _ => true) hlinks hnormal hapart hperm).2 _ hok
  rw [hmissing] at hreordered
  dsimp only
  exact ⟨hok, hreordered, htree⟩

end Export

end Snapshot
