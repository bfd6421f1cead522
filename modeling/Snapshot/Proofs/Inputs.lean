import Snapshot.Proofs.Confinement

/-!
# What an export reads

While an export goes on, it changes the tree that it reads. What a path comes to is settled by the
places that following it looks at, so as long as none of these is one that an export can change, the
path comes to the same at every moment of the export as before it. A root that was missing then is
missing still when its turn comes, and what is read under such a path is what was there before.

The check of the destination does not see to this. It compares the destination with the roots that
exist at that time, and a path in the destination can be a root that does not exist yet. Below a root
the destination is not entered, so a link to a file is all that can lead there from one that does not
lie in it (`inputs_opened`).
-/

namespace Snapshot

open ExportM FileTree

/-! ## Paths that are not concerned -/

namespace Config

/-- Whether an export can change what stands at a place, before it records the version. -/
def Touches (config : Config) (fs : FileSystem) (place : Location) : Prop :=
  config.InRoot fs place ∨
    fs.tree.get? place = none ∧ (config.OnTheWay fs place ∨ config.AboveRoot fs place)

/-- Whether following a path looks at no place that an export can change. -/
def Untouched (config : Config) (fs : FileSystem) (path : Path) : Prop :=
  ∀ place ∈ fs.tree.trail linkLimit [] path.hops, ¬config.Touches fs place

variable {config : Config} {fs seen : FileSystem} {path : Path}

/-- What stands under an untouched path is the same at every moment of an export. -/
theorem Confines.entryAt_eq (h : config.Confines fs seen.tree) (habsolute : path.isAbsolute)
    (hpath : config.Untouched fs path) : seen.entryAt .follow path = fs.entryAt .follow path := by
  have hwalk : seen.tree.walk .follow linkLimit [] path.hops =
      fs.tree.walk .follow linkLimit [] path.hops := by
    apply walk_congr
    intro place hplace
    refine (h place).resolve_right fun hchanged => hpath place hplace ?_
    exact hchanged.imp_right fun hnew => ⟨hnew.1, hnew.2.2⟩
  rw [FileSystem.entryAt, FileSystem.entryAt, FileSystem.locate, FileSystem.locate,
    FileSystem.reach, FileSystem.reach, if_pos habsolute, if_pos habsolute, hwalk]

theorem Confines.open?_eq (h : config.Confines fs seen.tree) (habsolute : path.isAbsolute)
    (hpath : config.Untouched fs path) : seen.open? path = fs.open? path := by
  rw [FileSystem.open?, FileSystem.open?, h.entryAt_eq habsolute hpath]

theorem Confines.pathExists_eq (h : config.Confines fs seen.tree) (habsolute : path.isAbsolute)
    (hpath : config.Untouched fs path) : seen.pathExists path = fs.pathExists path := by
  rw [FileSystem.pathExists, FileSystem.pathExists, h.entryAt_eq habsolute hpath]

end Config

namespace FileSystem

variable {fs : FileSystem} {path left : Path} {name : Segment} {names : List Segment}
  {content : Except Fault (List UInt8)}

theorem pathExists_of_open? (h : fs.open? path = .ok content) : fs.pathExists path = true := by
  unfold open? at h
  cases hentry : fs.entryAt .follow path with
  | error fault => simp [hentry, Except.bind] at h
  | ok entry => exact pathExists_iff_entryAt.2 ⟨entry, hentry⟩

/-- Only in a directory a name leads to anything. -/
theorem pathExists_of_join_ofSegment (habsolute : left.isAbsolute)
    (h : fs.pathExists (left.join (.ofSegment name)) = true) : fs.pathExists left = true := by
  have hsegment : (Path.ofSegment name).isAbsolute = false := rfl
  have hjoin : (left.join (.ofSegment name)).isAbsolute := by
    rwa [(Path.body_join left hsegment).1]
  obtain ⟨entry, hentry⟩ := pathExists_iff_entryAt.1 h
  obtain ⟨location, hfind⟩ := find_of_entryAt (by simp [hjoin]) hentry
  obtain ⟨hnul, hsize, hwalk⟩ := (locate_eq_ok_iff_of_isAbsolute hjoin).1 (find_eq_ok_iff.1 hfind)
  obtain ⟨front, hhops, hleft⟩ := Path.exists_hops_join left hsegment
  rw [hhops] at hwalk
  obtain ⟨used, more, there, hlinks, hleads, -⟩ :=
    walk_append_eq_ok (Path.hops_ne_nil hsegment) hwalk
  have hthere : fs.tree.walk .follow linkLimit [] left.hops = .ok (.taken there .directory) := by
    rw [hlinks]
    rcases hleft with hleft | hleft
    · rw [hleft]
      exact hleads.walk_follow
    · rw [hleft, hleads.walk_append (by simp) (.inl rfl), walk_step rfl, walk_nil]
      rfl
  rw [Path.hasNul_join hsegment, Bool.or_eq_false_iff] at hnul
  apply pathExists_of_find
  apply find_eq_ok_iff.2
  exact (locate_eq_ok_iff_of_isAbsolute habsolute).2 ⟨hnul.1,
    hsize.imp_right (Nat.le_trans Path.size_le_size_join_ofSegment), hthere⟩

end FileSystem

namespace Project

variable {project : Project} {fs seen : FileSystem} {path root : Path} {names : List Segment}

/-- Below a missing path nothing exists. -/
theorem pathExists_of_extend (hroot : root.isAbsolute = false)
    (h : fs.pathExists (project.pathOf (root.extend names)) = true) :
    fs.pathExists (project.pathOf root) = true := by
  induction names generalizing root with
  | nil => exact h
  | cons name names ih =>
      have hjoin : (root.join (.ofSegment name)).isAbsolute = false := by
        rwa [(Path.body_join root rfl).1]
      apply FileSystem.pathExists_of_join_ofSegment Path.isAbsolute_ofLocation_join
      rw [Path.join_join_ofSegment hroot]
      exact ih hjoin h

/-- What holds of an input of an export: what was read was there before, and so was every root
that it is at or below. -/
structure FromBefore (project : Project) (fs : FileSystem) (input : Input) : Prop where
  content : project.config.Untouched fs (project.pathOf input.path) →
    fs.open? (project.pathOf input.path) = .ok input.content
  root : ∀ root ∈ project.config.roots, ∀ names, input.path = root.extend names →
    project.config.Untouched fs (project.pathOf root) →
      fs.pathExists (project.pathOf root) = true

/-- Whether of the roots that are not concerned just the missing ones are in a list. -/
def NotesMissing (project : Project) (fs : FileSystem) (noted : List Path) : Prop :=
  ∀ root ∈ project.config.roots, project.config.Untouched fs (project.pathOf root) →
    (root ∈ noted ↔ fs.pathExists (project.pathOf root) = false)

theorem fromBefore_of_open? (hseen : project.config.Confines fs seen.tree)
    (hdescent : ∀ root ∈ project.config.roots, root.IsDescent)
    {content : Except Fault (List UInt8)}
    (hopen : seen.open? (project.pathOf path) = .ok content) :
    project.FromBefore fs ⟨path, content⟩ where
  content huntouched := by
    rw [← hseen.open?_eq (project.isAbsolute_pathOf _) huntouched]
    exact hopen
  root := by
    intro root hroot names hnames huntouched
    obtain rfl : path = root.extend names := hnames
    have hdown := (hdescent root hroot).goesDown.1
    rw [← hseen.pathExists_eq (project.isAbsolute_pathOf _) huntouched]
    exact pathExists_of_extend hdown.relative (FileSystem.pathExists_of_open? hopen)

end Project

namespace Export

variable {job : Export} {fs : FileSystem} {config : Config} {confirm : Path → Bool}
  {path root : Path} {front : List Path} {start session : Session}

/-! ## What is read -/

/-- What copying a file records of what it reads: nothing, or one input. -/
structure Logs (job : Export) (path : Path) (start session : Session) : Prop where
  missing : session.summary.missingRoots = start.summary.missingRoots
  inputs : session.inputs = start.inputs ∨
    ∃ content, start.fileSystem.open? (job.pathOf path) = .ok content ∧
      session.inputs = start.inputs ++ [⟨path, content⟩]

theorem copyFile_logs :
    Ensures (fun session => ∃ lines, session = { start with status := lines })
      (job.copyFile path) (fun _ => job.Logs path start) fun _ => job.Logs path start := by
  have hopen : Ensures (fun session => ∃ lines, session = { start with status := lines })
      (query fun fs => FileCopy.open? fs (job.pathOf path) (job.targetOf path) path.text)
      (fun copy session => session.summary = start.summary ∧ session.inputs = start.inputs ∧
        start.fileSystem.open? (job.pathOf path) = .ok (copy.unread.map List.flatten))
      fun _ => job.Logs path start := by
    refine ensures_query ?_ ?_
    · intro session copy hsession hcopy
      obtain ⟨lines, rfl⟩ := hsession
      obtain ⟨-, -, unread, hunread, heq⟩ := FileCopy.open?_eq_ok hcopy
      refine ⟨rfl, rfl, ?_⟩
      rw [heq]
      cases unread with
      | error fault => exact hunread
      | ok content => simpa [Except.map] using hunread
    · intro session report hsession _
      obtain ⟨lines, rfl⟩ := hsession
      exact ⟨rfl, .inl rfl⟩
  refine hopen.bind fun copy => ?_
  have hread : Ensures
      (fun session => session.summary = start.summary ∧ session.inputs = start.inputs ∧
        start.fileSystem.open? (job.pathOf path) = .ok (copy.unread.map List.flatten))
      (modify fun session => { session with
        inputs := session.inputs ++ [{ path, content := copy.unread.map List.flatten }] })
      (fun _ => job.Logs path start) fun _ => job.Logs path start := by
    apply ensures_modify
    intro session hsession
    obtain ⟨hsummary, hinputs, hcontent⟩ := hsession
    exact ⟨congrArg _ hsummary, .inr ⟨_, hcontent, by rw [hinputs]⟩⟩
  refine hread.bind fun _ => ?_
  refine (ensures_query (fun _ _ h _ => h) fun _ _ h _ => h).bind fun done => ?_
  exact ensures_change (fun _ _ _ h _ => ⟨h.missing, h.inputs⟩)
    fun _ _ _ h _ => ⟨h.missing, h.inputs⟩

theorem exportFile_logs :
    Ensures (fun session => session = start) (job.exportFile path) (fun _ => job.Logs path start)
      fun _ => job.Logs path start := by
  refine ensures_say_eq.bind fun _ => ?_
  have hstatus (report : Report) (session : Session) (lines : List Status)
      (h : job.Logs path start session) : job.Logs path start { session with status := lines } :=
    ⟨h.missing, h.inputs⟩
  refine (sayingFailure_ensures hstatus
    (copyFile_logs.tryCatch fun report => .throw fun _ h => h)).bind fun written => ?_
  split
  · exact ensures_count fun _ h => ⟨h.missing, h.inputs⟩
  · have hskipped : Ensures (job.Logs path start)
        (count fun summary => { summary with skipped := summary.skipped + 1 })
        (fun _ => job.Logs path start) fun _ => job.Logs path start :=
      ensures_count fun _ h => ⟨h.missing, h.inputs⟩
    exact hskipped.bind fun _ => ensures_say fun _ _ h => ⟨h.missing, h.inputs⟩

theorem createTarget_logs :
    Ensures (fun session => session = start) (job.createTarget path)
      (fun _ => job.Logs path start) fun _ => job.Logs path start := by
  refine ensures_change ?_ ?_
  · intro session fs done hsession _
    rw [hsession]
    exact ⟨rfl, .inl rfl⟩
  · intro session fs report hsession _
    rw [hsession]
    exact ⟨rfl, .inl rfl⟩

/-- What holds while the roots are exported: what was read and what was missing was so before, and
the first roots have been looked at. -/
structure Reads (job : Export) (fs : FileSystem) (front : List Path) (session : Session) :
    Prop where
  confined : job.Confined fs session.fileSystem.tree
  inputs : ∀ input ∈ session.inputs, job.FromBefore fs input
  missing : ∀ root ∈ session.summary.missingRoots, job.config.Untouched fs (job.pathOf root) →
    fs.pathExists (job.pathOf root) = false
  noted : ∀ root ∈ front, job.config.Untouched fs (job.pathOf root) →
    fs.pathExists (job.pathOf root) = false → root ∈ session.summary.missingRoots

namespace Reads

theorem logs (h : job.Reads fs front start)
    (hdescent : ∀ root ∈ job.config.roots, root.IsDescent) (hlogs : job.Logs path start session)
    (hconfined : job.Confined fs session.fileSystem.tree) :
    job.Reads fs front session where
  confined := hconfined
  inputs := by
    rcases hlogs.inputs with hsame | ⟨content, hopen, hmore⟩
    · rw [hsame]
      exact h.inputs
    · intro input hinput
      rw [hmore] at hinput
      rcases List.mem_append.1 hinput with hold | hnew
      · exact h.inputs input hold
      · rw [List.mem_singleton.1 hnew]
        exact Project.fromBefore_of_open? h.confined.confines hdescent hopen
  missing := hlogs.missing ▸ h.missing
  noted := hlogs.missing ▸ h.noted

/-- A root that is missing when its turn comes is noted. -/
theorem note (h : job.Reads fs front start)
    (hmissing : start.fileSystem.pathExists (job.pathOf root) = false) :
    job.Reads fs front { start with summary :=
      { start.summary with missingRoots := start.summary.missingRoots ++ [root] } } where
  confined := h.confined
  inputs := h.inputs
  missing := by
    intro other hother huntouched
    rcases List.mem_append.1 hother with hold | hnew
    · exact h.missing other hold huntouched
    · rw [List.mem_singleton.1 hnew] at huntouched ⊢
      rw [← h.confined.confines.pathExists_eq (job.isAbsolute_pathOf _) huntouched]
      exact hmissing
  noted other hother huntouched hgone :=
    List.mem_append_left _ (h.noted other hother huntouched hgone)

end Reads

/-- A walk keeps to what was there before. -/
theorem keeps_reads (fs : FileSystem) (front : List Path)
    (hdescent : ∀ root ∈ job.config.roots, root.IsDescent) :
    job.Keeps job.Visits (job.Reads fs front) fun _ => job.Reads fs front where
  of_kept _ _ h := h
  of_status _ _ h := ⟨h.confined, h.inputs, h.missing, h.noted⟩
  of_missing _ _ _ hmissing h := h.note hmissing
  failed_of_status _ _ _ h := ⟨h.confined, h.inputs, h.missing, h.noted⟩
  visited_join _ _ hpath hname := hpath.join hname
  createTarget path hpath := by
    apply Ensures.of_start
    intro start hstart
    have hconfined := ((job.keeps_confined fs).createTarget path hpath).from_session hstart.confined
    apply (hconfined.and createTarget_logs).imp (fun _ h => h)
    · exact fun _ session h => hstart.logs hdescent h.2 h.1
    · exact fun _ session h => hstart.logs hdescent h.2 h.1
  exportFile path hpath := by
    apply Ensures.of_start
    intro start hstart
    have hconfined := ((job.keeps_confined fs).exportFile path hpath).from_session hstart.confined
    apply (hconfined.and exportFile_logs).imp (fun _ h => h)
    · exact fun _ session h => hstart.logs hdescent h.2 h.1
    · exact fun _ session h => hstart.logs hdescent h.2 h.1

theorem exportRoot_notes :
    Ensures (fun session => session = start) (job.exportRoot root)
      (fun _ session => start.fileSystem.pathExists (job.pathOf root) = false →
        root ∈ session.summary.missingRoots) fun _ _ => True := by
  unfold exportRoot
  refine Ensures.get_bind fun state hstate => ?_
  rw [hstate]
  dsimp only
  split
  · refine ensures_say_eq.bind fun _ => ensures_count ?_
    exact fun session _ _ => List.mem_append_right _ (List.mem_singleton_self root)
  · next hexists =>
      apply Ensures.of_forall
      · exact fun _ _ hmissing => absurd hmissing (by simpa using hexists)
      · exact fun _ _ => trivial

/-- Once its turn is over, a root that was missing before is noted. -/
theorem exportRoot_reads (hdescent : ∀ root ∈ job.config.roots, root.IsDescent)
    (hroot : root ∈ job.config.roots) :
    Ensures (job.Reads fs front) (job.exportRoot root) (fun _ => job.Reads fs (front ++ [root]))
      fun _ => job.Reads fs front := by
  apply Ensures.of_start
  intro start hstart
  have hreads := ((keeps_reads fs front hdescent).exportRoot
    (visits_root job hdescent root hroot)).from_session hstart
  refine (hreads.and exportRoot_notes).imp (fun _ h => h) ?_ fun _ _ h => h.1
  intro _ session hsession
  obtain ⟨hsession, hnoted⟩ := hsession
  refine ⟨hsession.confined, hsession.inputs, hsession.missing, ?_⟩
  intro other hother huntouched hgone
  rcases List.mem_append.1 hother with hold | hnew
  · exact hsession.noted other hold huntouched hgone
  · rw [List.mem_singleton.1 hnew] at huntouched hgone ⊢
    apply hnoted
    rwa [hstart.confined.confines.pathExists_eq (job.isAbsolute_pathOf _) huntouched]

theorem exportRoots_reads (hdescent : ∀ root ∈ job.config.roots, root.IsDescent) :
    Ensures (job.Reads fs []) job.exportRoots
      (fun summary session => (∀ input ∈ session.inputs, job.FromBefore fs input) ∧
        job.NotesMissing fs summary.missingRoots)
      fun _ session => ∀ input ∈ session.inputs, job.FromBefore fs input := by
  have hroots : Ensures (job.Reads fs []) (job.config.roots.forM job.exportRoot)
      (fun _ => job.Reads fs job.config.roots)
      fun _ session => ∀ input ∈ session.inputs, job.FromBefore fs input := by
    apply Ensures.forM_prefix
    intro front root rest heq
    have hroot : root ∈ job.config.roots := by simp [heq]
    exact (exportRoot_reads hdescent hroot).imp (fun _ h => h) (fun _ _ h => h)
      fun _ _ h => h.inputs
  have hversion : Ensures (job.Reads fs job.config.roots) job.writeVersion
      (fun _ session => (∀ input ∈ session.inputs, job.FromBefore fs input) ∧
        job.NotesMissing fs session.summary.missingRoots)
      fun _ session => ∀ input ∈ session.inputs, job.FromBefore fs input := by
    unfold writeVersion
    refine ensures_change ?_ fun _ _ _ h _ => h.inputs
    intro session after _ h _
    exact ⟨h.inputs, fun root hroot huntouched =>
      ⟨fun hmissing => h.missing root hmissing huntouched, h.noted root hroot huntouched⟩⟩
  refine (exportRoots_ensures hroots hversion fun _ _ h => h).mono_after ?_
  intro summary session h
  rw [h.2]
  exact h.1

theorem perform_reads (confirm : Path → Bool) (hunlinked : config.Unlinked fs) :
    Ensures (fun session => session = { fileSystem := fs }) (perform config confirm)
      (fun summary session => ∃ base, fs.resolveExisting config.baseDirectory = .ok base ∧
        (∀ input ∈ session.inputs, ({ config, base } : Project).FromBefore fs input) ∧
          ({ config, base } : Project).NotesMissing fs summary.missingRoots)
      fun _ session => ∀ input ∈ session.inputs, ∃ base,
        fs.resolveExisting config.baseDirectory = .ok base ∧
          ({ config, base } : Project).FromBefore fs input := by
  apply perform_readies
  · simp
  · intro base report session _ _ hstopped
    rw [hstopped.1.inputs]
    simp
  · intro base target hdescent hbase
    let job : Export := { config, base, target }
    have hreads : Ensures (job.Reads fs []) job.exportRoots _ _ := exportRoots_reads hdescent
    apply hreads.imp
    · intro session hready
      refine ⟨.of_isReady hdescent hready hunlinked, ?_, ?_, by simp⟩
      · rw [hready.alike.inputs]
        simp
      · rw [hready.alike.summary]
        simp
    · exact fun _ _ h => ⟨base, hbase, h⟩
    · exact fun _ _ h input hinput => ⟨base, hbase, h input hinput⟩

/-- An export reads what was there before it, and nothing that it has written: every file is opened
under a path that led to it before and gives the bytes that it held, and no file is opened at or
below a root that was missing. The roots that were missing are reported, and no others. This holds
of every path that does not lead through a place which the export can change. -/
theorem inputs_as_before (hunlinked : config.Unlinked fs) :
    let outcome := runExport config confirm fs
    (∀ input ∈ outcome.session.inputs, ∃ base,
      fs.resolveExisting config.baseDirectory = .ok base ∧
        ({ config, base } : Project).FromBefore fs input) ∧
    ∀ summary, outcome.result = .ok summary → ∃ base,
      fs.resolveExisting config.baseDirectory = .ok base ∧
        ({ config, base } : Project).NotesMissing fs summary.missingRoots := by
  intro outcome
  have hrun := runExport_from (perform_reads confirm hunlinked) rfl
  split at hrun
  · next summary hok =>
      obtain ⟨base, hbase, hinputs, hmissing⟩ := hrun
      refine ⟨fun input hinput => ⟨base, hbase, hinputs input hinput⟩, ?_⟩
      intro same hsame
      rw [hok] at hsame
      cases hsame
      exact ⟨base, hbase, hmissing⟩
  · next report herror =>
      refine ⟨hrun, ?_⟩
      intro summary hok
      rw [herror] at hok
      cases hok

/-- A file that is read through a link in the project is read as it was. -/
theorem inputs_as_before_keptBeside :
    besideProject.Unlinked keptBeside ∧
      ∃ input ∈ (runExport besideProject (fun _ => true) keptBeside).session.inputs,
        input.path = Path.ofString "src/b.c" ∧ input.content = .ok [0x61, 0x0A] := by
  let project : Project := { config := besideProject, base := [{ text := "p" }] }
  have hleads : besideProject.LeadsTo keptBeside [{ text := "out" }] :=
    ⟨.directory, eq_ok_of_toOption (by decide +kernel)⟩
  have hunlinked : besideProject.Unlinked keptBeside :=
    Config.unlinked_of_entries hleads (by decide +kernel)
  have hpaths : (runExport besideProject (fun _ => true) keptBeside).session.inputs.map Input.path =
      [Path.ofString "src/b.c"] := by
    decide +kernel
  obtain ⟨input, hinput, hpath⟩ : ∃ input ∈
      (runExport besideProject (fun _ => true) keptBeside).session.inputs,
      input.path = Path.ofString "src/b.c" := by
    rw [← List.mem_map, hpaths]
    exact List.mem_singleton_self _
  refine ⟨hunlinked, input, hinput, hpath, ?_⟩
  obtain ⟨base, hbase, hbefore⟩ := (inputs_as_before hunlinked).1 input hinput
  have hproject : keptBeside.resolveExisting besideProject.baseDirectory = .ok project.base :=
    eq_ok_of_toOption (by decide +kernel)
  obtain rfl : project.base = base := by simpa [hproject] using hbase
  have htrail : ∀ place ∈ keptBeside.tree.trail linkLimit []
        (project.pathOf (Path.ofString "src/b.c")).hops,
      keptBeside.tree.get? place ≠ none ∧
        ¬[{ text := "out" }] ++ (Path.ofString "src").names <+: place := by
    decide +kernel
  have huntouched : besideProject.Untouched keptBeside (project.pathOf input.path) := by
    intro place hplace htouches
    rw [hpath] at hplace
    obtain ⟨hthere, hapart⟩ := htrail place hplace
    rcases htouches with ⟨target, htarget, root, hroot, hbelow⟩ | ⟨hnone, -⟩
    · rw [hleads.unique htarget, List.mem_singleton.1 hroot] at hbelow
      exact hapart hbelow
    · exact hthere hnone
  have hopened := hbefore.content huntouched
  have hcontent : keptBeside.open? (project.pathOf (Path.ofString "src/b.c")) =
      .ok (.ok [0x61, 0x0A]) := eq_ok_of_toOption (by decide +kernel)
  rw [hpath, hcontent] at hopened
  exact (Except.ok.inj hopened).symm

/-- The settings with which the place of one root in the destination is another root. -/
def insideProject : Config where
  baseDirectory := Path.ofString "p"
  destination := Path.ofString "p/out"
  roots := [Path.ofString "src", Path.ofString "out/src"]

/-- A root that is missing at first is exported, once the export of another one has put it there:
what is read is what was written before. -/
theorem output_read_insideProject :
    let project : Project := { config := insideProject, base := [{ text := "p" }] }
    let outcome := runExport insideProject (fun _ => true) smallProject
    smallProject.tree.LinkFree ∧
      smallProject.resolveExisting insideProject.baseDirectory = .ok project.base ∧
      outcome.result = .ok { written := 2 } ∧
      smallProject.pathExists (project.pathOf (Path.ofString "out/src")) = false ∧
      smallProject.pathExists (project.pathOf (Path.ofString "out/src/main.c")) = false ∧
      outcome.session.inputs.map Input.path =
        [Path.ofString "src/main.c", Path.ofString "out/src/main.c"] := by
  intro project outcome
  exact ⟨linkFree_of_entries (by decide), eq_ok_of_toOption (by decide +kernel),
    eq_ok_of_toOption (by decide +kernel), by decide +kernel, by decide +kernel,
    by decide +kernel⟩

end Export

end Snapshot
