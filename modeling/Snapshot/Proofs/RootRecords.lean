import Mathlib.Data.List.Forall2
import Snapshot.Proofs.Coverage

/-!
# What the export of a root records

A root that is missing is noted, one whose name is left out is passed over, and what a walk reaches
from any other root is exported, each file of it once. Roots may overlap: each has a record of its
own, and the record of an export consists of these, in the order of the roots.
-/

namespace Snapshot

open ExportM FileTree

namespace Project

/-- An entry of the project that the export of a root gets to. -/
def Exports (project : Project) (tree : FileTree) (root : Path) (place : Location)
    (entry : Entry) : Prop :=
  root.fileName?.any project.config.isIgnored = false ∧
    ∃ below, place = root.names ++ below ∧ project.Reaches tree root below entry

/-- A file that the export of a root visits, with what is left of it for the version. A root that is
a sink is read as an empty file. -/
def ExportsFile (project : Project) (tree : FileTree) (root : Path) (place : Location)
    (out : List UInt8) : Prop :=
  ∃ content, (project.Exports tree root place (.file content) ∨
      project.Exports tree root place .sink ∧ place = root.names ∧ content = []) ∧
    filterBytes project.config.version content = .ok out

variable {project : Project} {tree : FileTree} {root : Path} {place below : Location}
  {entry : Entry} {out : List UInt8}

theorem Exports.get? (h : project.Exports tree root place entry) :
    tree.get? (project.base ++ place) = some entry := by
  obtain ⟨-, below, rfl, hreaches⟩ := h
  exact hreaches.found

/-- Below a root that is no directory nothing is exported. -/
theorem Exports.eq_names (h : project.Exports tree root place entry)
    (hroot : tree.get? (project.base ++ root.names) ≠ some .directory) : place = root.names := by
  obtain ⟨-, below, rfl, hreaches⟩ := h
  cases below with
  | nil => exact List.append_nil _
  | cons name below =>
      have hfound := hreaches.found
      rw [← List.append_assoc] at hfound
      exact absurd (get?_of_get?_append hfound) hroot

theorem exports_names_iff (hbase : project.base.IsPlain) (hroot : root.GoesDown) :
    project.Exports tree root root.names entry ↔
      root.fileName?.any project.config.isIgnored = false ∧
        tree.Finds (project.pathOf root) entry := by
  rw [← reaches_nil_iff hbase hroot]
  refine and_congr_right fun _ => ⟨?_, fun h => ⟨[], (List.append_nil _).symm, h⟩⟩
  intro h
  obtain ⟨below, heq, hreaches⟩ := h
  obtain rfl : below = [] := by simpa using heq
  exact hreaches

/-- A directory that is exported has no sink for its root. -/
theorem exportsFile_iff_of_directory
    (hroot : tree.get? (project.base ++ root.names) = some .directory) :
    project.ExportsFile tree root place out ↔
      root.fileName?.any project.config.isIgnored = false ∧
        ∃ below, place = root.names ++ below ∧ project.VisitsFile tree root below out := by
  constructor
  · rintro ⟨content, ⟨hkept, below, hplace, hreaches⟩ | ⟨hsink, rfl, -⟩, hout⟩
    · exact ⟨hkept, below, hplace, content, hreaches, hout⟩
    · have hget := hsink.get?
      rw [hroot] at hget
      cases hget
  · intro h
    obtain ⟨hkept, below, hplace, content, hreaches, hout⟩ := h
    exact ⟨content, .inl ⟨hkept, below, hplace, hreaches⟩, hout⟩

end Project

namespace Ledger

/-- Some ledgers, one after the other. -/
def joined (ledgers : List Ledger) : Ledger where
  visited := ledgers.flatMap visited
  directories := ledgers.flatMap directories
  missing := ledgers.flatMap missing

theorem joined_append_singleton (ledgers : List Ledger) (ledger : Ledger) :
    joined (ledgers ++ [ledger]) = joined ledgers ++ ledger := by
  change Ledger.mk _ _ _ = Ledger.mk _ _ _
  simp [joined]

end Ledger

namespace Export

/-- A ledger of exactly what exporting a root amounts to. -/
structure Records (job : Export) (fs : FileSystem) (root : Path) (ledger : Ledger) : Prop where
  nodup : ledger.visited.Nodup
  visited : ∀ place out, (place, out) ∈ ledger.visited ↔ job.ExportsFile fs.tree root place out
  directories : ∀ place, place ∈ ledger.directories ↔ job.Exports fs.tree root place .directory
  filtered : ∀ place content, job.Exports fs.tree root place (.file content) →
    ∃ out, filterBytes job.config.version content = .ok out
  missing : ledger.missing = [root].filter fun root => !fs.pathExists (job.pathOf root)

variable {job : Export} {fs : FileSystem} {root : Path} {start : Location} {ledger : Ledger}
  {session : Session} {out : List UInt8}

/-- Where nothing is exported, the record is about the root alone. -/
theorem Records.of_not_exports
    (hnone : ∀ place entry, ¬job.Exports fs.tree root place entry) :
    job.Records fs root
      { missing := [root].filter fun root => !fs.pathExists (job.pathOf root) } where
  nodup := List.nodup_nil
  visited place out := by
    simp only [List.not_mem_nil, false_iff]
    rintro ⟨content, hfile | ⟨hsink, -⟩, -⟩
    · exact hnone _ _ hfile
    · exact hnone _ _ hsink
  directories place := by
    simp only [List.not_mem_nil, false_iff]
    exact hnone _ _
  filtered place content hfile := absurd hfile (hnone _ _)
  missing := rfl

theorem Records.of_covers (hkept : root.fileName?.any job.config.isIgnored = false)
    (hexists : fs.pathExists (job.pathOf root) = true)
    (hroot : fs.tree.get? (job.base ++ root.names) = some .directory)
    (h : job.Covers fs.tree root (fun _ => True) ledger) : job.Records fs root ledger where
  nodup := h.nodup
  visited place out := by
    rw [h.visited, Project.exportsFile_iff_of_directory hroot]
    simp [hkept]
  directories place := by
    rw [h.directories]
    simp [Project.Exports, hkept]
  filtered := by
    intro place content hcontent
    obtain ⟨-, below, -, hreaches⟩ := hcontent
    exact h.filtered below content trivial hreaches
  missing := by simp [h.missing, hexists]

theorem Records.of_yields (hbase : job.base.IsPlain) (hgoesDown : root.GoesDown)
    (hkept : root.fileName?.any job.config.isIgnored = false)
    (hexists : fs.pathExists (job.pathOf root) = true) {entry : Entry}
    (hfinds : fs.tree.Finds (job.pathOf root) entry)
    (hyields : job.Yields fs.tree root.names out) :
    job.Records fs root { visited := [(root.names, out)] } := by
  obtain ⟨-, -, hnames⟩ := Project.pathOf_goesDown hbase hgoesDown
  have hget := hfinds.get?
  rw [hnames] at hget
  have hexports : job.Exports fs.tree root root.names entry :=
    (Project.exports_names_iff hbase hgoesDown).2 ⟨hkept, hfinds⟩
  -- what was read stands at the root, as a file or as a sink
  have hvisits : job.ExportsFile fs.tree root root.names out := by
    obtain ⟨content, hfile | ⟨hsink, rfl⟩, hout⟩ := hyields
    · obtain rfl : entry = .file content := Option.some.inj (hget.symm.trans hfile)
      exact ⟨content, .inl hexports, hout⟩
    · obtain rfl : entry = .sink := Option.some.inj (hget.symm.trans hsink)
      exact ⟨[], .inr ⟨hexports, rfl, rfl⟩, hout⟩
  constructor
  · exact List.nodup_singleton _
  · intro place left
    rw [List.mem_singleton]
    constructor
    · intro heq
      obtain ⟨rfl, rfl⟩ := Prod.mk.inj heq
      exact hvisits
    · intro h
      obtain ⟨content, hfound, hleft⟩ := h
      have hplace : place = root.names :=
        hfound.elim (fun hfile => hfile.eq_names hyields.not_directory) fun hsink => hsink.2.1
      subst hplace
      have hsame : job.Yields fs.tree root.names left :=
        ⟨content, hfound.imp (fun hfile => hfile.get?) fun hsink => ⟨hsink.1.get?, hsink.2.2⟩,
          hleft⟩
      rw [hsame.unique hyields]
  · intro place
    simp only [List.not_mem_nil, false_iff]
    intro hdirectory
    obtain rfl := hdirectory.eq_names hyields.not_directory
    exact hyields.not_directory hdirectory.get?
  · intro place content hfile
    obtain rfl := hfile.eq_names hyields.not_directory
    obtain ⟨read, hread, hout⟩ := hyields
    rcases hread with hread | ⟨hread, -⟩
    · have hsame := hfile.get?.symm.trans hread
      cases hsame
      exact ⟨out, hout⟩
    · have hsame := hfile.get?.symm.trans hread
      cases hsame
  · simp [hexists]

section Roots

variable (hlinks : fs.tree.LinkFree) (hbase : job.base.IsPlain) (htarget : job.target.IsPlain)

include hlinks hbase in
/-- A root is there during the export if it was there before it. -/
theorem Accounted.pathExists_eq (h : job.Accounted fs.tree start ledger session)
    (hroot : root.GoesDown) (hapart : job.target.Apart (job.base ++ root.names)) :
    session.fileSystem.pathExists (job.pathOf root) = fs.pathExists (job.pathOf root) := by
  obtain ⟨habsolute, hup, -⟩ := Project.pathOf_goesDown hbase hroot
  rw [Bool.eq_iff_iff, FileSystem.pathExists_iff h.linkFree habsolute hup,
    FileSystem.pathExists_iff hlinks habsolute hup]
  exact exists_congr fun entry => h.finds_iff hbase hroot hapart

/-- A root whose export a file stops. -/
def RootStops (job : Export) (fs : FileSystem) (start : Location) (root : Path) (ledger : Ledger)
    (report : Report) (session : Session) : Prop :=
  root.fileName?.any job.config.isIgnored = false ∧
    ∃ below more, job.StopsAt fs.tree root below report more.visited ∧
      job.Accounted fs.tree start (ledger ++ more) session

include hlinks hbase htarget in
theorem exportRoot_records (hroot : root.IsDescent)
    (hapart : job.target.Apart (job.base ++ root.names)) :
    Ensures (job.Accounted fs.tree start ledger) (job.exportRoot root)
      (fun _ session => ∃ more, job.Records fs root more ∧
        job.Accounted fs.tree start (ledger ++ more) session)
      fun report session => report.TellsOfGuards →
        job.RootStops fs start root ledger report session := by
  obtain ⟨hgoesDown, hne⟩ := hroot.goesDown
  obtain ⟨habsolute, hup, hnames⟩ := Project.pathOf_goesDown hbase hgoesDown
  unfold exportRoot
  refine Ensures.get_bind fun state hstate => ?_
  have hexists := hstate.pathExists_eq hlinks hbase hgoesDown hapart
  dsimp only
  split
  · next hmissing =>
      -- noted as missing
      have hmissing : fs.pathExists (job.pathOf root) = false := by simpa [hexists] using hmissing
      have hnone (place : Location) (entry : Entry) : ¬job.Exports fs.tree root place entry := by
        intro h
        obtain ⟨-, below, -, hreaches⟩ := h
        have hfound := hreaches.exists_finds hbase hgoesDown
        rw [← FileSystem.pathExists_iff hlinks habsolute hup, hmissing] at hfound
        cases hfound
      refine say_accounted.bind fun _ => (note_accounted root).mono_after ?_
      intro _ session hsession
      refine ⟨_, .of_not_exports hnone, ?_⟩
      simpa [hmissing] using hsession
  · next hfound =>
      have hfound : fs.pathExists (job.pathOf root) = true := by simpa [hexists] using hfound
      obtain ⟨entry, hfinds⟩ := (FileSystem.pathExists_iff hlinks habsolute hup).1 hfound
      split
      · next hignored =>
          -- passed over
          refine .pure fun session hsession => ⟨_, .of_not_exports ?_, ?_⟩
          · intro place entry hentry
            obtain ⟨hkept, -⟩ := hentry
            simp [hignored] at hkept
          · simpa [hfound, Ledger.append_empty] using hsession
      · next hkept =>
          rw [Bool.not_eq_true] at hkept
          have hdirectory : state.fileSystem.isDirectory (job.pathOf root) = true ↔
              fs.tree.Finds (job.pathOf root) .directory := by
            rw [FileSystem.isDirectory_iff hstate.linkFree habsolute hup]
            exact hstate.finds_iff hbase hgoesDown hapart
          split
          · next hyes =>
              have hroot := hdirectory.1 hyes
              have hget := hroot.get?
              rw [hnames] at hget
              have hreaches := (Project.reaches_nil_iff hbase hgoesDown).2 hroot
              refine (exportDirectory_covers hbase htarget _ hgoesDown hne hapart hreaches).imp
                (fun _ h => h) ?_ fun report session h htells => ⟨hkept, h htells⟩
              intro _ session hsession
              obtain ⟨more, hmore, hsession⟩ := hsession
              exact ⟨more, .of_covers hkept hfound hget hmore, hsession⟩
          · refine (exportFile_accounted hbase htarget hgoesDown hne hapart).imp
              (fun _ h => h) ?_ ?_
            · intro _ session hsession
              obtain ⟨out, hyields, hsession⟩ := hsession
              exact ⟨_, .of_yields hbase hgoesDown hkept hfound hfinds hyields, hsession⟩
            · intro report session h htells
              obtain ⟨hsession, hblames⟩ := h htells
              obtain ⟨content, -, -, hcontent, -⟩ := id hblames
              have hget := hfinds.get?
              rw [hnames, hcontent] at hget
              obtain rfl := Option.some.inj hget
              have hreaches := (Project.reaches_nil_iff hbase hgoesDown).2 hfinds
              exact ⟨hkept, [], {}, .of_file hreaches hblames, by rwa [Ledger.append_empty]⟩

/-- A session of an export into a fresh destination in which some roots were exported. -/
def Recorded (job : Export) (fs : FileSystem) (start : Location) (roots : List Path)
    (session : Session) : Prop :=
  ∃ ledgers, List.Forall₂ (job.Records fs) roots ledgers ∧
    job.Accounted fs.tree start (.joined ledgers) session

include hlinks hbase htarget in
theorem exportRoots_records (hroots : ∀ root ∈ job.config.roots,
      root.IsDescent ∧ job.target.Apart (job.base ++ root.names)) :
    Ensures (job.Recorded fs start []) (job.config.roots.forM job.exportRoot)
      (fun _ => job.Recorded fs start job.config.roots)
      fun report session => report.TellsOfGuards →
        ∃ front root later ledgers, job.config.roots = front ++ root :: later ∧
          List.Forall₂ (job.Records fs) front ledgers ∧
            job.RootStops fs start root (.joined ledgers) report session := by
  refine Ensures.forM_prefix (job.Recorded fs start) fun front root later heq => ?_
  apply Ensures.of_start
  intro session hsession
  obtain ⟨ledgers, hledgers, hsession⟩ := hsession
  obtain ⟨hdescent, hapart⟩ := hroots root (by simp [heq])
  have hstep : Ensures (job.Accounted fs.tree start (.joined ledgers)) (job.exportRoot root) _ _ :=
    exportRoot_records hlinks hbase htarget hdescent hapart
  refine (hstep.from_session hsession).imp (fun _ h => h) ?_ fun report after h htells =>
    ⟨front, root, later, ledgers, heq, hledgers, h htells⟩
  intro _ after hafter
  obtain ⟨more, hmore, hafter⟩ := hafter
  refine ⟨ledgers ++ [more], List.rel_append hledgers (.cons hmore .nil), ?_⟩
  rw [Ledger.joined_append_singleton]
  exact hafter

end Roots

end Export

end Snapshot
