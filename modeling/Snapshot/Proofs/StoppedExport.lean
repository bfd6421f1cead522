import Snapshot.Proofs.FreshExport

/-!
# Exports that a file stops

The first file whose guards are not balanced stops an export. What has been written to a fresh
destination by then is what is left of the files that are visited before it: those under the roots
before its root, and those that precede it under its own. Which files these are can be told from the
project alone. As with an export that succeeds, only files count that the system can reach.
-/

namespace Snapshot

open ExportM FileTree

namespace Export

variable {job : Export} {fs : FileSystem} {start place below : Location} {ledgers : List Ledger}
  {front : List Path} {root : Path} {report : Report} {session : Session} {content : List UInt8}

/-- A file, by its place and its bytes, that is visited before the one that some names lead to from
a root: `front` are the roots before this one. A root that is a sink is read as an empty file. -/
def VisitsBefore (job : Export) (tree : FileTree) (front : List Path) (root : Path)
    (below place : Location) (content : List UInt8) : Prop :=
  (∃ earlier ∈ front, job.Exports tree earlier place (.file content) ∨
      job.Exports tree earlier place .sink ∧ place = earlier.names ∧ content = []) ∨
    ∃ other : Location, other.Precedes below ∧ place = root.names ++ other ∧
      job.Reaches tree root other (.file content)

/-- What an export leaves in a fresh destination that was stopped by the file that some names lead
to from a root. -/
structure StoppedAt (job : Export) (fs : FileSystem) (after : FileTree) (report : Report)
    (front : List Path) (root : Path) (below : Location) : Prop where
  kept : root.fileName?.any job.config.isIgnored = false
  blames : ∃ content error line, job.Reaches fs.tree root below (.file content) ∧
    filterBytes job.config.version content = .error error ∧
      report = .ofGuards (root.extend below) line error
  /-- The guards of every file before it are balanced. -/
  filtered : ∀ place content, job.VisitsBefore fs.tree front root below place content →
    ∃ out, filterBytes job.config.version content = .ok out
  /-- No other file is in the destination, and so no record of the version either. -/
  files : ∀ place out, after.get? (job.target ++ place) = some (.file out) ↔
    out ≠ [] ∧ ∃ content, job.VisitsBefore fs.tree front root below place content ∧
      filterBytes job.config.version content = .ok out
  nothing_else : ∀ place entry, after.get? (job.target ++ place) = some entry →
    entry = .directory ∨ ∃ out, entry = .file out

/-- Nothing is written for the file that stops an export: no file that is visited before it has its
place. -/
theorem StoppedAt.unwritten {after : FileTree}
    (h : job.StoppedAt fs after report front root below) (out : List UInt8) :
    after.get? (job.target ++ (root.names ++ below)) ≠ some (.file out) := by
  intro hfile
  obtain ⟨-, content, hbefore, hout⟩ := (h.files _ _).1 hfile
  obtain ⟨blamed, error, -, hreaches, herror, -⟩ := h.blames
  rcases hbefore with ⟨earlier, -, hexports | ⟨hsink, -⟩⟩ | ⟨other, hother, hplace, -⟩
  · -- a root above it has been exported whole, and then the file could be filtered
    have hsame := hexports.get?.symm.trans hreaches.found
    cases hsame
    rw [hout] at herror
    cases herror
  · have hsame := hsink.get?.symm.trans hreaches.found
    cases hsame
  · rw [List.append_cancel_left hplace] at hother
    exact Location.not_precedes_self _ hother

/-- The files that a session has on record are those that are visited before. -/
theorem RootStops.stoppedAt (hrecords : List.Forall₂ (job.Records fs) front ledgers)
    (h : job.RootStops fs start root (.joined ledgers) report session) :
    ∃ below, job.StoppedAt fs session.fileSystem.tree report front root below := by
  obtain ⟨hkept, below, more, hstops, hsession⟩ := h
  refine ⟨below, hkept, hstops.blames, ?_, ?_, ?_⟩
  · rintro place content
      (⟨earlier, hearlier, hexports | ⟨-, -, rfl⟩⟩ | ⟨other, hother, -, hreaches⟩)
    · exact filtered_joined hrecords earlier hearlier place content hexports
    · exact ⟨[], rfl⟩
    · exact hstops.filtered other content hother hreaches
  · intro place out
    rw [hsession.contents, Ledger.leaves_file_iff, Ledger.visited_append, List.mem_append,
      mem_visited_joined hrecords, hstops.visited]
    refine and_congr_right fun _ => ?_
    constructor
    · rintro (⟨earlier, hearlier, content, hfound, hout⟩ |
        ⟨other, hplace, hother, content, hreaches, hout⟩)
      · exact ⟨content, .inl ⟨earlier, hearlier, hfound⟩, hout⟩
      · exact ⟨content, .inr ⟨other, hother, hplace, hreaches⟩, hout⟩
    · rintro ⟨content, ⟨earlier, hearlier, hfound⟩ | ⟨other, hother, hplace, hreaches⟩, hout⟩
      · exact .inl ⟨earlier, hearlier, content, hfound, hout⟩
      · exact .inr ⟨other, hplace, hother, content, hreaches, hout⟩
  · intro place entry hentry
    exact Ledger.directory_or_file_of_leaves ((hsession.contents place entry).1 hentry)

/-! ## Whole exports -/

/-- The end of an export that, if guards are its reason, one of the files has stopped. -/
def StopsByFile (job : Export) (fs : FileSystem) (report : Report) (session : Session) : Prop :=
  report.TellsOfGuards → ∃ front root later below, job.config.roots = front ++ root :: later ∧
    job.StoppedAt fs session.fileSystem.tree report front root below

variable {config : Config} {confirm : Path → Bool}

theorem perform_stops (confirm : Path → Bool) (hlinks : fs.tree.LinkFree)
    (hmissing : fs.pathExists config.destination = false)
    (hup : Hop.up ∉ config.destination.hops)
    (hapart : ∀ root ∈ config.roots,
      (fs.place config.destination).Apart (fs.place config.baseDirectory ++ root.names)) :
    Ensures (At fs {}) (perform config confirm) (fun _ _ => True)
      ((resolved fs config).StopsByFile fs) := by
  apply perform_begins hlinks fun _ _ hguards _ htells => absurd htells hguards
  intro start hdescent
  have hbase : (resolved fs config).base.IsPlain := fs.isPlain_place _
  have htarget : (resolved fs config).target.IsPlain := fs.isPlain_place _
  have hrecords : Ensures ((resolved fs config).Recorded fs start []) _ _ _ :=
    exportRoots_records hlinks hbase htarget fun root hmem =>
      ⟨hdescent root hmem, hapart root hmem⟩
  have hroots : Ensures ((resolved fs config).Begins fs start)
      ((resolved fs config).config.roots.forM (resolved fs config).exportRoot) (fun _ _ => True)
      ((resolved fs config).StopsByFile fs) := by
    refine hrecords.imp ?_ (fun _ _ _ => trivial) ?_
    · intro session hbegins
      exact ⟨[], .nil, hbegins.accounted hlinks hmissing hup⟩
    · intro report session hstopped htells
      obtain ⟨front, root, later, ledgers, heq, hfront, hstops⟩ := hstopped htells
      obtain ⟨below, hstoppedAt⟩ := hstops.stoppedAt hfront
      exact ⟨front, root, later, below, heq, hstoppedAt⟩
  have hversion : Ensures (fun _ => True) (resolved fs config).writeVersion (fun _ _ => True)
      ((resolved fs config).StopsByFile fs) :=
    Ensures.imp ignoresGuards_writeVersion (fun _ h => h) (fun _ _ h => h)
      fun _ _ hguards htells => absurd htells hguards
  exact (exportRoots_ensures hroots hversion fun _ _ h => h).mono_after fun _ _ _ => trivial

/-- If an export into a fresh destination that is apart from the roots fails because of the guards
of a file, then it is the first file whose guards are not balanced, in the order of visits, and the
destination holds what is left of the files before it and no other file. -/
theorem stopped_at_first_unbalanced (hlinks : fs.tree.LinkFree)
    (hmissing : fs.pathExists config.destination = false)
    (hup : Hop.up ∉ config.destination.hops)
    (hapart : ∀ root ∈ config.roots,
      (fs.place config.destination).Apart (fs.place config.baseDirectory ++ root.names))
    (herror : (runExport config confirm fs).result = .error report)
    (htells : report.TellsOfGuards) :
    ∃ front root later below, config.roots = front ++ root :: later ∧
      (resolved fs config).StoppedAt fs (runExport config confirm fs).session.fileSystem.tree
        report front root below := by
  have hrun := runExport_ensures (perform_stops confirm hlinks hmissing hup hapart)
  rw [herror] at hrun
  exact hrun htells

/-- A project with two roots; in the second one a file closes a guard that was not opened. -/
def unbalancedProject : FileSystem :=
  .ofTree
    { entries :=
        [(.ofString "p/lib/a.c", .file [0x78, 0x0A]), (.ofString "p/lib", .directory),
          (.ofString "p/src/b.c", .file (Utf8.encode "#endif VERSION\n".toList)),
          (.ofString "p/src", .directory), (.ofString "p", .directory)]
      wellFormed := ⟨by decide +kernel, by decide +kernel, by decide +kernel, by decide +kernel⟩ }
    []

def libBeforeSrc : Config where
  baseDirectory := Path.ofString "p"
  destination := Path.ofString "out"
  roots := [Path.ofString "lib", Path.ofString "src"]

/-- The file of the first root is written, and the one of the second root stops the export. -/
theorem stopped_at_first_unbalanced_unbalancedProject :
    let outcome := runExport libBeforeSrc (fun _ => false) unbalancedProject
    let report := Report.ofGuards (Path.ofString "src/b.c") 1 (.unbalancedEndif 1)
    unbalancedProject.tree.LinkFree ∧
      unbalancedProject.pathExists libBeforeSrc.destination = false ∧
      Hop.up ∉ libBeforeSrc.destination.hops ∧
      (∀ root ∈ libBeforeSrc.roots, (unbalancedProject.place libBeforeSrc.destination).Apart
        (unbalancedProject.place libBeforeSrc.baseDirectory ++ root.names)) ∧
      outcome.result = .error report ∧ report.TellsOfGuards ∧
      ∃ front root later below, libBeforeSrc.roots = front ++ root :: later ∧
        (resolved unbalancedProject libBeforeSrc).StoppedAt unbalancedProject
          outcome.session.fileSystem.tree report front root below := by
  intro outcome report
  have hlinks : unbalancedProject.tree.LinkFree := linkFree_of_entries (by decide)
  have hmissing : unbalancedProject.pathExists libBeforeSrc.destination = false := by
    decide +kernel
  have hup : Hop.up ∉ libBeforeSrc.destination.hops := by decide +kernel
  have hapart : ∀ root ∈ libBeforeSrc.roots,
      (unbalancedProject.place libBeforeSrc.destination).Apart
        (unbalancedProject.place libBeforeSrc.baseDirectory ++ root.names) := by decide +kernel
  have herror : outcome.result = .error report := by decide +kernel
  have htells : report.TellsOfGuards := by simp [report, Report.ofGuards]
  exact ⟨hlinks, hmissing, hup, hapart, herror, htells,
    stopped_at_first_unbalanced hlinks hmissing hup hapart herror htells⟩

/-- The settings with which the path of the file of the first root is too long to follow. -/
def slashedBeforeLib : Config where
  baseDirectory := Path.ofString "p"
  destination := Path.ofString "out"
  roots := [slashedRoot, Path.ofString "lib"]

/-- A project whose two files close guards that were not opened. -/
def twiceUnbalanced : FileSystem :=
  .ofTree
    { entries :=
        [(.ofString "p/lib/a.c", .file (Utf8.encode "#endif VERSION\n".toList)),
          (.ofString "p/lib", .directory),
          (.ofString "p/src/main.c", .file (Utf8.encode "#endif VERSION\n".toList)),
          (.ofString "p/src", .directory), (.ofString "p", .directory)]
      wellFormed := ⟨by decide +kernel, by decide +kernel, by decide +kernel, by decide +kernel⟩ }
    []

/-- A file whose path is too long to follow is overlooked, although its guards are not balanced, and
the export goes on to a later one. -/
theorem unbalanced_overlooked_slashedBeforeLib :
    let place : Location := [{ text := "src" }, { text := "main.c" }]
    let outcome := runExport slashedBeforeLib (fun _ => false) twiceUnbalanced
    let content := Utf8.encode "#endif VERSION\n".toList
    twiceUnbalanced.tree.LinkFree ∧
      twiceUnbalanced.pathExists slashedBeforeLib.destination = false ∧
      Hop.up ∉ slashedBeforeLib.destination.hops ∧
      (∀ root ∈ slashedBeforeLib.roots, (twiceUnbalanced.place slashedBeforeLib.destination).Apart
        (twiceUnbalanced.place slashedBeforeLib.baseDirectory ++ root.names)) ∧
      twiceUnbalanced.pathExists ((resolved twiceUnbalanced slashedBeforeLib).pathOf slashedRoot) =
        true ∧
      slashedRoot.fileName?.any slashedBeforeLib.isIgnored = false ∧
      slashedBeforeLib.isIgnored { text := "main.c" } = false ∧
      twiceUnbalanced.tree.get? (twiceUnbalanced.place slashedBeforeLib.baseDirectory ++ place) =
        some (.file content) ∧
      filterBytes slashedBeforeLib.version content = .error (.unbalancedEndif 1) ∧
      outcome.result =
        .error (.ofGuards (Path.ofString "lib/a.c") 1 (.unbalancedEndif 1)) := by
  exact ⟨linkFree_of_entries (by decide), by decide +kernel, by decide +kernel, by decide +kernel,
    by decide +kernel, by decide +kernel, by decide +kernel, by decide +kernel, by decide +kernel,
    by decide +kernel⟩

end Export

end Snapshot
