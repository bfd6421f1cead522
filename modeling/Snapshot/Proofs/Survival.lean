import Snapshot.Proofs.Omission

/-!
# Which files of a project survive an export

What an export removes from an existing destination is gone, unless a walk puts something at the
same place later. Together with what an export leaves alone, this says of each file of the project
whether an export that succeeds leaves it as it was.
-/

namespace Snapshot

open ExportM FileTree Export

namespace Export

variable {fs : FileSystem} {config : Config} {confirm : Path → Bool} {place : Location}
  {content : List UInt8} {summary : Summary}

/-- Whether an export that succeeds has cleared a place or written the record of the version there.
A path that is too long to be followed is not cleared, and neither is a file whose name has a slash
after it. -/
def Overwrites (job : Export) (place : Location) : Prop :=
  place = job.placeOf versionFile ∨ Hop.up ∉ job.config.destination.hops ∧
    ∃ root ∈ job.config.roots, (job.config.destination.join root).size ≤ Path.maxSize ∧
      ∃ below, job.target ++ root.names ++ below = place ∧ (below ≠ [] ∨ root.EndsInName)

/-- Whether an export has something to put at a place: the record of the version, or what is left
of a file that a walk leads to. -/
def Puts (job : Export) (place : Location) (content : List UInt8) : Prop :=
  place = job.placeOf versionFile ∧ content = job.versionBytes ∨
    ∃ below, job.target ++ below = place ∧ job.Takes below

theorem Overwrites.not_spares {job : Export} (h : job.Overwrites place) : ¬job.Spares place := by
  intro hspares
  rcases h with hrecord | ⟨-, root, hmem, -, below, hbelow, -⟩
  · exact hspares.record hrecord
  · exact hspares.root root hmem ⟨below, hbelow⟩

/-- Where the version is recorded, its record stands in the end, or a sink. -/
def HasRecord (job : Export) (tree : FileTree) : Prop :=
  tree.get? (job.placeOf versionFile) = some (.file job.versionBytes) ∨
    tree.get? (job.placeOf versionFile) = some .sink

theorem perform_records (confirm : Path → Bool) (hlinks : fs.tree.LinkFree) :
    Ensures (At fs {}) (perform config confirm)
      (fun _ session => (resolved fs config).HasRecord session.fileSystem.tree)
      fun _ _ => True := by
  apply perform_ensures hlinks (fun _ _ _ => trivial)
  intro start hdescent
  have htarget : (resolved fs config).target.IsPlain := fs.isPlain_place _
  have hkeeps : (resolved fs config).Keeps (resolved fs config).Visits
      (Settled start fun _ => True) (fun _ => Settled start fun _ => True) :=
    keeps_settled htarget (fun _ _ _ _ _ _ => trivial) fun _ _ _ _ _ _ _ _ _ => trivial
  have hroots := hkeeps.exportRoots (visits_root _ hdescent)
  have hversion : Ensures (Settled start fun _ => True) (resolved fs config).writeVersion
      (fun _ session => (resolved fs config).HasRecord session.fileSystem.tree)
      fun _ _ => True := by
    refine ensures_of_at fun session hsession => ?_
    have hwrite : Ensures (At session.fileSystem session.summary)
        (resolved fs config).writeVersion _ _ :=
      writeVersion_ensures hsession.linkFree.straight hsession.current htarget
    apply hwrite.anyhow.mono_after
    intro _ after hafter
    have hrecord := hafter.2.1 ((resolved fs config).placeOf versionFile)
    split at hrecord
    · exact .inl hrecord
    · next hsink =>
        right
        rw [hrecord]
        by_contra hnot
        exact hsink ⟨rfl, hnot⟩
  refine (exportRoots_ensures hroots.anyhow hversion fun _ _ h => h).imp ?_ (fun _ _ h => h.1)
    fun _ _ _ => trivial
  intro session hbegins
  exact ⟨hbegins.ready.linkFree hlinks, hbegins.current, trivial⟩

/-- A file that is left where an export overwrites has been put there. -/
theorem puts_of_survives (hlinks : fs.tree.LinkFree)
    (hoverwrites : (resolved fs config).Overwrites place)
    (hok : (runExport config confirm fs).result = .ok summary)
    (hsurvives : (runExport config confirm fs).session.fileSystem.tree.get? place =
      some (.file content)) :
    (resolved fs config).Puts place content := by
  by_cases hrecord : place = (resolved fs config).placeOf versionFile
  · subst hrecord
    have hrecords : Ensures (At fs {}) (perform config confirm) _ _ :=
      perform_records confirm hlinks
    have hrun := runExport_ensures hrecords
    rw [hok] at hrun
    rw [HasRecord, hsurvives] at hrun
    simp only [Option.some.injEq, Entry.file.injEq, reduceCtorEq, or_false] at hrun
    exact .inl ⟨rfl, hrun⟩
  · obtain ⟨hup, root, hroot, hsize, below, rfl, hends⟩ := hoverwrites.resolve_left hrecord
    refine .inr ⟨root.names ++ below, (List.append_assoc _ _ _).symm, ?_⟩
    by_contra hnot
    have hlacks (after : FileTree) (hready : (resolved fs config).Ready fs after) :
        (resolved fs config).Lacks (root.names ++ below) content after := by
      rw [Lacks, ← List.append_assoc]
      exact hready.cleared hup root hroot hsize below content hends
    have hnames : root.names ++ below ≠ versionFile.names := by
      intro heq
      apply hrecord
      rw [placeOf, ← heq, List.append_assoc]
    have hrun := runExport_ensures (perform_lacks confirm hlinks hlacks hnames hnot)
    rw [hok] at hrun
    rw [List.append_assoc] at hsurvives
    exact hrun hsurvives

/-- Whatever comes of an export, a file of the project stays as it is, unless the destination is
accepted although the place of the file is at or below that of a root in it, or is that of the
record of the version. With roots of a single name the place is not, so the file stays. If the
export succeeds and has overwritten the place, the file is there only because the export has put it
there. -/
theorem source_survives (hlinks : fs.tree.LinkFree)
    (hsource : IsSource fs config place content) :
    (((resolved fs config).Accepts fs → (resolved fs config).Spares place) →
      (runExport config confirm fs).session.fileSystem.tree.get? place = some (.file content)) ∧
    (∀ summary, (runExport config confirm fs).result = .ok summary →
      (resolved fs config).Overwrites place →
      (runExport config confirm fs).session.fileSystem.tree.get? place = some (.file content) →
      (resolved fs config).Puts place content) ∧
    ((∀ root ∈ config.roots, root.IsDescent ∧ ∃ name, root.names = [name]) →
      (∀ root ∈ config.roots,
        (fs.place config.baseDirectory ++ root.names).size ≤ Path.maxSize) →
      (runExport config confirm fs).session.fileSystem.tree.get? place = some (.file content)) := by
  refine ⟨fun hspares => ?_, fun summary hok hoverwrites hsurvives => ?_, fun hsingle hsize => ?_⟩
  · exact runExport_keeps hlinks hsource.file hspares
  · exact puts_of_survives hlinks hoverwrites hok hsurvives
  · refine runExport_keeps hlinks hsource.file fun haccepts => ?_
    exact spares_of_single_names hlinks hsource hsingle hsize haccepts

/-- A destination beside the project leaves its file alone. -/
theorem source_survives_besideProject :
    let place : Location := [{ text := "p" }, { text := "src" }, { text := "main.c" }]
    smallProject.tree.LinkFree ∧ IsSource smallProject besideProject place [0x78, 0x0A] ∧
      (resolved smallProject besideProject).Spares place ∧
      (runExport besideProject (fun _ => true) smallProject).session.fileSystem.tree.get? place =
        some (.file [0x78, 0x0A]) := by
  intro place
  have hlinks : smallProject.tree.LinkFree := linkFree_of_entries (by decide)
  have hsource : IsSource smallProject besideProject place [0x78, 0x0A] :=
    ⟨by decide +kernel, by decide +kernel⟩
  have hspares : (resolved smallProject besideProject).Spares place :=
    ⟨by decide +kernel, by decide +kernel⟩
  exact ⟨hlinks, hsource, hspares, (source_survives hlinks hsource).1 fun _ => hspares⟩

/-- The settings with which the place of one root in the destination is another root. -/
def overProject : Config where
  baseDirectory := Path.ofString "p"
  destination := Path.ofString "."
  roots := [Path.ofString "p/src", Path.ofString "src"]

/-- Where the place of a root in the destination is in the project, the check passes, and the file
of another root is removed. -/
theorem source_removed_overProject :
    let place : Location := [{ text := "p" }, { text := "src" }, { text := "main.c" }]
    let outcome := runExport overProject (fun _ => true) smallProject
    smallProject.tree.LinkFree ∧ (∀ root ∈ overProject.roots, root.IsDescent) ∧
      IsSource smallProject overProject place [0x78, 0x0A] ∧
      (resolved smallProject overProject).Overwrites place ∧
      outcome.result = .ok { missingRoots := [Path.ofString "p/src", Path.ofString "src"] } ∧
      outcome.session.fileSystem.tree.get? place = none := by
  intro place outcome
  have hoverwrites : (resolved smallProject overProject).Overwrites place := by
    refine .inr ⟨by decide +kernel, Path.ofString "p/src", by decide, by decide +kernel, ?_⟩
    exact ⟨[{ text := "main.c" }], by decide +kernel, .inl (List.cons_ne_nil _ _)⟩
  exact ⟨linkFree_of_entries (by decide), by decide +kernel, ⟨by decide +kernel, by decide +kernel⟩,
    hoverwrites, eq_ok_of_toOption (by decide +kernel), by decide +kernel⟩

end Export

end Snapshot
