import Snapshot.Proofs.RootRecords
import Snapshot.Proofs.Sources

/-!
# Exports into a fresh destination

What an export leaves in a destination that was not there before, if it succeeds: the record of the
version, what is left of the files that the walks from the roots visit, and the directories that
they go through. Nothing else is in it. The walks reach what the system can reach: an entry whose
path is longer than it allows is not listed, and a root whose path is too long counts as missing.
-/

namespace Snapshot

open ExportM FileTree

namespace Export

/-- What a successful export leaves in a fresh destination, and how it is counted. -/
structure Exported (job : Export) (fs : FileSystem) (after : FileTree) (summary : Summary) :
    Prop where
  record : after.get? (job.placeOf versionFile) = some (.file job.versionBytes)
  files : ∀ place, place ≠ versionFile.names → ∀ out,
    after.get? (job.target ++ place) = some (.file out) ↔
      out ≠ [] ∧ ∃ root ∈ job.config.roots, job.ExportsFile fs.tree root place out
  directories : ∀ place, after.get? (job.target ++ place) = some .directory ↔
    place = [] ∨ ∃ below, place <+: below ∧
      ((∃ root ∈ job.config.roots, job.Exports fs.tree root below .directory) ∨
        place ≠ below ∧ ∃ out, out ≠ [] ∧
          ∃ root ∈ job.config.roots, job.ExportsFile fs.tree root below out)
  nothing_else : ∀ place entry, after.get? (job.target ++ place) = some entry →
    entry = .directory ∨ ∃ out, entry = .file out
  /-- None of the files that were exported is malformed. -/
  filtered : ∀ root ∈ job.config.roots, ∀ place content,
    job.Exports fs.tree root place (.file content) →
      ∃ out, filterBytes job.config.version content = .ok out
  /-- Every root has its visits, each file once; a file of several roots counts for each of them. -/
  counts : ∃ visits : List (List (Location × List UInt8)),
    List.Forall₂ (fun root visits => visits.Nodup ∧ ∀ place out,
      (place, out) ∈ visits ↔ job.ExportsFile fs.tree root place out) job.config.roots visits ∧
    summary.written = (visits.flatten.filter fun visit => visit.2 ≠ []).length ∧
    summary.skipped = (visits.flatten.filter fun visit => visit.2 = []).length
  missing : summary.missingRoots =
    job.config.roots.filter fun root => !fs.pathExists (job.pathOf root)

variable {job : Export} {fs : FileSystem} {start : Location} {ledgers : List Ledger}
  {roots : List Path} {session : Session} {place : Location} {out : List UInt8} {root : Path}

/-! ## Joined records -/

section Joined

variable (hrecords : List.Forall₂ (job.Records fs) roots ledgers)

include hrecords

theorem mem_visited_joined :
    (place, out) ∈ (Ledger.joined ledgers).visited ↔
      ∃ root ∈ roots, job.ExportsFile fs.tree root place out := by
  induction hrecords with
  | nil => simp [Ledger.joined]
  | cons hrecord _ ih => simpa [Ledger.joined, hrecord.visited] using or_congr_right ih

theorem mem_directories_joined :
    place ∈ (Ledger.joined ledgers).directories ↔
      ∃ root ∈ roots, job.Exports fs.tree root place .directory := by
  induction hrecords with
  | nil => simp [Ledger.joined]
  | cons hrecord _ ih => simpa [Ledger.joined, hrecord.directories] using or_congr_right ih

theorem missing_joined :
    (Ledger.joined ledgers).missing =
      roots.filter fun root => !fs.pathExists (job.pathOf root) := by
  induction hrecords with
  | nil => rfl
  | @cons root ledger roots ledgers hrecord _ ih =>
      have hjoined : (Ledger.joined (ledger :: ledgers)).missing =
          ledger.missing ++ (Ledger.joined ledgers).missing := List.flatMap_cons
      rw [hjoined, hrecord.missing, ih, ← List.filter_append, List.singleton_append]

theorem filtered_joined :
    ∀ root ∈ roots, ∀ place content, job.Exports fs.tree root place (.file content) →
      ∃ out, filterBytes job.config.version content = .ok out := by
  induction hrecords with
  | nil => exact fun root hmem => absurd hmem List.not_mem_nil
  | cons hrecord _ ih =>
      intro root hmem
      rcases List.mem_cons.1 hmem with rfl | hmem
      · exact hrecord.filtered
      · exact ih root hmem

end Joined

/-! ## Beginning and end -/

theorem leaves_empty_iff {entry : Entry} :
    Leaves (Ledger.Puts {}) place entry ↔ place = [] ∧ entry = .directory := by
  constructor
  · intro h
    rcases Ledger.directory_or_file_of_leaves h with rfl | ⟨out, rfl⟩
    · simpa using Ledger.leaves_directory_iff.1 h
    · simpa using Ledger.leaves_file_iff.1 h
  · intro h
    obtain ⟨rfl, rfl⟩ := h
    exact Ledger.leaves_directory_iff.2 (.inl rfl)

/-- Nothing is in a fresh destination at first, and the rest of the tree is as it was. -/
theorem Begins.accounted {config : Config} (hlinks : fs.tree.LinkFree)
    (hmissing : fs.pathExists config.destination = false)
    (hup : Hop.up ∉ config.destination.hops)
    (h : (resolved fs config).Begins fs start session) :
    (resolved fs config).Accounted fs.tree start {} session := by
  have hfree : fs.tree.get? (fs.place config.destination) = none := h.ready.free hmissing hup
  have hadds {location : Location} {entry : Entry}
      (hentry : session.fileSystem.tree.get? location = some entry) :
      fs.tree.get? location = some entry ∨
        entry = .directory ∧ location <+: fs.place config.destination :=
    (h.ready.adds hentry).imp_right fun ⟨hdirectory, hplace⟩ => ⟨hdirectory, hplace hup⟩
  refine ⟨h.ready.linkFree hlinks, h.current, ?_, ?_, ⟨by simp, by simp⟩, h.summary⟩
  · -- only directories on the way to the destination were added
    intro location hapart
    cases hbefore : fs.tree.get? location with
    | some entry => exact h.ready.keeps_missing hmissing hbefore
    | none =>
        cases hafter : session.fileSystem.tree.get? location with
        | none => rfl
        | some entry =>
            rcases hadds hafter with hold | ⟨-, habove⟩
            · rw [hbefore] at hold
              cases hold
            · exact absurd habove hapart.not_above
  · intro place entry
    rw [leaves_empty_iff]
    constructor
    · -- what was at or below the place before would mean that it was taken
      intro hentry
      rcases hadds hentry with hold | ⟨hdirectory, habove⟩
      · cases place with
        | nil =>
            rw [resolved, List.append_nil, hfree] at hold
            cases hold
        | cons name place =>
            have hdirectory := get?_of_get?_append hold
            rw [resolved, hfree] at hdirectory
            cases hdirectory
      · have hlength : (fs.place config.destination ++ place).length ≤ _ := habove.length_le
        rw [List.length_append] at hlength
        exact ⟨List.eq_nil_of_length_eq_zero (by omega), hdirectory⟩
    · intro h
      obtain ⟨rfl, rfl⟩ := h
      obtain ⟨entry, hentry⟩ := h.ready.exists_entry
      rcases hadds hentry with hold | ⟨rfl, -⟩
      · have hnone := hfree.symm.trans hold
        cases hnone
      · rw [List.append_nil]
        exact hentry

/-- The counts are those of the visits from all roots. -/
theorem counts_joined {summary : Summary}
    (hrecords : List.Forall₂ (job.Records fs) job.config.roots ledgers)
    (hsummary : summary = (Ledger.joined ledgers).summary) :
    ∃ visits : List (List (Location × List UInt8)),
      List.Forall₂ (fun root visits => visits.Nodup ∧ ∀ place out,
        (place, out) ∈ visits ↔ job.ExportsFile fs.tree root place out) job.config.roots visits ∧
      summary.written = (visits.flatten.filter fun visit => visit.2 ≠ []).length ∧
      summary.skipped = (visits.flatten.filter fun visit => visit.2 = []).length := by
  refine ⟨ledgers.map Ledger.visited, ?_, ?_⟩
  · rw [List.forall₂_map_right_iff]
    exact hrecords.imp fun root ledger hrecord => ⟨hrecord.nodup, hrecord.visited⟩
  · rw [hsummary, ← List.flatMap_def]
    exact ⟨rfl, rfl⟩

theorem exported_of_recorded {after : FileTree}
    (h : job.Recorded fs start job.config.roots session)
    (hversion : session.fileSystem.tree.get? (job.placeOf versionFile) ≠ some .directory)
    (hafter : ∀ other, after.get? other =
      if other = job.placeOf versionFile ∧ session.fileSystem.tree.get? other ≠ some .sink then
        some (.file job.versionBytes)
      else session.fileSystem.tree.get? other) :
    job.Exported fs after session.summary := by
  obtain ⟨ledgers, hrecords, hsession⟩ := h
  have hrecord : after.get? (job.placeOf versionFile) = some (.file job.versionBytes) := by
    rw [hafter, if_pos ⟨rfl, hsession.ne_sink _⟩]
  have hother {place : Location} (hne : place ≠ versionFile.names) (entry : Entry) :
      after.get? (job.target ++ place) = some entry ↔
        Leaves (Ledger.joined ledgers).Puts place entry := by
    rw [hafter, if_neg fun h => hne (List.append_cancel_left h.1)]
    exact hsession.contents place entry
  -- a directory at the place of the record would have let the export fail
  have hdirectory (place : Location) : after.get? (job.target ++ place) = some .directory ↔
      Leaves (Ledger.joined ledgers).Puts place .directory := by
    by_cases hplace : place = versionFile.names
    · rw [hplace, ← hsession.contents]
      refine iff_of_false (fun hfile => ?_) hversion
      have hsame := hrecord.symm.trans hfile
      cases hsame
    · exact hother hplace .directory
  have hvisited (place : Location) (out : List UInt8) :
      (place, out) ∈ (Ledger.joined ledgers).visited ↔ _ := mem_visited_joined hrecords
  have hdirectories (place : Location) :
      place ∈ (Ledger.joined ledgers).directories ↔ _ := mem_directories_joined hrecords
  have hcounts := counts_joined hrecords hsession.summary
  refine ⟨hrecord, ?_, ?_, ?_, filtered_joined hrecords, hcounts, ?_⟩
  · intro place hplace out
    rw [hother hplace, Ledger.leaves_file_iff, hvisited]
  · intro place
    rw [hdirectory, Ledger.leaves_directory_iff]
    simp only [hdirectories, hvisited]
  · intro place entry hentry
    by_cases hplace : place = versionFile.names
    · have hsame : after.get? (job.target ++ place) = some (.file job.versionBytes) := by
        rw [hplace]
        exact hrecord
      exact .inr ⟨job.versionBytes, Option.some.inj (hentry.symm.trans hsame)⟩
    · exact Ledger.directory_or_file_of_leaves ((hother hplace entry).1 hentry)
  · rw [hsession.summary]
    exact missing_joined hrecords

/-! ## Whole exports -/

variable {config : Config} {confirm : Path → Bool} {summary : Summary}

theorem perform_exports (confirm : Path → Bool) (hlinks : fs.tree.LinkFree)
    (hmissing : fs.pathExists config.destination = false)
    (hup : Hop.up ∉ config.destination.hops)
    (hapart : ∀ root ∈ config.roots,
      (fs.place config.destination).Apart (fs.place config.baseDirectory ++ root.names)) :
    Ensures (At fs {}) (perform config confirm)
      (fun summary session => (resolved fs config).Exported fs session.fileSystem.tree summary)
      fun _ _ => True := by
  apply perform_ensures hlinks (fun _ _ _ => trivial)
  intro start hdescent
  have hbase : (resolved fs config).base.IsPlain := fs.isPlain_place _
  have htarget : (resolved fs config).target.IsPlain := fs.isPlain_place _
  have hroots : Ensures ((resolved fs config).Begins fs start)
      ((resolved fs config).config.roots.forM (resolved fs config).exportRoot)
      (fun _ => (resolved fs config).Recorded fs start config.roots) fun _ _ => True := by
    refine (exportRoots_records hlinks hbase htarget fun root hmem =>
      ⟨hdescent root hmem, hapart root hmem⟩).anyhow.mono_before ?_
    intro session hbegins
    exact ⟨[], .nil, hbegins.accounted hlinks hmissing hup⟩
  have hversion : Ensures ((resolved fs config).Recorded fs start config.roots)
      (resolved fs config).writeVersion
      (fun _ session =>
        (resolved fs config).Exported fs session.fileSystem.tree session.summary)
      fun _ _ => True := by
    refine ensures_of_at fun session hsession => ?_
    obtain ⟨ledgers, -, haccounted⟩ := id hsession
    have hwrite : Ensures (At session.fileSystem session.summary)
        (resolved fs config).writeVersion _ _ :=
      writeVersion_ensures haccounted.linkFree.straight haccounted.current htarget
    apply hwrite.anyhow.mono_after
    intro _ after hafter
    obtain ⟨hdirectory, hafter, -, hsummary⟩ := hafter
    rw [hsummary]
    exact exported_of_recorded hsession hdirectory hafter
  apply (exportRoots_ensures hroots hversion fun _ _ h => h).mono_after
  intro summary session hsession
  obtain ⟨hexported, rfl⟩ := hsession
  exact hexported

/-- An export into a fresh destination that is apart from the roots, if it succeeds, leaves there
exactly what the walks from the roots reach. -/
theorem exported_to_fresh_destination (hlinks : fs.tree.LinkFree)
    (hmissing : fs.pathExists config.destination = false)
    (hup : Hop.up ∉ config.destination.hops)
    (hapart : ∀ root ∈ config.roots,
      (fs.place config.destination).Apart (fs.place config.baseDirectory ++ root.names))
    (hok : (runExport config confirm fs).result = .ok summary) :
    (resolved fs config).Exported fs (runExport config confirm fs).session.fileSystem.tree
      summary := by
  have hrun := runExport_ensures (perform_exports confirm hlinks hmissing hup hapart)
  rw [hok] at hrun
  exact hrun

theorem exported_to_fresh_destination_besideProject :
    smallProject.tree.LinkFree ∧ smallProject.pathExists besideProject.destination = false ∧
      Hop.up ∉ besideProject.destination.hops ∧
      (∀ root ∈ besideProject.roots, (smallProject.place besideProject.destination).Apart
        (smallProject.place besideProject.baseDirectory ++ root.names)) ∧
      (runExport besideProject (fun _ => false) smallProject).result = .ok { written := 1 } ∧
      (resolved smallProject besideProject).Exported smallProject
        (runExport besideProject (fun _ => false) smallProject).session.fileSystem.tree
        { written := 1 } := by
  have hlinks : smallProject.tree.LinkFree := linkFree_of_entries (by decide)
  have hmissing : smallProject.pathExists besideProject.destination = false := by decide +kernel
  have hup : Hop.up ∉ besideProject.destination.hops := by decide +kernel
  have hapart : ∀ root ∈ besideProject.roots,
      (smallProject.place besideProject.destination).Apart
        (smallProject.place besideProject.baseDirectory ++ root.names) := by
    have hnot : ∀ root ∈ besideProject.roots,
        ¬smallProject.place besideProject.destination <+:
            smallProject.place besideProject.baseDirectory ++ root.names ∧
          ¬smallProject.place besideProject.baseDirectory ++ root.names <+:
            smallProject.place besideProject.destination := by decide +kernel
    exact fun root hmem => ⟨(hnot root hmem).1, (hnot root hmem).2⟩
  have hok : (runExport besideProject (fun _ => false) smallProject).result =
      .ok { written := 1 } :=
    eq_ok_of_toOption (by decide +kernel)
  exact ⟨hlinks, hmissing, hup, hapart, hok,
    exported_to_fresh_destination hlinks hmissing hup hapart hok⟩

/-- The root of a project, with so many slashes after its name that the system still follows it, but
no longer the path of the file in it. -/
def slashedRoot : Path where
  segments := Location.ofString "src" ++ List.replicate 4085 Segment.empty
  nonempty := List.append_ne_nil_of_left_ne_nil (by decide +kernel) _

def slashedProject : Config where
  baseDirectory := Path.ofString "p"
  destination := Path.ofString "out"
  roots := [slashedRoot]

/-- A file whose path is too long to follow is overlooked, and the export succeeds without it. -/
theorem file_overlooked_slashedProject :
    let place : Location := [{ text := "src" }, { text := "main.c" }]
    let outcome := runExport slashedProject (fun _ => false) smallProject
    smallProject.tree.LinkFree ∧ smallProject.pathExists slashedProject.destination = false ∧
      Hop.up ∉ slashedProject.destination.hops ∧
      (∀ root ∈ slashedProject.roots, (smallProject.place slashedProject.destination).Apart
        (smallProject.place slashedProject.baseDirectory ++ root.names)) ∧
      smallProject.pathExists ((resolved smallProject slashedProject).pathOf slashedRoot) = true ∧
      slashedRoot.names = [{ text := "src" }] ∧
      slashedRoot.fileName?.any slashedProject.isIgnored = false ∧
      slashedProject.isIgnored { text := "main.c" } = false ∧
      smallProject.tree.get? (smallProject.place slashedProject.baseDirectory ++ place) =
        some (.file [0x78, 0x0A]) ∧
      filterBytes slashedProject.version [0x78, 0x0A] = .ok [0x78, 0x0A] ∧
      outcome.result = .ok {} ∧
      outcome.session.fileSystem.tree.get?
        (smallProject.place slashedProject.destination ++ place) = none := by
  have hapart : ∀ root ∈ slashedProject.roots,
      ¬smallProject.place slashedProject.destination <+:
          smallProject.place slashedProject.baseDirectory ++ root.names ∧
        ¬smallProject.place slashedProject.baseDirectory ++ root.names <+:
          smallProject.place slashedProject.destination := by decide +kernel
  refine ⟨linkFree_of_entries (by decide), by decide +kernel, by decide +kernel,
    fun root hmem => ⟨(hapart root hmem).1, (hapart root hmem).2⟩, by decide +kernel,
    by decide +kernel, by decide +kernel, by decide +kernel, by decide +kernel, rfl,
    eq_ok_of_toOption (by decide +kernel), by decide +kernel⟩

end Export

end Snapshot
