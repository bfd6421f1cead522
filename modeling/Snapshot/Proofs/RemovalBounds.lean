import Snapshot.Proofs.Agreement

/-!
# Where removing can reach

What is removed from an existing destination is what its paths of the roots name. A root goes down
as it reads, but a link on the way to what it names can lead anywhere. If there is none, only what
is in the destination is removed: a link that a root ends in is removed itself, but a slash or a dot
after the name leads through it.
-/

namespace Snapshot

open ExportM FileTree Export

namespace Project

open FileSystem

variable {project : Project} {confirm : Path → Bool} {begun session : Session}
  {fs : FileSystem} {target location place : Location} {root : Path} {entry found : Entry}

/-- What the path of a root names lies where the root reads in the destination, if no link is on the
way there. -/
theorem eq_of_find_join (hroot : root.GoesDown)
    (hdestination : fs.find .follow project.config.destination = .ok (target, .directory))
    (hfind : fs.find .keep (project.config.destination.join root) = .ok (location, entry))
    (hunlinked : fs.tree.Unlinked target root.hops) : location = target ++ root.names := by
  obtain ⟨links, hwalk⟩ := walk_of_find_join hroot.relative hdestination hfind
  obtain ⟨rfl, -⟩ :=
    walk_holds_of_unlinked hunlinked (.inl rfl) (get?_of_find hdestination) hwalk
  rw [Location.follow_of_not_up hroot.up_not_mem, Path.names]

/-- Whatever comes of making a destination ready, an entry is lost only with consent, and it was at
or below what the destination's path of a root named. If there is no link on the way to that, the
entry was in the destination, at or below the place that the root reads as. -/
theorem removed_stays_inside (hvalid : project.config.validate = .ok ())
    (hrun : project.prepareDestination confirm begun = .ok target session ∨
      ∃ report, project.prepareDestination confirm begun = .error report session)
    (hbefore : begun.fileSystem.tree.get? place = some entry)
    (hafter : session.fileSystem.tree.get? place ≠ some entry) :
    confirm project.config.destination = true ∧ ∃ destination,
      begun.fileSystem.find .follow project.config.destination = .ok (destination, .directory) ∧
      ∃ root ∈ project.config.roots, ∃ location found,
        begun.fileSystem.find .keep (project.config.destination.join root) =
          .ok (location, found) ∧
        location <+: place ∧
        (begun.fileSystem.tree.Unlinked destination root.hops →
          destination ++ root.names <+: place ∧ destination ≠ place) := by
  have hdescent := Config.isDescent_of_validate hvalid
  rcases readies_of_prepareDestination hdescent hrun with
    hsame | ⟨-, hexists, hconfirm, hlosing⟩ | ⟨-, -, heq⟩
  · rw [hsame] at hafter
    exact absurd hbefore hafter
  · rcases hlosing.keeps with hkept | ⟨root, hroot, location, found, hfind, hplace⟩
    · exact absurd (hkept.trans hbefore) hafter
    · refine ⟨hconfirm, _, hexists, root, hroot, location, found, hfind, hplace, ?_⟩
      intro hunlinked
      obtain ⟨hgoesDown, hnames⟩ := (hdescent root hroot).goesDown
      rw [eq_of_find_join hgoesDown hexists hfind hunlinked] at hplace
      refine ⟨hplace, ?_⟩
      rintro rfl
      have hlength := hplace.length_le
      have hpositive := List.length_pos_of_ne_nil hnames
      rw [List.length_append] at hlength
      omega
  · -- creating directories removes nothing
    rw [heq] at hafter
    exact absurd ((createDirectories_leads _ _).1.keeps hbefore) hafter

/-- The old file is lost with its root, in the destination. -/
theorem removed_stays_inside_oldExport :
    let place : Location := [{ text := "out" }, { text := "src" }, { text := "old.c" }]
    ∃ target session,
      (exportTo "out" ["src"]).prepareDestination (fun _ => true) { fileSystem := oldExport } =
        .ok target session ∧
      (exportTo "out" ["src"]).config.validate = .ok () ∧
      oldExport.tree.get? place = some (.file [0x6F, 0x0A]) ∧
      session.fileSystem.tree.get? place ≠ some (.file [0x6F, 0x0A]) ∧
      ∃ destination,
        oldExport.find .follow (Path.ofString "out") = .ok (destination, .directory) ∧
        destination <+: place ∧ destination ≠ place := by
  intro place
  have hvalid : (exportTo "out" ["src"]).config.validate = .ok () :=
    eq_ok_of_toOption (by decide +kernel)
  have hlinks : oldExport.tree.LinkFree := linkFree_of_entries (by decide +kernel)
  have hbefore : oldExport.tree.get? place = some (.file [0x6F, 0x0A]) := by decide +kernel
  obtain ⟨target, session, hok, hafter⟩ : ∃ target session,
      (exportTo "out" ["src"]).prepareDestination (fun _ => true) { fileSystem := oldExport } =
        .ok target session ∧
      session.fileSystem.tree.get? place ≠ some (.file [0x6F, 0x0A]) := by
    decide +kernel
  obtain ⟨-, destination, hdestination, root, -, location, found, -, -, hinside⟩ :=
    removed_stays_inside hvalid (.inl hok) hbefore hafter
  obtain ⟨hbelow, hne⟩ := hinside hlinks.straight.unlinked
  exact ⟨target, session, hok, hvalid, hbefore, hafter, destination, hdestination,
    (List.prefix_append _ _).trans hbelow, hne⟩

/-- A destination in which a link leads to another directory. -/
def linkedExport : FileSystem :=
  .ofTree
    { entries :=
        [(.ofString "p/src", .directory), (.ofString "p", .directory),
          (.ofString "keep/b", .file [0x6B, 0x0A]),
          (.ofString "keep", .directory),
          (.ofString "out/a", .link (Path.ofString "../keep")),
          (.ofString "out", .directory)]
      wellFormed := ⟨by decide +kernel, by decide +kernel, by decide +kernel, by decide +kernel⟩ }
    []

/-- Through a link in the destination a file outside of it is removed. -/
theorem removed_through_link :
    let place : Location := [{ text := "keep" }, { text := "b" }]
    let destination : Location := [{ text := "out" }]
    ∃ target session,
      (exportTo "out" ["a/b"]).prepareDestination (fun _ => true)
        { fileSystem := linkedExport } = .ok target session ∧
      (exportTo "out" ["a/b"]).config.validate = .ok () ∧
      linkedExport.find .follow (Path.ofString "out") = .ok (destination, .directory) ∧
      linkedExport.tree.get? place = some (.file [0x6B, 0x0A]) ∧
      session.fileSystem.tree.get? place = none ∧ ¬destination <+: place := by
  intro place destination
  obtain ⟨target, session, hok, hlost⟩ : ∃ target session,
      (exportTo "out" ["a/b"]).prepareDestination (fun _ => true)
        { fileSystem := linkedExport } = .ok target session ∧
      session.fileSystem.tree.get? place = none := by
    decide +kernel
  exact ⟨target, session, hok, eq_ok_of_toOption (by decide +kernel),
    eq_ok_of_toOption (by decide +kernel), by decide +kernel, hlost, by decide +kernel⟩

end Project

end Snapshot
