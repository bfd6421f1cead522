import Snapshot.Proofs.Delivery

/-!
# What an export leaves out

An export writes to a place in the destination only when one of its walks has led to that place of
the project. So a file that no walk leads to is not delivered, and whether a file is delivered can
be told from the settings and the tree at the start.
-/

namespace Snapshot

open ExportM FileTree Export

namespace Export

variable {job : Export} {place start below : Location} {content out : List UInt8}
  {path root : Path} {before after : FileTree}

/-- What is left of a file is not at its place in the destination. -/
def Lacks (job : Export) (place : Location) (out : List UInt8) (tree : FileTree) : Prop :=
  tree.get? (job.target ++ place) ≠ some (.file out)

theorem Lacks.of_directoriesAdded {added : Location → Prop} (h : job.Lacks place out before)
    (hadded : before.DirectoriesAdded after added) : job.Lacks place out after := by
  intro hafter
  rcases hadded.adds hafter with hold | ⟨hdirectory, -⟩
  · exact h hold
  · cases hdirectory

theorem Lacks.of_copied {fs next : FileSystem} {read other : List UInt8}
    (h : job.Lacks place out fs.tree) (hnames : path.names ≠ place)
    (hcopied : job.Copied start path fs next read other) : job.Lacks place out next.tree := by
  by_cases hother : other = []
  · rw [hcopied.unchanged hother]
    exact h
  · intro hafter
    have hplace : job.target ++ place ≠ job.placeOf path :=
      fun heq => hnames (List.append_cancel_left heq).symm
    rcases (hcopied.written hother).adds hplace hafter with hold | ⟨hdirectory, -⟩
    · exact h hold
    · cases hdirectory

section Walk

variable (hbase : job.base.IsPlain) (htarget : job.target.IsPlain)

theorem say_lacks {status : Status} :
    Ensures (Settled start (job.Lacks place out)) (say job.config status)
      (fun _ => Settled start (job.Lacks place out)) fun _ _ => True :=
  ensures_say fun _ _ h => ⟨h.linkFree, h.current, h.holds⟩

include htarget in
theorem exportFile_lacks (hpath : path.GoesDown) (hnames : path.names ≠ place) :
    Ensures (Settled start (job.Lacks place out)) (job.exportFile path)
      (fun _ => Settled start (job.Lacks place out)) fun _ _ => True :=
  (exportFile_settled htarget hpath (fun _ _ hadded h => h.of_directoriesAdded hadded)
    fun _ _ _ _ _ hcopied h => h.of_copied hnames hcopied).anyhow

include hbase htarget in
/-- Where no walk from a directory leads to a place, exporting the directory puts nothing there. -/
theorem exportDirectory_lacks (depth : Nat) (hpath : path.GoesDown)
    (hnot : ∀ below, below ≠ [] → path.names ++ below = place → ¬job.Leads path below) :
    Ensures (Settled start (job.Lacks place out)) (job.exportDirectory depth path)
      (fun _ => Settled start (job.Lacks place out)) fun _ _ => True := by
  induction depth generalizing path with
  | zero => exact .throw fun _ _ => trivial
  | succ depth ih =>
      have hcreate : Ensures (Settled start (job.Lacks place out)) (job.createTarget path)
          (fun _ => Settled start (job.Lacks place out)) fun _ _ => True :=
        (createTarget_settled htarget hpath fun _ _ hadded h => h.of_directoriesAdded hadded).anyhow
      unfold exportDirectory
      refine say_lacks.bind fun _ => hcreate.bind fun _ => ?_
      refine (scan_ensures (fun _ _ _ => trivial) fun _ _ _ _ => trivial).bind fun listing => ?_
      apply Ensures.of_start
      intro session hsession
      obtain ⟨hsession, hread⟩ := hsession
      obtain ⟨-, files, subdirectories, hshows⟩ :=
        Listing.read_eq_ok hsession.linkFree hbase hpath hread
      have hjoin {name : Segment} (hname : name.IsName) :=
        Path.goesDown_join_ofSegment hpath hname.ofSegment_eq
      have hfiles : Ensures (Settled start (job.Lacks place out))
          (listing.files.forM job.exportFile)
          (fun _ => Settled start (job.Lacks place out)) fun _ _ => True := by
        -- to a listed file a walk leads, so it is not the one in question
        refine Ensures.forM fun next hnext => ?_
        rw [hshows.files_eq] at hnext
        obtain ⟨name, hmem, rfl⟩ := List.mem_map.1 hnext
        obtain ⟨hname, hkept, content, hfinds⟩ := (hshows.mem_files name).1 hmem
        refine exportFile_lacks htarget (hjoin hname).1 fun hplace => ?_
        rw [(hjoin hname).2] at hplace
        refine hnot [name] (List.cons_ne_nil _ _) hplace ⟨?_, .inl (Nat.le_refl 1), hfinds.size_le,
          hfinds.ends.resolve_left (by simp)⟩
        exact fun other hmem => List.mem_singleton.1 hmem ▸ hkept
      have hdirectories : Ensures (Settled start (job.Lacks place out))
          (listing.subdirectories.forM (job.exportDirectory depth))
          (fun _ => Settled start (job.Lacks place out)) fun _ _ => True := by
        -- what a walk leads to from a listed subdirectory it leads to from here
        refine Ensures.forM fun next hnext => ?_
        rw [hshows.subdirectories_eq] at hnext
        obtain ⟨name, hmem, rfl⟩ := List.mem_map.1 hnext
        obtain ⟨hname, hkept, hfinds, houtside⟩ := (hshows.mem_subdirectories name).1 hmem
        obtain ⟨habsolute, hup, hnames⟩ := Project.pathOf_goesDown hbase (hjoin hname).1
        have hnotBelow := FileSystem.not_prefix_of_leadsInto_eq_false hsession.linkFree habsolute
          hup hfinds houtside
        rw [hnames, (hjoin hname).2] at hnotBelow
        refine ih (hjoin hname).1 fun below _ hplace hleads => ?_
        rw [(hjoin hname).2, ← List.append_cons] at hplace
        exact hnot (name :: below) (List.cons_ne_nil _ _) hplace
          ((leads_cons_iff hpath hname).2 ⟨hkept, fun _ => hnotBelow, hleads⟩)
      exact (hfiles.bind fun _ => hdirectories).from_session hsession

include hbase htarget in
theorem exportRoot_lacks (hroot : root.GoesDown)
    (hnot : root.fileName?.any job.config.isIgnored = false →
      ∀ below, root.names ++ below = place → ¬job.Leads root below) :
    Ensures (Settled start (job.Lacks place out)) (job.exportRoot root)
      (fun _ => Settled start (job.Lacks place out)) fun _ _ => True := by
  obtain ⟨habsolute, hup, -⟩ := Project.pathOf_goesDown hbase hroot
  unfold exportRoot
  refine Ensures.get_bind fun state hstate => ?_
  dsimp only
  split
  · exact say_lacks.bind fun _ => ensures_count fun _ h => ⟨h.linkFree, h.current, h.holds⟩
  · next hexists =>
      split
      · exact .pure fun _ h => h
      · next hkept =>
          rw [Bool.not_eq_true] at hkept
          have hnot := hnot hkept
          split
          · exact exportDirectory_lacks hbase htarget _ hroot fun below _ => hnot below
          · next hfile =>
              refine exportFile_lacks htarget hroot fun hplace => ?_
              have hexists : state.fileSystem.pathExists (job.pathOf root) = true := by
                simpa using hexists
              obtain ⟨entry, hfinds⟩ :=
                (FileSystem.pathExists_iff hstate.linkFree habsolute hup).1 hexists
              refine hnot [] ((List.append_nil _).trans hplace)
                ⟨by simp, .inl (Nat.zero_le 1), hfinds.size_le, ?_⟩
              refine hfinds.ends.resolve_left fun hdirectory => hfile ?_
              rw [FileSystem.isDirectory_iff hstate.linkFree habsolute hup]
              exact hdirectory ▸ hfinds

end Walk

/-! ## Whole exports -/

variable {fs : FileSystem} {config : Config} {confirm : Path → Bool} {summary : Summary}

theorem perform_lacks (confirm : Path → Bool) (hlinks : fs.tree.LinkFree)
    (hlacks : ∀ after, (resolved fs config).Ready fs after →
      (resolved fs config).Lacks place out after)
    (hrecord : place ≠ versionFile.names) (hnot : ¬(resolved fs config).Takes place) :
    Ensures (At fs {}) (perform config confirm)
      (fun _ session => session.fileSystem.tree.get? (fs.place config.destination ++ place) ≠
        some (.file out))
      fun _ _ => True := by
  apply perform_ensures hlinks (fun _ _ _ => trivial)
  intro start hdescent
  have hbase : (resolved fs config).base.IsPlain := fs.isPlain_place _
  have htarget : (resolved fs config).target.IsPlain := fs.isPlain_place _
  apply Ensures.of_start
  intro session hbegins
  have hlacks : Settled start ((resolved fs config).Lacks place out) session :=
    { linkFree := hbegins.ready.linkFree hlinks
      current := hbegins.current
      holds := hlacks _ hbegins.ready }
  have hroots : Ensures (Settled start ((resolved fs config).Lacks place out))
      ((resolved fs config).config.roots.forM (resolved fs config).exportRoot)
      (fun _ => Settled start ((resolved fs config).Lacks place out)) fun _ _ => True := by
    refine Ensures.forM fun root hmem => ?_
    apply exportRoot_lacks hbase htarget (hdescent root hmem).goesDown.1
    intro hkept below hplace hleads
    exact hnot ⟨root, hmem, hkept, below, hplace, hleads⟩
  have hversion : Ensures (Settled start ((resolved fs config).Lacks place out))
      (resolved fs config).writeVersion
      (fun _ session => session.fileSystem.tree.get? (fs.place config.destination ++ place) ≠
        some (.file out))
      fun _ _ => True := by
    refine (writeVersion_settled (· ≠ some (.file out)) htarget ?_ fun tree h => h).anyhow
    exact fun heq => hrecord (List.append_cancel_left heq)
  exact (exportRoots_ensures hroots hversion fun _ _ h => h).imp (fun _ heq => heq ▸ hlacks)
    (fun _ _ h => h.1) fun _ _ _ => trivial

/-- An export that succeeds delivers a file that is not in its way if a walk leads to it, and only
then, unless what is left of the file was at its place before. -/
theorem delivered_iff_taken (hlinks : fs.tree.LinkFree) (hasked : Asked fs config place content out)
    (hspares : ∀ root ∈ config.roots, ¬fs.place config.destination ++ root.names <+:
      fs.place config.baseDirectory ++ place)
    (hsink : fs.tree.get? (fs.place config.destination ++ place) ≠ some .sink)
    (hok : (runExport config confirm fs).result = .ok summary) :
    ((resolved fs config).Takes place →
      (runExport config confirm fs).session.fileSystem.tree.get?
        (fs.place config.destination ++ place) = some (.file out)) ∧
    ((runExport config confirm fs).session.fileSystem.tree.get?
        (fs.place config.destination ++ place) = some (.file out) →
      (resolved fs config).Takes place ∨
        fs.tree.get? (fs.place config.destination ++ place) = some (.file out)) := by
  constructor
  · intro htakes
    have hrun := runExport_ensures (perform_delivers confirm hlinks hasked hspares hsink htakes)
    rw [hok] at hrun
    exact hrun
  · intro hdelivered
    by_contra hneither
    rw [not_or] at hneither
    obtain ⟨hnot, hnew⟩ := hneither
    have hlacks (after : FileTree) (hready : (resolved fs config).Ready fs after) :
        (resolved fs config).Lacks place out after := by
      intro hafter
      rcases hready.adds hafter with hold | ⟨hdirectory, -⟩
      · exact hnew hold
      · cases hdirectory
    have hrun := runExport_ensures (perform_lacks confirm hlinks hlacks hasked.not_record hnot)
    rw [hok] at hrun
    exact hrun hdelivered

/-- A destination beside the project gets its file. -/
theorem delivered_besideProject :
    let place : Location := [{ text := "src" }, { text := "main.c" }]
    let outcome := runExport besideProject (fun _ => false) smallProject
    smallProject.tree.LinkFree ∧
      Asked smallProject besideProject place [0x78, 0x0A] [0x78, 0x0A] ∧
      (∀ root ∈ besideProject.roots, ¬smallProject.place besideProject.destination ++ root.names <+:
        smallProject.place besideProject.baseDirectory ++ place) ∧
      smallProject.tree.get? (smallProject.place besideProject.destination ++ place) ≠ some .sink ∧
      outcome.result = .ok { written := 1 } ∧
      (resolved smallProject besideProject).Takes place ∧
      outcome.session.fileSystem.tree.get? (smallProject.place besideProject.destination ++ place) =
        some (.file [0x78, 0x0A]) := by
  intro place outcome
  have hlinks : smallProject.tree.LinkFree := linkFree_of_entries (by decide)
  have hasked : Asked smallProject besideProject place [0x78, 0x0A] [0x78, 0x0A] :=
    ⟨by decide +kernel, rfl, by decide, by decide +kernel⟩
  have hspares : ∀ root ∈ besideProject.roots,
      ¬smallProject.place besideProject.destination ++ root.names <+:
        smallProject.place besideProject.baseDirectory ++ place := by decide +kernel
  have hsink : smallProject.tree.get? (smallProject.place besideProject.destination ++ place) ≠
      some .sink := by decide +kernel
  have hok : outcome.result = .ok { written := 1 } := eq_ok_of_toOption (by decide +kernel)
  have htakes : (resolved smallProject besideProject).Takes place := by
    refine ⟨Path.ofString "src", by decide, by decide +kernel, [{ text := "main.c" }],
      by decide +kernel, ?_⟩
    exact ⟨by decide +kernel, .inl (Nat.le_refl 1), by decide +kernel, { text := "main.c" },
      by decide +kernel⟩
  exact ⟨hlinks, hasked, hspares, hsink, hok, htakes,
    (delivered_iff_taken hlinks hasked hspares hsink hok).1 htakes⟩

/-- A project `p` whose one file is in a directory of its root. -/
def nestedProject : FileSystem :=
  .ofTree
    { entries :=
        [(.ofString "p/src/util/a.c", .file [0x78, 0x0A]),
          (.ofString "p/src/util", .directory),
          (.ofString "p/src", .directory), (.ofString "p", .directory)]
      wellFormed := ⟨by decide +kernel, by decide +kernel, by decide +kernel, by decide +kernel⟩ }
    []

/-- The settings with which the project is in its destination. -/
def aroundProject : Config where
  baseDirectory := Path.ofString "p"
  destination := Path.ofString "."
  roots := [Path.ofString "src"]

/-- In a destination that holds the project all its directories seem to be output, and an export
that succeeds has passed over them. -/
theorem file_lost_aroundProject :
    let place : Location := [{ text := "src" }, { text := "util" }, { text := "a.c" }]
    let outcome := runExport aroundProject (fun _ => true) nestedProject
    nestedProject.tree.LinkFree ∧
      Asked nestedProject aroundProject place [0x78, 0x0A] [0x78, 0x0A] ∧
      Path.ofString "src" ∈ aroundProject.roots ∧
      (∀ name ∈ place, aroundProject.isIgnored name = false) ∧
      outcome.result = .ok {} ∧
      outcome.session.fileSystem.tree.get?
        (nestedProject.place aroundProject.destination ++ place) = none :=
  ⟨linkFree_of_entries (by decide), ⟨by decide +kernel, rfl, by decide, by decide +kernel⟩,
    by decide, by decide +kernel, eq_ok_of_toOption (by decide +kernel), by decide +kernel⟩

end Export

end Snapshot
