import Mathlib.Data.List.Zip
import Snapshot.Proofs.Respelling

/-!
# The spelling of the roots

An export of respelled roots goes well if the export does, and leaves the same: the destination is
made ready in the same way, and from there both exports go on in lockstep. The other way round the
first roots are a respelling of the second ones. With a dot at the end the export of a directory
fails, although the settings allow it.

How long a path is depends on its spelling. For a root that the destination lies apart from, that
the paths fit can be told from what is in the project before the export; for the others, from what
both exports leave.
-/

namespace Snapshot

open ExportM FileTree

namespace Config.SpellsRoots

variable {config : Config} {fs : FileSystem} {root other : Path} {roots : List Path}

theorem resembles_of_mem_zip (h : config.SpellsRoots fs roots)
    (hmem : (root, other) ∈ config.roots.zip roots) : root.Resembles other :=
  (h.of_mem_zip hmem).imp_right (·.toRespells)

/-- Spellings are accepted as roots together. -/
theorem validate (h : config.SpellsRoots fs roots) (hvalid : config.validate = .ok ()) :
    ({ config with roots } : Config).validate = .ok () := by
  refine validate_eq_ok_iff.2 fun other (hother : other ∈ roots) => ?_
  obtain ⟨root, hpair⟩ := h.exists_mem_zip hother
  rcases h.of_mem_zip hpair with rfl | hrespelled
  · exact validate_eq_ok_iff.1 hvalid root (List.of_mem_zip hpair).1
  · exact Path.isDescent_of_goesDown hrespelled.goesDown_other
      (hrespelled.names_eq ▸ hrespelled.names_ne_nil)

theorem mem_zip_of_swapped (h : (other, root) ∈ roots.zip config.roots) :
    (root, other) ∈ config.roots.zip roots := by
  rw [← List.zip_swap]
  exact List.mem_map_of_mem h

/-- The roots of the settings are a respelling of their respelling. -/
theorem symm (h : config.SpellsRoots fs roots) :
    ({ config with roots } : Config).SpellsRoots fs config.roots := by
  refine List.forall₂_iff_zip.2 ⟨h.length_eq.symm, fun {other root} hpair => ?_⟩
  refine (h.of_mem_zip (mem_zip_of_swapped hpair)).imp Eq.symm fun hrespelled => ?_
  refine ⟨hrespelled.toRespells.symm, hrespelled.fits.symm, hrespelled.ends.imp Iff.symm ?_⟩
  intro hsolid
  rw [hrespelled.names_eq]
  refine ⟨hsolid.directory, fun spelled hspelled => ?_, hsolid.replaced⟩
  obtain ⟨given, hgiven⟩ := h.exists_mem_zip hspelled
  rw [(h.resembles_of_mem_zip hgiven).names_eq]
  exact hsolid.spared given (List.of_mem_zip hgiven).1

end Config.SpellsRoots

namespace Export

variable {job : Export} {roots : List Path} {tree : FileTree} {path other : Path} {fs : FileSystem}
  {session second done : Session} {summary : Summary}

theorem fitsBelow_of_entries (hnames : path.names ≠ [])
    (h : ∀ item ∈ tree.entries, job.base ++ path.names <+: item.1 →
      job.Fits (path.extend (item.1.drop (job.base ++ path.names).length))
        (other.extend (item.1.drop (job.base ++ path.names).length))) :
    job.FitsBelow tree path other := by
  intro below entry hentry
  rw [← List.append_assoc] at hentry
  have hne : job.base ++ path.names ++ below ≠ [] := by simp [hnames]
  have hfits := h _ ((get?_eq_some_iff_mem hne).1 hentry) (List.prefix_append _ _)
  rwa [List.drop_left] at hfits

theorem FitsBelow.symm (h : job.FitsBelow tree path other) (hnames : other.names = path.names) :
    job.FitsBelow tree other path := by
  intro below entry hentry
  rw [hnames] at hentry
  exact (h below entry hentry).symm

theorem FitsBelow.withRoots (h : job.FitsBelow tree path other) :
    (job.withRoots roots).FitsBelow tree path other :=
  fun below entry hentry => ⟨(h below entry hentry).input, (h below entry hentry).output⟩

/-- The roots are exported under both spellings, from a destination that was made ready. -/
theorem exportRoots_respelled (hlinks : session.fileSystem.tree.LinkFree)
    (hbase : job.base.IsPlain) (htarget : job.target.IsPlain)
    (hdescent : ∀ root ∈ job.config.roots, root.IsDescent)
    (hpairs : List.Forall₂ (fun root other => (root, other) ∈ job.config.roots.zip roots)
      job.config.roots roots)
    (hspelled : ∀ root other, (root, other) ∈ job.config.roots.zip roots →
      root = other ∨ root.Respells other ∧ job.EndsAlike session.fileSystem.tree root other)
    (hfits : ¬job.Parts (job.config.roots.zip roots) done)
    (hsame : second.fileSystem = session.fileSystem) (hsummary : second.summary = session.summary)
    (h : job.exportRoots session = .ok summary done) :
    ∃ also too, (job.withRoots roots).exportRoots second = .ok too also ∧
      also.fileSystem = done.fileSystem ∧
        too.written = summary.written ∧ too.skipped = summary.skipped := by
  obtain ⟨middle, hexported, hwrite, rfl⟩ := exists_exportRoots_eq_ok_iff.1 ⟨done, h, rfl⟩
  have hlockstep : Follows (job.Parts (job.config.roots.zip roots))
      (Lockstep session.fileSystem) (job.config.roots.forM job.exportRoot)
      (roots.forM job.exportRoot) fun _ => Lockstep session.fileSystem := by
    refine Follows.forM_forall₂ hpairs (fun root hroot => ?_) fun root other hpair => ?_
    · exact parts_keeps _ fun fs =>
        (job.keeps_retains fs).exportRoot (job.visits_root hdescent root hroot)
    · exact exportRoot_lockstep hlinks hbase htarget
        (job.visits_root hdescent root (List.of_mem_zip hpair).1) hpair (hspelled root other hpair)
  have hstart : Lockstep session.fileSystem session second :=
    ⟨hsame, by rw [hsummary], by rw [hsummary], .refl _⟩
  have hnotParts : ¬job.Parts (job.config.roots.zip roots) middle := by
    intro hparts
    obtain ⟨pair, hpair, hnot⟩ := hparts
    exact hfits ⟨pair, hpair, fun hfits => hnot (hfits.of_retains (.write hwrite))⟩
  obtain ⟨also, hexported', hend⟩ := hlockstep session second hstart () middle hexported hnotParts
  rw [← forM_withRoots] at hexported'
  rw [← hend.fileSystem_eq] at hwrite
  obtain ⟨last, hlast, hfinal⟩ :=
    exists_exportRoots_eq_ok_iff.2 ⟨also, hexported', hwrite, rfl⟩
  exact ⟨last, _, hlast, hfinal, hend.written_eq, hend.skipped_eq⟩

/-! ## Roots that are left alone -/

/-- Whether a root is outside of what an export changes: the destination is apart from it, and
nothing else is created on the way to the destination. -/
def Secluded (config : Config) (fs : FileSystem) (root : Path) : Prop :=
  (fs.place config.destination).Apart (fs.place config.baseDirectory ++ root.names) ∧
    (fs.pathExists config.destination = true ∨ fs.GoesDownBeyond config.destination)

section Secluded

variable {config : Config} {confirm : Path → Bool} {root : Path}

/-- The destination of an export that goes well is at its place. -/
theorem leadsTo_of_ok (hlinks : fs.tree.LinkFree)
    (hok : (runExport config confirm fs).result = .ok summary) :
    (config.destination.isAbsolute || fs.hasCurrent) = true ∧
      config.LeadsTo fs (fs.place config.destination) := by
  have hready : Ensures (fun session => session = { fileSystem := fs }) (perform config confirm)
      (fun _ _ => (config.destination.isAbsolute || fs.hasCurrent) = true ∧
        config.LeadsTo fs (fs.place config.destination)) fun _ _ => True := by
    refine perform_readies (fun _ => trivial) (fun _ _ _ _ _ _ => trivial) ?_
    intro base target hdescent hbase
    refine Ensures.of_start fun session hready => .of_forall (fun _ _ => ?_) fun _ _ => trivial
    obtain ⟨rfl, -⟩ := hready.ready hdescent hlinks
    exact ⟨hready.leads, hready.leadsTo⟩
  have hrun := runExport_from hready rfl
  rwa [hok] at hrun

/-- What stands in a secluded root after an export has stood there before. -/
theorem Secluded.exists_get? (h : Secluded config fs root) (hlinks : fs.tree.LinkFree)
    (hok : (runExport config confirm fs).result = .ok summary) {place : Location} {entry : Entry}
    (hplace : fs.place config.baseDirectory ++ root.names <+: place)
    (hentry : (runExport config confirm fs).session.fileSystem.tree.get? place = some entry) :
    ∃ old, fs.tree.get? place = some old := by
  obtain ⟨hcurrent, hleads⟩ := leadsTo_of_ok hlinks hok
  have houtside {target : Location} (htarget : config.LeadsTo fs target) :
      ¬target <+: place := by
    intro hinside
    rw [hleads.unique htarget] at hinside
    exact (List.prefix_or_prefix_of_prefix hinside hplace).elim h.1.not_below h.1.not_above
  have hunlinked : config.Unlinked fs := fun _ _ _ _ hlink => hlinks _ _ hlink
  rcases runExport_leaves confirm hunlinked place with
    ⟨target, htarget, rfl⟩ | hsame | ⟨target, htarget, _, -, hbelow⟩ |
      ⟨hnew, -, ⟨hmissing, count, hway⟩ | ⟨target, htarget, hbelow, -⟩⟩
  · exact absurd (List.prefix_append _ _) (houtside htarget)
  · exact ⟨entry, hsame ▸ hentry⟩
  · exact absurd ((List.prefix_append _ _).trans hbelow) (houtside htarget)
  · -- what is created on the way has the destination below it
    obtain ⟨found, hfind⟩ := hleads
    rw [if_neg (by simp [hmissing])] at hfind
    have hbeyond := h.2.resolve_left (by simp [hmissing])
    have habove := FileSystem.prefix_of_created hcurrent hbeyond hfind hnew hway
    exact absurd (hplace.trans habove) h.1.not_above
  · exact absurd hbelow (houtside htarget)

/-- What fits in a secluded root at the start of an export fits at its end. -/
theorem Secluded.fitsBelow (h : Secluded config fs root) (hlinks : fs.tree.LinkFree)
    (hok : (runExport config confirm fs).result = .ok summary)
    (hfits : (resolved fs config).FitsBelow fs.tree root other) :
    (resolved fs config).FitsBelow (runExport config confirm fs).session.fileSystem.tree root
      other := by
  intro below entry hentry
  have hplace : fs.place config.baseDirectory ++ root.names <+:
      fs.place config.baseDirectory ++ (root.names ++ below) := by
    rw [← List.append_assoc]
    exact List.prefix_append _ _
  obtain ⟨old, hold⟩ := h.exists_get? hlinks hok hplace hentry
  exact hfits below old hold

end Secluded

section Whole

variable {config : Config} {confirm : Path → Bool} (hlinks : fs.tree.LinkFree)
  (hspelled : config.SpellsRoots fs roots)

include hlinks hspelled

/-- What goes well under one spelling goes well under the other one, and leaves the same. -/
theorem perform_respelled (hfits : ¬(resolved fs config).Parts (config.roots.zip roots) done)
    (h : perform config confirm { fileSystem := fs } = .ok summary done) :
    ∃ also too, perform { config with roots } confirm { fileSystem := fs } = .ok too also ∧
      also.fileSystem = done.fileSystem ∧
        too.written = summary.written ∧ too.skipped = summary.skipped := by
  obtain ⟨hvalid, base, target, said, ready, hbase, hsaid, hprepared, hexported⟩ :=
    perform_eq_ok_iff.1 h
  have hdescent := Config.validate_eq_ok_iff.1 hvalid
  obtain ⟨-, rfl, -⟩ := FileSystem.resolveExisting_eq_ok hlinks hbase
  obtain rfl : said.fileSystem = fs := by
    cases hsaid
    split <;> rfl
  have hready := Project.isReady_of_prepareDestination hdescent hprepared
  obtain ⟨rfl, hreadied⟩ := hready.ready hdescent hlinks
  let job : Export := resolved said.fileSystem config
  have hbegins : job.base = said.fileSystem.place job.config.baseDirectory := rfl
  obtain ⟨prepared, hprepared', hsame, hsummary⟩ :=
    Project.prepareDestination_respelled hlinks hbegins hspelled said said ⟨rfl, rfl⟩ _ ready
      hprepared id
  have hends (root other : Path) (hpair : (root, other) ∈ config.roots.zip roots) :
      root = other ∨ root.Respells other ∧ job.EndsAlike ready.fileSystem.tree root other := by
    refine (hspelled.of_mem_zip hpair).imp_right fun hrespelled => ⟨hrespelled.toRespells, ?_⟩
    exact hrespelled.ends.imp_right fun hsolid =>
      hreadied.keeps hsolid.directory hsolid.spared
  have hbasePlain : job.base.IsPlain := said.fileSystem.isPlain_place _
  obtain ⟨also, too, hexported', hend⟩ :=
    exportRoots_respelled (hreadied.linkFree hlinks) hbasePlain (said.fileSystem.isPlain_place _)
      hdescent hspelled.zipped hends hfits hsame hsummary hexported
  exact ⟨also, too, perform_eq_ok_iff.2 ⟨hspelled.validate hvalid, _, _, said, prepared, hbase,
    hsaid, hprepared', hexported'⟩, hend⟩

theorem exists_ok_respelled
    (hfits : ∀ pair ∈ config.roots.zip roots, (resolved fs config).FitsBelow
      (runExport config confirm fs).session.fileSystem.tree pair.1 pair.2)
    (hok : (runExport config confirm fs).result = .ok summary) :
    ∃ too, (runExport { config with roots } confirm fs).result = .ok too ∧
      too.written = summary.written ∧ too.skipped = summary.skipped ∧
        (runExport { config with roots } confirm fs).session.fileSystem =
          (runExport config confirm fs).session.fileSystem := by
  obtain ⟨done, hperform⟩ := exists_perform_of_runExport hok
  rw [runExport_eq_of_perform hperform] at hfits ⊢
  have hnotParts : ¬(resolved fs config).Parts (config.roots.zip roots) done := by
    intro hparts
    obtain ⟨pair, hpair, hnot⟩ := hparts
    exact hnot (hfits pair hpair)
  obtain ⟨also, too, hrespelled, hsame, hwritten, hskipped⟩ :=
    perform_respelled hlinks hspelled hnotParts hperform
  rw [runExport_eq_of_perform hrespelled]
  exact ⟨too, rfl, hwritten, hskipped, hsame⟩

end Whole

/-- How the roots are spelled does not matter: with other slashes and other dots between and before
the names an export goes well if it did, leaves the same file system, and counts the same.

A dot at the end is a spelling that the settings allow and the system does not create, so there must
be none. The lengths of the paths must be within what the system follows under both spellings or
under none. For a root that an export leaves alone it is enough that this holds of what stands in it
at the start; for one that the export writes into or creates, it is asked of what stands in it at the
end. -/
theorem root_spelling_irrelevant {config : Config} (confirm : Path → Bool)
    (hlinks : fs.tree.LinkFree) (hspelled : config.SpellsRoots fs roots) :
    let outcome := runExport config confirm fs
    let respelled := runExport { config with roots } confirm fs
    (∀ pair ∈ config.roots.zip roots,
      Secluded config fs pair.1 ∧ (resolved fs config).FitsBelow fs.tree pair.1 pair.2 ∨
        (resolved fs config).FitsBelow outcome.session.fileSystem.tree pair.1 pair.2 ∧
          (resolved fs config).FitsBelow respelled.session.fileSystem.tree pair.1 pair.2) →
    ((∃ summary, respelled.result = .ok summary) ↔ ∃ summary, outcome.result = .ok summary) ∧
    ∀ summary, outcome.result = .ok summary →
      ∃ too, respelled.result = .ok too ∧
        too.written = summary.written ∧ too.skipped = summary.skipped ∧
          respelled.session.fileSystem = outcome.session.fileSystem := by
  intro outcome respelled hfits
  have hthere (summary : Summary) (hok : outcome.result = .ok summary) := by
    refine exists_ok_respelled hlinks hspelled (fun pair hpair => ?_) hok
    rcases hfits pair hpair with ⟨hsecluded, hstart⟩ | ⟨hend, -⟩
    · exact hsecluded.fitsBelow hlinks hok hstart
    · exact hend
  refine ⟨⟨fun hok => ?_, fun hok => ?_⟩, hthere⟩
  · obtain ⟨summary, hok⟩ := hok
    have hfitsBack : ∀ pair ∈ roots.zip config.roots,
        (resolved fs { config with roots }).FitsBelow respelled.session.fileSystem.tree
          pair.1 pair.2 := by
      intro pair hpair
      have hswapped : (pair.2, pair.1) ∈ config.roots.zip roots :=
        Config.SpellsRoots.mem_zip_of_swapped hpair
      have hnames : pair.1.names = pair.2.names :=
        (hspelled.resembles_of_mem_zip hswapped).names_eq
      rcases hfits _ hswapped with ⟨hsecluded, hstart⟩ | ⟨-, hend⟩
      · have hsecludedBack : Secluded { config with roots } fs pair.1 := by
          refine ⟨?_, hsecluded.2⟩
          rw [hnames]
          exact hsecluded.1
        exact hsecludedBack.fitsBelow hlinks hok (hstart.symm hnames).withRoots
      · exact (hend.symm hnames).withRoots
    obtain ⟨too, hback, -⟩ := exists_ok_respelled hlinks hspelled.symm hfitsBack hok
    exact ⟨too, hback⟩
  · obtain ⟨summary, hok⟩ := hok
    obtain ⟨too, hrespelled, -⟩ := hthere summary hok
    exact ⟨too, hrespelled⟩

/-- The roots of `besideProject`, with a dot before the name and slashes after it. -/
def dottedRoots : List Path :=
  [Path.ofString "./src//"]

/-- The old export is replaced under both spellings. -/
theorem root_spelling_irrelevant_besideOld :
    let outcome := runExport besideProject (fun _ => true) besideOld
    let respelled := runExport { besideProject with roots := dottedRoots } (fun _ => true) besideOld
    outcome.result = .ok { written := 1 } ∧
      (∃ too, respelled.result = .ok too ∧ too.written = 1 ∧ too.skipped = 0) ∧
      respelled.session.fileSystem = outcome.session.fileSystem := by
  have hlinks : besideOld.tree.LinkFree := linkFree_of_entries (by decide +kernel)
  have hrespells : (Path.ofString "src").Respells (Path.ofString "./src//") :=
    ⟨⟨by decide +kernel, by decide +kernel⟩, ⟨by decide +kernel, by decide +kernel⟩,
      by decide +kernel, by decide +kernel, by decide +kernel, by decide +kernel⟩
  have hsolid : besideProject.Solid besideOld (Path.ofString "src").names := by
    refine ⟨by decide +kernel, by decide +kernel, fun entry hentry => ?_⟩
    have hold : besideOld.tree.get? (besideOld.place besideProject.destination ++
        (Path.ofString "src").names) = some .directory := by decide +kernel
    exact Option.some.inj (hentry.symm.trans hold)
  have hspelled : besideProject.SpellsRoots besideOld dottedRoots :=
    .cons (.inr ⟨hrespells, by decide +kernel, .inr hsolid⟩) .nil
  have hok : (runExport besideProject (fun _ => true) besideOld).result = .ok { written := 1 } :=
    eq_ok_of_toOption (by decide +kernel)
  have hfits : (resolved besideOld besideProject).FitsBelow besideOld.tree (Path.ofString "src")
      (Path.ofString "./src//") :=
    fitsBelow_of_entries (by decide +kernel) (by decide +kernel)
  have hsecluded : Secluded besideProject besideOld (Path.ofString "src") :=
    ⟨by decide +kernel, .inl (by decide +kernel)⟩
  have hzip : besideProject.roots.zip dottedRoots =
      [(Path.ofString "src", Path.ofString "./src//")] := rfl
  have hirrelevant := root_spelling_irrelevant (fun _ => true) hlinks hspelled
  dsimp only at hirrelevant ⊢
  rw [hzip, List.forall_mem_singleton] at hirrelevant
  obtain ⟨too, hrespelled, hwritten, hskipped, hsame⟩ :=
    (hirrelevant (.inl ⟨hsecluded, hfits⟩)).2 _ hok
  exact ⟨hok, ⟨too, hrespelled, hwritten, hskipped⟩, hsame⟩

/-- A dot at the end is allowed, and no directory can be created under that spelling. -/
theorem root_not_created_smallProject :
    let dotted := [Path.ofString "src/."]
    let outcome := runExport besideProject (fun _ => false) smallProject
    let respelled := runExport { besideProject with roots := dotted } (fun _ => false) smallProject
    smallProject.tree.LinkFree ∧ dotted.map Path.names = besideProject.roots.map Path.names ∧
      ({ besideProject with roots := dotted } : Config).validate = .ok () ∧
      smallProject.tree.get? (smallProject.place besideProject.baseDirectory ++
        (Path.ofString "src").names) = some .directory ∧
      outcome.result = .ok { written := 1 } ∧ respelled.result.isOk = false := by
  refine ⟨linkFree_of_entries (by decide), by decide +kernel, eq_ok_of_toOption (by decide +kernel),
    by decide +kernel, eq_ok_of_toOption (by decide +kernel), by decide +kernel⟩

end Export

end Snapshot
