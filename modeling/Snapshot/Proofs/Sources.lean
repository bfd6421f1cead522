import Snapshot.Proofs.Walks

/-!
# What an export leaves of the project

An export changes a tree at few places: those of the roots in the destination, what is below them,
and the record of the version. Whatever stands elsewhere is there after it, however it ends. The
check of the destination sees to it that no place of a root is above the project. That is enough for
the files of the project if every root is a single name; a root of several names can have its place
in the project although the project is not below it, and then its files are removed.
-/

namespace Snapshot

open ExportM FileTree Export

namespace Export

variable {fs : FileSystem} {config : Config} {confirm : Path → Bool} {place : Location}
  {entry : Entry} {content : List UInt8}

/-- Whether an export can change a place in the tree, apart from adding a directory there. -/
structure Spares (job : Export) (place : Location) : Prop where
  root : ∀ root ∈ job.config.roots, ¬job.target ++ root.names <+: place
  record : place ≠ job.placeOf versionFile

theorem Spares.ne_placeOf {job : Export} (h : job.Spares place) {path : Path}
    (hpath : job.Visits path) : place ≠ job.placeOf path := by
  obtain ⟨-, root, hmem, above, habove⟩ := hpath
  rintro rfl
  refine h.root root hmem ⟨above, ?_⟩
  rw [placeOf, ← habove, List.append_assoc]

theorem perform_keeps (confirm : Path → Bool) (hlinks : fs.tree.LinkFree)
    (hentry : fs.tree.get? place = some entry)
    (hspares : (resolved fs config).Accepts fs → (resolved fs config).Spares place) :
    Ensures (At fs {}) (perform config confirm)
      (fun _ session => session.fileSystem.tree.get? place = some entry)
      (fun _ session => session.fileSystem.tree.get? place = some entry) := by
  apply perform_ensures hlinks
  · intro report session hreadied
    rcases hreadied.accepts_or_eq with haccepts | heq
    · exact hreadied.keeps hentry (hspares haccepts).root
    · rw [heq, hentry]
  · intro start hdescent
    apply Ensures.of_start
    intro session hbegins
    have hspares := hspares hbegins.ready.accepts
    have hkeeps : (resolved fs config).Keeps (resolved fs config).Visits
        (Settled start fun tree => tree.get? place = some entry)
        (fun _ => Settled start fun tree => tree.get? place = some entry) := by
      apply keeps_settled (fs.isPlain_place _)
      · intro before after path _ hadded hbefore
        exact hadded.keeps hbefore
      · intro before after path content out _ hpath hcopied hbefore
        by_cases hout : out = []
        · rw [hcopied.unchanged hout, hbefore]
        · exact (hcopied.written hout).keeps (hspares.ne_placeOf hpath) hbefore
    have hroots := hkeeps.exportRoots (visits_root _ hdescent)
    have hversion : Ensures (Settled start fun tree => tree.get? place = some entry)
        (resolved fs config).writeVersion
        (fun _ session => session.fileSystem.tree.get? place = some entry)
        (fun _ => Settled start fun tree => tree.get? place = some entry) :=
      writeVersion_settled (· = some entry) (fs.isPlain_place _) hspares.record fun _ h => h
    refine (exportRoots_ensures hroots hversion fun _ _ h => h).imp ?_ ?_ ?_
    · rintro _ rfl
      exact ⟨hbegins.ready.linkFree hlinks, hbegins.current,
        hbegins.ready.keeps hentry hspares.root⟩
    · exact fun _ _ h => h.1
    · exact fun _ _ h => h.holds

theorem runExport_keeps (hlinks : fs.tree.LinkFree) (hentry : fs.tree.get? place = some entry)
    (hspares : (resolved fs config).Accepts fs → (resolved fs config).Spares place) :
    (runExport config confirm fs).session.fileSystem.tree.get? place = some entry := by
  have hrun := runExport_ensures (perform_keeps confirm hlinks hentry hspares)
  split at hrun
  · exact hrun
  · exact hrun

/-- A file at or below one of the roots of a project. -/
structure IsSource (fs : FileSystem) (config : Config) (place : Location)
    (content : List UInt8) : Prop where
  below : ∃ root ∈ config.roots, fs.place config.baseDirectory ++ root.names <+: place
  file : fs.tree.get? place = some (.file content)

/-- A project `p` with one file, in the directory that an export starts in. -/
def smallProject : FileSystem :=
  .ofTree
    { entries :=
        [(.ofString "p/src/main.c", .file [0x78, 0x0A]),
          (.ofString "p/src", .directory), (.ofString "p", .directory)]
      wellFormed := ⟨by decide +kernel, by decide +kernel, by decide +kernel, by decide +kernel⟩ }
    []

def besideProject : Config where
  baseDirectory := Path.ofString "p"
  destination := Path.ofString "out"
  roots := [Path.ofString "src"]

/-! ## Roots of one name -/

/-- A destination that is no less deep than the project holds nothing of a root of one name. -/
theorem not_prefix_of_accepts (hlinks : fs.tree.LinkFree)
    (haccepts : (resolved fs config).Accepts fs) {root : Path} (hroot : root ∈ config.roots)
    (hdescent : root.IsDescent) {first : Segment} (hsingle : root.names = [first])
    (hsize : (fs.place config.baseDirectory ++ root.names).size ≤ Path.maxSize)
    (hbelow : fs.place config.baseDirectory ++ root.names <+: place)
    (hentry : fs.tree.get? place = some entry)
    (hdepth : (fs.place config.baseDirectory).length ≤ (fs.place config.destination).length)
    (name : Segment) : ¬fs.place config.destination ++ [name] <+: place := by
  intro hplace
  have hdestination : fs.place config.destination <+: place :=
    (List.prefix_append _ _).trans hplace
  rcases Nat.eq_or_lt_of_le hdepth with heq | hlt
  · -- as deep as the project: it is the project
    have hbase : fs.place config.baseDirectory <+: place := (List.prefix_append _ _).trans hbelow
    have habove := List.prefix_of_prefix_length_le hbase hdestination hdepth
    exact haccepts.ne_base (habove.eq_of_length heq).symm
  · -- deeper than the project: it is in the root
    have hinside : fs.place config.baseDirectory ++ root.names <+:
        fs.place config.destination := by
      apply List.prefix_of_prefix_length_le hbelow hdestination
      rw [List.length_append, hsingle]
      exact hlt
    refine haccepts.not_inside hlinks (fs.isPlain_place _) hroot hdescent.goesDown.1 hsize ?_
      hinside
    obtain ⟨way, hway⟩ := hinside
    obtain ⟨rest, hrest⟩ := hplace
    rw [← hrest, ← hway, List.append_assoc, List.append_assoc] at hentry
    cases way with
    | nil => exact get?_of_get?_append hentry
    | cons next way => exact get?_of_get?_append hentry

/-- With roots of one name the check is enough, as long as the system can spell their places. -/
theorem spares_of_single_names (hlinks : fs.tree.LinkFree)
    (hsource : IsSource fs config place content)
    (hsingle : ∀ root ∈ config.roots, root.IsDescent ∧ ∃ name, root.names = [name])
    (hsize : ∀ root ∈ config.roots,
      (fs.place config.baseDirectory ++ root.names).size ≤ Path.maxSize)
    (haccepts : (resolved fs config).Accepts fs) : (resolved fs config).Spares place := by
  obtain ⟨root, hroot, hbelow⟩ := hsource.below
  obtain ⟨hdescent, first, hfirst⟩ := hsingle root hroot
  have hbase : fs.place config.baseDirectory <+: place := (List.prefix_append _ _).trans hbelow
  have hdeep := not_prefix_of_accepts hlinks haccepts hroot hdescent hfirst (hsize root hroot)
    hbelow hsource.file
  constructor
  · intro other hother hplace
    obtain ⟨-, name, hname⟩ := hsingle other hother
    rcases Nat.lt_or_ge (fs.place config.destination).length
        (fs.place config.baseDirectory).length with hlt | hdepth
    · refine haccepts.spares other hother (List.prefix_of_prefix_length_le hplace hbase ?_)
      rw [List.length_append, hname]
      exact hlt
    · exact hdeep hdepth name (hname ▸ hplace)
  · intro hrecord
    have hversion : versionFile.names = [{ text := ".version" }] := by decide
    rw [placeOf, hversion] at hrecord
    refine hdeep ?_ _ ⟨[], (List.append_nil _).trans hrecord.symm⟩
    have hlength := hbelow.length_le
    rw [hrecord, hfirst, List.length_append, List.length_append] at hlength
    exact Nat.le_of_succ_le_succ hlength

end Export

end Snapshot
