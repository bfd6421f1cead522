import Snapshot.Proofs.Descents
import Snapshot.Proofs.Foresight
import Snapshot.Proofs.FreshExport
import Snapshot.Text.Utf8Order

/-!
# Scanning a directory

The system tells the entries of a directory in any order. Here a directory is scanned entry by entry
in the order in which they come, and what was found is put in order only then, by the components of
its paths. A listing is what comes of that, whatever the order was. With links as well it is told
exactly what a listing shows: an entry is asked about by the path of the directory and its name, so
it has what is left of the links and of the bytes that the system allows for one path.
-/

namespace Snapshot

/-- What components are compared by: the root comes before dots, and dots before names. -/
def Component.rank : Component → List UInt8
  | .root => [0]
  | .current => [1]
  | .parent => [2]
  | .name segment => 3 :: Utf8.encode segment.text.toList

/-- What paths are compared by, component after component. -/
def Path.rank (path : Path) : List (List UInt8) :=
  path.components.map Component.rank

namespace Listing

section Scan

variable (project : Project) (destination : Location) (fs : FileSystem) (directory : Path)

/-- The listing with one more entry of the directory. -/
def add (listing : Listing) (name : Segment) : Listing :=
  let place := (project.pathOf directory).join (.ofSegment name)
  let found := directory.join (.ofSegment name)
  if project.config.isIgnored name then listing
  else if fs.isFile place then { listing with files := listing.files ++ [found] }
  else if fs.isDirectory place then
    if fs.leadsInto destination place then listing
    else { listing with subdirectories := listing.subdirectories ++ [found] }
  else listing

def inOrder (listing : Listing) : Listing where
  files := listing.files.mergeSort fun left right => left.rank ≤ right.rank
  subdirectories := listing.subdirectories.mergeSort fun left right => left.rank ≤ right.rank

/-- Scans the entries in the order in which they come. -/
def scan (names : List Segment) : Listing :=
  (names.foldl (add project destination fs directory) { files := [], subdirectories := [] }).inOrder

end Scan

/-- Whether names follow one another in the order of their bytes, none of them twice. -/
def Increases (names : List Segment) : Prop :=
  names.Pairwise fun left right =>
    Utf8.encode left.text.toList < Utf8.encode right.text.toList

variable {project : Project} {destination : Location} {fs : FileSystem} {directory : Path}
  {listing : Listing} {names others : List Segment} {name : Segment}

/-! ## The order of what is found -/

theorem rank_join (hname : Hop.ofSegment name = .into name) :
    (directory.join (.ofSegment name)).rank =
      directory.rank ++ [3 :: Utf8.encode name.text.toList] := by
  rw [Path.rank, Path.components_join_ofSegment hname, List.map_append]
  rfl

/-- Paths in one directory are in the order of their names. -/
theorem rank_join_lt {first second : Segment} (hfirst : Hop.ofSegment first = .into first)
    (hsecond : Hop.ofSegment second = .into second) (h : first.text < second.text) :
    (directory.join (.ofSegment first)).rank < (directory.join (.ofSegment second)).rank := by
  rw [rank_join hfirst, rank_join hsecond]
  refine List.Lex.append_left _ (.rel (.cons ?_)) _
  exact Utf8.encode_lt_encode_iff.2 h

theorem rank_join_le {first second : Segment} (hfirst : Hop.ofSegment first = .into first)
    (hsecond : Hop.ofSegment second = .into second) (h : first.text ≤ second.text) :
    (directory.join (.ofSegment first)).rank ≤ (directory.join (.ofSegment second)).rank := by
  by_cases heq : first = second
  · rw [heq]
    exact List.le_refl _
  · have htexts : first.text ≠ second.text := fun heqTexts =>
      heq (Segment.eq_of_toList_eq (congrArg String.toList heqTexts))
    have hless : first.text < second.text :=
      Decidable.byContradiction fun hnot => htexts (String.le_antisymm h (String.not_lt.1 hnot))
    exact List.le_of_lt (rank_join_lt hfirst hsecond hless)

theorem eq_of_rank_join_eq {first second : Segment} (hfirst : Hop.ofSegment first = .into first)
    (hsecond : Hop.ofSegment second = .into second)
    (h : (directory.join (.ofSegment first)).rank = (directory.join (.ofSegment second)).rank) :
    first = second := by
  rw [rank_join hfirst, rank_join hsecond, List.append_cancel_left_eq, List.cons.injEq,
    List.cons.injEq] at h
  have hdecoded := congrArg Utf8.text? h.1.2
  rw [Utf8.text?_encode, Utf8.text?_encode] at hdecoded
  exact Segment.eq_of_toList_eq (Option.some.inj hdecoded)

theorem pairwise_mergeSort_rank (paths : List Path) :
    (paths.mergeSort fun left right => left.rank ≤ right.rank).Pairwise
      fun left right => left.rank ≤ right.rank := by
  refine (List.pairwise_mergeSort ?_ ?_ paths).imp fun hle => by simpa using hle
  · intro first second third hfirst hsecond
    simp only [decide_eq_true_eq] at hfirst hsecond ⊢
    exact List.le_trans hfirst hsecond
  · intro first second
    simpa using List.le_total first.rank second.rank

/-- The names can be put in order first and made to paths then, and in whatever order they came. -/
theorem mergeSort_map_join (hplain : ∀ name ∈ names, Hop.ofSegment name = .into name)
    (hperm : names.Perm others) (shown : Segment → Bool) :
    ((names.filter shown).map fun name => directory.join (.ofSegment name)).mergeSort
        (fun left right => left.rank ≤ right.rank) =
      ((sorted others).filter shown).map fun name => directory.join (.ofSegment name) := by
  have hothers : ∀ name ∈ sorted others, Hop.ofSegment name = .into name := fun name hname =>
    hplain name (hperm.mem_iff.2 (List.mem_mergeSort.1 hname))
  refine List.Perm.eq_of_pairwise ?_ (pairwise_mergeSort_rank _) ?_
    ((List.mergeSort_perm _ _).trans
      (((hperm.trans (List.mergeSort_perm others _).symm).filter _).map _))
  · intro left right hleft hright hle hge
    obtain ⟨first, hfirst, rfl⟩ := List.mem_map.1 (List.mem_mergeSort.1 hleft)
    obtain ⟨second, hsecond, rfl⟩ := List.mem_map.1 hright
    rw [eq_of_rank_join_eq (hplain _ (List.mem_filter.1 hfirst).1)
      (hothers _ (List.mem_filter.1 hsecond).1) (List.le_antisymm hle hge)]
  · refine List.pairwise_map.2 (((pairwise_sorted others).filter _).imp_of_mem ?_)
    intro first second hfirst hsecond hle
    exact rank_join_le (hothers _ (List.mem_filter.1 hfirst).1)
      (hothers _ (List.mem_filter.1 hsecond).1) hle

/-! ## The scan -/

theorem isDirectory_of_isFile {path : Path} (h : fs.isFile path = true) :
    fs.isDirectory path = false := by
  unfold FileSystem.isFile at h
  unfold FileSystem.isDirectory
  split at h
  · next hentry => rw [hentry]
  · cases h

/-- What has been scanned is what was kept of the names, in the order in which they came. -/
theorem foldl_add (names : List Segment) (listing : Listing) :
    let place (name : Segment) : Path := (project.pathOf directory).join (.ofSegment name)
    names.foldl (add project destination fs directory) listing =
      { files := listing.files ++ ((names.filter fun name =>
          fs.isFile (place name) && !project.config.isIgnored name).map
            fun name => directory.join (.ofSegment name))
        subdirectories := listing.subdirectories ++ ((names.filter fun name =>
          fs.isDirectory (place name) && !fs.leadsInto destination (place name) &&
            !project.config.isIgnored name).map
              fun name => directory.join (.ofSegment name)) } := by
  intro place
  induction names generalizing listing with
  | nil => simp
  | cons name names ih =>
      rw [List.foldl_cons, ih, add]
      cases hignored : project.config.isIgnored name with
      | true => simp [hignored]
      | false =>
          cases hfile : fs.isFile (place name) with
          | true =>
              have hdirectory := isDirectory_of_isFile hfile
              simp [hignored, hfile, hdirectory, place]
          | false =>
              cases hdirectory : fs.isDirectory (place name) with
              | false => simp [hignored, hfile, hdirectory, place]
              | true =>
                  cases hinto : fs.leadsInto destination (place name) with
                  | true => simp [hignored, hfile, hdirectory, hinto, place]
                  | false => simp [hignored, hfile, hdirectory, hinto, place]

/-- In whatever order the entries come, the scan ends with the same listing. -/
theorem scan_eq_ofNames (hplain : ∀ name ∈ names, Hop.ofSegment name = .into name)
    (hperm : names.Perm others) :
    scan project destination fs directory names =
      ofNames project destination fs directory others := by
  rw [scan, foldl_add, inOrder, ofNames]
  simp only [List.nil_append, mergeSort_map_join hplain hperm, List.filter_filter]

end Listing

/-! ## Entries of a directory -/

namespace FileSystem

variable {fs : FileSystem} {path : Path} {location place : Location} {name : Segment}
  {entry : Entry} {used : Nat}

/-- What a name in a directory comes to, with all links followed, if the system can follow the path
of the directory with the name added to it. The way to the directory leaves only some links. -/
def ComesTo (fs : FileSystem) (path : Path) (links : Nat) (location : Location) (name : Segment)
    (place : Location) (entry : Entry) : Prop :=
  (path.join (.ofSegment name)).size ≤ Path.maxSize ∧
    fs.tree.walk .follow links location [.into name] = .ok (.taken place entry)

theorem find_join_iff (habsolute : path.isAbsolute) (hnul : path.hasNul = false)
    (hleads : fs.tree.Leads [] path.hops used location) (hused : used ≤ linkLimit)
    (hname : name.IsName) :
    fs.find .follow (path.join (.ofSegment name)) = .ok (place, entry) ↔
      fs.ComesTo path (linkLimit - used) location name place entry := by
  have hrelative : (Path.ofSegment name).isAbsolute = false := rfl
  have hjoin : (path.join (.ofSegment name)).isAbsolute = true := by
    rw [(Path.body_join path hrelative).1, habsolute]
  have hjoinNul : (path.join (.ofSegment name)).hasNul = false := by
    rw [Path.hasNul_join hrelative, hnul, Bool.false_or]
    simpa [Path.hasNul, Path.ofSegment] using hname.nulFree
  obtain ⟨front, hfront, hway⟩ := FileTree.exists_leads_join hrelative hleads
  rw [find_eq_ok_iff, locate_eq_ok_iff_of_isAbsolute hjoin, hfront,
    Path.hops_ofSegment hname.ofSegment_eq, ComesTo, ← Nat.add_sub_cancel' hused,
    hway.walk_append (List.cons_ne_nil _ _) (.inl rfl), Nat.add_sub_cancel' hused]
  simp [hjoinNul]

/-- A directory is not told to be inside another one if its location cannot be spelled. -/
theorem leadsInto_eq_false_iff (hcurrent : (path.isAbsolute || fs.hasCurrent) = true)
    (h : fs.find .follow path = .ok (place, entry)) :
    fs.leadsInto location path = false ↔
      (location <+: place → fs.canonicalize path = .error .nameTooLong) := by
  unfold leadsInto
  rcases canonicalize_of_find_follow hcurrent h with hcanonical | hcanonical
  · simp [hcanonical]
  · simp [hcanonical]

end FileSystem

namespace Listing

variable {project : Project} {destination location : Location} {fs : FileSystem} {directory : Path}

theorem increases_of_sorted {names : List Segment} (hnodup : names.Nodup)
    (hsorted : names.Pairwise fun left right => left.text ≤ right.text) : Increases names := by
  refine (hnodup.and hsorted).imp fun ⟨hne, hle⟩ => ?_
  refine Utf8.encode_lt_encode_iff.2 (Decidable.byContradiction fun hnot => hne ?_)
  have htexts := String.le_antisymm hle (String.not_lt.1 hnot)
  exact Segment.eq_of_toList_eq (congrArg String.toList htexts)

/-- A directory of the project is listed, whatever links there are, and in whatever order the system
tells its entries a scan comes to the same listing. The listing has the paths of the directory with
names added, strictly in the order of their bytes, and none both as a file and as a directory. These
are, among the names that are not left out, exactly those that come to regular files, and those that
come to directories whose locations, as far as they can be spelled, are not in the destination. -/
theorem read_partitions
    (hfound : fs.find .follow (project.pathOf directory) = .ok (location, .directory)) :
    ∃ listing files subdirectories, ∃ used ≤ linkLimit,
      read project destination fs directory = .ok listing ∧
      (∀ names, names.Perm (fs.tree.names location) →
        scan project destination fs directory names = listing) ∧
      listing.files = files.map (fun name => directory.join (.ofSegment name)) ∧
      listing.subdirectories = subdirectories.map (fun name => directory.join (.ofSegment name)) ∧
      Increases files ∧ Increases subdirectories ∧ files.Disjoint subdirectories ∧
      fs.tree.Leads [] (project.pathOf directory).hops used location ∧
      (∀ name, name ∈ files ↔
        name ∈ fs.tree.names location ∧ project.config.isIgnored name = false ∧
          ∃ place content, fs.ComesTo (project.pathOf directory) (linkLimit - used) location name
            place (.file content)) ∧
      ∀ name, name ∈ subdirectories ↔
        name ∈ fs.tree.names location ∧ project.config.isIgnored name = false ∧
          ∃ place, fs.ComesTo (project.pathOf directory) (linkLimit - used) location name
              place .directory ∧
            (destination <+: place →
              fs.canonicalize ((project.pathOf directory).join (.ofSegment name)) =
                .error .nameTooLong) := by
  have habsolute := project.isAbsolute_pathOf directory
  obtain ⟨hnul, -, hwalk⟩ := (FileSystem.locate_eq_ok_iff_of_isAbsolute habsolute).1
    (FileSystem.find_eq_ok_iff.1 hfound)
  obtain ⟨used, hused, hleads⟩ := FileTree.leads_of_walk hwalk
  have hlist : fs.list (project.pathOf directory) = .ok (fs.tree.names location) := by
    rw [FileSystem.list, hfound]
    rfl
  have hentry {name : Segment} (hname : name ∈ fs.tree.names location) {place : Location}
      {entry : Entry} :
      fs.find .follow ((project.pathOf directory).join (.ofSegment name)) = .ok (place, entry) ↔
        fs.ComesTo (project.pathOf directory) (linkLimit - used) location name place entry :=
    FileSystem.find_join_iff habsolute hnul hleads hused (FileTree.isName_of_mem_names hname)
  have hjoin (name : Segment) :
      (((project.pathOf directory).join (.ofSegment name)).isAbsolute || fs.hasCurrent) = true := by
    rw [(Path.body_join _ rfl).1, habsolute, Bool.true_or]
  have hincreases (shown : Segment → Bool) :
      Increases (((sorted (fs.tree.names location)).filter
        fun name => !project.config.isIgnored name).filter shown) :=
    increases_of_sorted (((List.nodup_mergeSort.2 FileTree.nodup_names).filter _).filter _)
      (((pairwise_sorted _).filter _).filter _)
  refine ⟨ofNames project destination fs directory (fs.tree.names location), _, _, used, hused,
    by rw [read, hlist], fun names hperm => scan_eq_ofNames (fun name hname => ?_) hperm, rfl, rfl,
    hincreases _, hincreases _, fun name hfile hsubdirectory => ?_, hleads, fun name => ?_,
    fun name => ?_⟩
  · exact (FileTree.isName_of_mem_names (hperm.mem_iff.1 hname)).ofSegment_eq
  · obtain ⟨-, -, hfile⟩ := mem_filter_sorted.1 hfile
    obtain ⟨-, -, hshown⟩ := mem_filter_sorted.1 hsubdirectory
    rw [isDirectory_of_isFile hfile, Bool.false_and] at hshown
    cases hshown
  · rw [mem_filter_sorted]
    refine and_congr_right fun hname => and_congr_right fun _ => ?_
    simp only [FileSystem.isFile_iff_find (hjoin name), hentry hname]
  · rw [mem_filter_sorted]
    refine and_congr_right fun hname => and_congr_right fun _ => ?_
    rw [Bool.and_eq_true, Bool.not_eq_true', FileSystem.isDirectory_iff_find (hjoin name)]
    constructor
    · rintro ⟨⟨place, hplace⟩, houtside⟩
      exact ⟨place, (hentry hname).1 hplace,
        (FileSystem.leadsInto_eq_false_iff (hjoin name) hplace).1 houtside⟩
    · rintro ⟨place, hplace, houtside⟩
      have hplace := (hentry hname).2 hplace
      exact ⟨⟨place, hplace⟩, (FileSystem.leadsInto_eq_false_iff (hjoin name) hplace).2 houtside⟩

/-- A project with links in its directory `src`: one to a regular file there, and one to the
destination. -/
def linkedProject : FileSystem :=
  .ofTree
    { entries :=
        [(.ofString "p/src/old", .link (Path.ofString "../../out/.")),
          (.ofString "p/src/b.c", .file [0x78, 0x0A]),
          (.ofString "p/src/lib", .directory),
          (.ofString "p/src/a.c", .link (Path.ofString "./b.c")),
          (.ofString "p/src/b.c~", .file []),
          (.ofString "p/src", .directory), (.ofString "p", .directory),
          (.ofString "out", .directory)]
      wellFormed := ⟨by decide +kernel, by decide +kernel, by decide +kernel, by decide +kernel⟩ }
    []

/-- The link to a file is shown as a file, and the destination is not shown. -/
theorem read_partitions_linkedProject :
    let project : Project := { config := Export.besideProject, base := .ofString "p" }
    let directory := Path.ofString "src"
    linkedProject.find .follow (project.pathOf directory) = .ok (.ofString "p/src", .directory) ∧
      ∀ names, names.Perm (linkedProject.tree.names (.ofString "p/src")) →
        scan project (.ofString "out") linkedProject directory names =
          { files := [Path.ofString "src/a.c", Path.ofString "src/b.c"]
            subdirectories := [Path.ofString "src/lib"] } := by
  intro project directory
  have hfound : linkedProject.find .follow (project.pathOf directory) =
      .ok (.ofString "p/src", .directory) := eq_ok_of_toOption (by decide +kernel)
  obtain ⟨listing, files, subdirectories, used, hused, hread, hscan, -⟩ :=
    @read_partitions project (.ofString "out") _ _ _ hfound
  have hnames : sorted (linkedProject.tree.names (.ofString "p/src")) =
      [{ text := "a.c" }, { text := "b.c" }, { text := "b.c~" }, { text := "lib" },
        { text := "old" }] := by
    refine (sorted_eq_of_perm (by decide +kernel)).trans (List.mergeSort_of_pairwise ?_)
    decide +kernel
  have hlist : linkedProject.list (project.pathOf directory) =
      .ok (linkedProject.tree.names (.ofString "p/src")) := by
    rw [FileSystem.list, hfound]
    rfl
  have hlisting : listing = { files := [Path.ofString "src/a.c", Path.ofString "src/b.c"]
                              subdirectories := [Path.ofString "src/lib"] } := by
    simp only [read, hlist, ofNames, hnames] at hread
    rw [← Except.ok.inj hread]
    decide +kernel
  exact ⟨hfound, fun names hperm => (hscan names hperm).trans hlisting⟩

/-- A regular file is not shown if the path by which it is asked about is too long. -/
theorem file_unlisted_slashedProject :
    let project := (Export.resolved Export.smallProject Export.slashedProject).toProject
    let place : Location := .ofString "p/src"
    let name : Segment := { text := "main.c" }
    Export.smallProject.find .follow (project.pathOf Export.slashedRoot) =
        .ok (place, .directory) ∧
      name ∈ Export.smallProject.tree.names place ∧ project.config.isIgnored name = false ∧
      Export.smallProject.tree.get? (place ++ [name]) = some (.file [0x78, 0x0A]) ∧
      read project (.ofString "out") Export.smallProject Export.slashedRoot =
        .ok { files := [], subdirectories := [] } :=
  ⟨eq_ok_of_toOption (by decide +kernel), by decide +kernel, by decide +kernel, by decide +kernel,
    eq_ok_of_toOption (by decide +kernel)⟩

end Listing

end Snapshot
