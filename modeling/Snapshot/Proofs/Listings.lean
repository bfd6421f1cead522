import Mathlib.Data.List.Nodup
import Snapshot.Export.Listing
import Snapshot.Path.Lemmas
import Snapshot.Proofs.Lookup

/-!
# What a listing shows

An export goes down from a path by adding names to it, one at a time. `Path.extend` adds some names
at once. A listing of a directory gives the paths of the files and directories right in it, each
once, and it is said here which these are where there are no links.
-/

namespace Snapshot

namespace Path

/-- The path with names added at its end. -/
def extend (path : Path) (names : List Segment) : Path :=
  names.foldl (fun path name => path.join (.ofSegment name)) path

variable {path left right : Path} {name : Segment} {names below : List Segment}

@[simp] theorem extend_nil : path.extend [] = path := rfl

@[simp] theorem extend_cons :
    path.extend (name :: names) = (path.join (.ofSegment name)).extend names := rfl

theorem extend_concat :
    path.extend (names ++ [name]) = (path.extend names).join (.ofSegment name) :=
  List.foldl_concat ..

theorem goesDown_extend (h : path.GoesDown) (hnames : Location.IsPlain names) :
    (path.extend names).GoesDown ∧ (path.extend names).names = path.names ++ names := by
  induction names generalizing path with
  | nil => exact ⟨h, by simp⟩
  | cons name names ih =>
      obtain ⟨hjoin, hjoinNames⟩ := goesDown_join_ofSegment h (hnames name List.mem_cons_self)
      obtain ⟨hextend, heq⟩ := ih hjoin fun later hmem => hnames later (List.mem_cons_of_mem _ hmem)
      refine ⟨hextend, ?_⟩
      rw [extend_cons, heq, hjoinNames, ← List.append_cons]

theorem endsInName_join_ofSegment (hname : Hop.ofSegment name = .into name) :
    (left.join (.ofSegment name)).EndsInName := by
  have hsegment : (ofSegment name).isAbsolute = false := rfl
  obtain ⟨front, hjoin, -⟩ := exists_hops_join left hsegment
  exact ⟨name, by simp [hjoin, hops_ofSegment hname]⟩

theorem openEnd_join (h : right.isAbsolute = false) :
    (left.join right).openEnd = left.openEnd ++ right.openEnd := by
  rw [openEnd, segments_join h, List.getLast?_append_of_ne_nil _ right.nonempty]
  split
  · next hlast =>
      have hright : right.openEnd = right.segments.dropLast := if_pos hlast
      rw [List.dropLast_append_of_ne_nil right.nonempty, hright]
  · next hlast =>
      have hright : right.openEnd = right.segments := if_neg hlast
      rw [hright]

/-- A name can be added to a path before or after the path is added to another one. -/
theorem join_join_ofSegment (h : right.isAbsolute = false) :
    (left.join right).join (.ofSegment name) = left.join (right.join (.ofSegment name)) := by
  have hsegment : (ofSegment name).isAbsolute = false := rfl
  have hjoin : (right.join (.ofSegment name)).isAbsolute = false := by
    rw [(body_join right hsegment).1, h]
  apply ext_segments
  rw [segments_join hsegment, segments_join hjoin, segments_join hsegment, openEnd_join h,
    List.append_assoc]

/-- A name makes a path longer, although a slash at its end is not doubled. -/
theorem size_add_le_size_join_ofSegment :
    left.size + name.text.utf8ByteSize ≤ (left.join (.ofSegment name)).size := by
  have hjoin : (left.join (.ofSegment name)).segments = left.openEnd ++ [name] :=
    segments_join rfl
  have hopen : Segment.sizeWithSlashes left.segments ≤
      Segment.sizeWithSlashes left.openEnd + 1 := by
    unfold openEnd
    split
    · next hlast =>
        obtain ⟨init, hinit⟩ := List.getLast?_eq_some_iff.1 hlast
        simp [hinit, FileTree.sizeWithSlashes_append, Segment.sizeWithSlashes, Segment.empty]
    · exact Nat.le_succ _
  simp only [size, hjoin, FileTree.sizeWithSlashes_append, Segment.sizeWithSlashes]
  omega

theorem size_le_size_join_ofSegment : left.size ≤ (left.join (.ofSegment name)).size :=
  Nat.le_trans (Nat.le_add_right _ _) size_add_le_size_join_ofSegment

end Path

namespace Project

variable {project : Project} {tree : FileTree} {path : Path} {name : Segment}
  {names : List Segment} {entry : Entry}

theorem isAbsolute_pathOf (project : Project) (path : Path) :
    (project.pathOf path).isAbsolute = true :=
  Path.isAbsolute_ofLocation_join

/-- What leads from the root to a path of the project and never goes up. -/
theorem pathOf_goesDown (hbase : project.base.IsPlain) (hpath : path.GoesDown) :
    (project.pathOf path).isAbsolute = true ∧ Hop.up ∉ (project.pathOf path).hops ∧
      (project.pathOf path).names = project.base ++ path.names :=
  ⟨project.isAbsolute_pathOf path, Path.up_not_mem_ofLocation_join hbase hpath,
    Path.names_ofLocation_join hbase hpath⟩

theorem pathOf_join (hpath : path.GoesDown) :
    (project.pathOf path).join (.ofSegment name) =
      project.pathOf (path.join (.ofSegment name)) :=
  Path.join_join_ofSegment hpath.relative

theorem names_pathOf_join (hbase : project.base.IsPlain) (hpath : path.GoesDown)
    (hname : Hop.ofSegment name = .into name) :
    (project.pathOf (path.join (.ofSegment name))).names =
      (project.pathOf path).names ++ [name] := by
  obtain ⟨hjoin, hnames⟩ := Path.goesDown_join_ofSegment hpath hname
  rw [(pathOf_goesDown hbase hjoin).2.2, (pathOf_goesDown hbase hpath).2.2, hnames,
    List.append_assoc]

/-- What is found under a longer path is found in directories under the shorter ones. -/
theorem finds_directory_of_join (hbase : project.base.IsPlain) (hpath : path.GoesDown)
    (hname : Hop.ofSegment name = .into name)
    (h : tree.Finds (project.pathOf (path.join (.ofSegment name))) entry) :
    tree.Finds (project.pathOf path) .directory where
  size_le := by
    have hsize := h.size_le
    rw [← pathOf_join hpath] at hsize
    exact Nat.le_trans Path.size_le_size_join_ofSegment hsize
  get? := by
    have hget := h.get?
    rw [names_pathOf_join hbase hpath hname] at hget
    exact FileTree.get?_of_get?_append hget
  ends := .inl rfl

theorem finds_directory_of_extend (hbase : project.base.IsPlain) (hpath : path.GoesDown)
    (hnames : Location.IsPlain (name :: names))
    (h : tree.Finds (project.pathOf (path.extend (name :: names))) entry) :
    tree.Finds (project.pathOf path) .directory := by
  induction names generalizing path name with
  | nil => exact finds_directory_of_join hbase hpath (hnames name List.mem_cons_self) h
  | cons next names ih =>
      have hname := hnames name List.mem_cons_self
      have hjoin := (Path.goesDown_join_ofSegment hpath hname).1
      have hrest : Location.IsPlain (next :: names) :=
        fun later hmem => hnames later (List.mem_cons_of_mem _ hmem)
      exact finds_directory_of_join hbase hpath hname (ih hjoin hrest h)

/-- A path with names added ends in the last of them. -/
theorem endsInName_pathOf_extend (hpath : path.GoesDown)
    (hnames : Location.IsPlain (name :: names)) :
    (project.pathOf (path.extend (name :: names))).EndsInName := by
  have hname := hnames name List.mem_cons_self
  induction names generalizing path name with
  | nil =>
      rw [Path.extend_cons, Path.extend_nil, ← pathOf_join hpath]
      exact Path.endsInName_join_ofSegment hname
  | cons next names ih =>
      have hrest : Location.IsPlain (next :: names) :=
        fun later hmem => hnames later (List.mem_cons_of_mem _ hmem)
      exact ih (Path.goesDown_join_ofSegment hpath hname).1 hrest (hrest next List.mem_cons_self)

/-- What stands at a place below a path is found, if the system can follow the path to it. -/
theorem finds_extend (hbase : project.base.IsPlain) (hpath : path.GoesDown)
    (hget : tree.get? (project.base ++ (path.names ++ name :: names)) = some entry)
    (hsize : (project.pathOf (path.extend (name :: names))).size ≤ Path.maxSize) :
    tree.Finds (project.pathOf (path.extend (name :: names))) entry := by
  have hplain : Location.IsPlain (name :: names) := FileTree.isPlain_below hget
  obtain ⟨hextend, hnames⟩ := Path.goesDown_extend hpath hplain
  refine ⟨hsize, ?_, .inr (endsInName_pathOf_extend hpath hplain)⟩
  rw [(pathOf_goesDown hbase hextend).2.2, hnames]
  exact hget

end Project

/-! ## Listings -/

namespace FileTree

variable {tree : FileTree} {location : Location}

theorem nodup_names : (tree.names location).Nodup := by
  have hnames : tree.names location = (tree.entries.map Prod.fst).filterMap location.nameIn? := by
    rw [List.filterMap_map]
    rfl
  rw [hnames]
  refine tree.wellFormed.nodup.filterMap fun first second name hfirst hsecond => ?_
  rw [nameIn?_eq_some_iff.1 hfirst, nameIn?_eq_some_iff.1 hsecond]

theorem isName_of_mem_names {name : Segment} (h : name ∈ tree.names location) : name.IsName := by
  rw [mem_names_iff, Option.isSome_iff_exists] at h
  obtain ⟨entry, hentry⟩ := h
  exact isName_of_get? hentry

end FileTree

namespace Listing

/-- The names in a directory of the project that a listing shows as files and as directories. -/
structure Shows (listing : Listing) (project : Project) (destination : Location) (fs : FileSystem)
    (directory : Path) (files subdirectories : List Segment) : Prop where
  files_eq : listing.files = files.map fun name => directory.join (.ofSegment name)
  subdirectories_eq :
    listing.subdirectories = subdirectories.map fun name => directory.join (.ofSegment name)
  nodup_files : files.Nodup
  nodup_subdirectories : subdirectories.Nodup
  mem_files : ∀ name, name ∈ files ↔
    name.IsName ∧ project.config.isIgnored name = false ∧
      ∃ content, fs.tree.Finds (project.pathOf (directory.join (.ofSegment name))) (.file content)
  mem_subdirectories : ∀ name, name ∈ subdirectories ↔
    name.IsName ∧ project.config.isIgnored name = false ∧
      fs.tree.Finds (project.pathOf (directory.join (.ofSegment name))) .directory ∧
      fs.leadsInto destination (project.pathOf (directory.join (.ofSegment name))) = false
  sorted_files : files.Pairwise fun left right => left.text ≤ right.text
  sorted_subdirectories : subdirectories.Pairwise fun left right => left.text ≤ right.text

variable {project : Project} {destination : Location} {fs : FileSystem} {directory : Path}
  {listing : Listing}

theorem pairwise_sorted (names : List Segment) :
    (sorted names).Pairwise fun left right => left.text ≤ right.text := by
  refine (List.pairwise_mergeSort ?_ ?_ names).imp fun hle => by simpa using hle
  · intro first second third hfirst hsecond
    simp only [decide_eq_true_eq] at hfirst hsecond ⊢
    exact String.le_trans hfirst hsecond
  · intro first second
    simpa using String.le_total first.text second.text

/-- The order in which the names were found does not matter. -/
theorem sorted_eq_of_perm {names others : List Segment} (h : names.Perm others) :
    sorted names = sorted others := by
  have hperm : (sorted names).Perm (sorted others) :=
    ((List.mergeSort_perm names _).trans h).trans (List.mergeSort_perm others _).symm
  refine hperm.eq_of_pairwise (fun first second _ _ hle hge => ?_) (pairwise_sorted _)
    (pairwise_sorted _)
  obtain ⟨text, hfree⟩ := first
  obtain rfl := String.le_antisymm hle hge
  rfl

theorem mem_filter_sorted {names : List Segment} {name : Segment} {shown : Segment → Bool} :
    name ∈ ((sorted names).filter fun name => !project.config.isIgnored name).filter shown ↔
      name ∈ names ∧ project.config.isIgnored name = false ∧ shown name = true := by
  simp only [sorted, List.mem_filter, List.mem_mergeSort, Bool.not_eq_true', and_assoc]

theorem mem_names_of_finds (hbase : project.base.IsPlain) (hdirectory : directory.GoesDown)
    {name : Segment} {entry : Entry} (hname : name.IsName)
    (h : fs.tree.Finds (project.pathOf (directory.join (.ofSegment name))) entry) :
    name ∈ fs.tree.names (project.pathOf directory).names := by
  have hget := h.get?
  rw [Project.names_pathOf_join hbase hdirectory hname.ofSegment_eq] at hget
  rw [FileTree.mem_names_iff, hget]
  rfl

/-- What can be listed is a directory, and the listing shows what stands right in it. -/
theorem read_eq_ok (hlinks : fs.tree.LinkFree) (hbase : project.base.IsPlain)
    (hdirectory : directory.GoesDown) (h : read project destination fs directory = .ok listing) :
    fs.tree.Finds (project.pathOf directory) .directory ∧
      ∃ files subdirectories,
        listing.Shows project destination fs directory files subdirectories := by
  obtain ⟨habsolute, hup, -⟩ := Project.pathOf_goesDown hbase hdirectory
  have hplace {name : Segment} (hname : name.IsName) :=
    Project.pathOf_goesDown hbase (Path.goesDown_join_ofSegment hdirectory hname.ofSegment_eq).1
  unfold read at h
  split at h
  · next names hlist =>
      cases h
      obtain ⟨hfinds, rfl⟩ := (FileSystem.list_eq_ok_iff hlinks habsolute hup).1 hlist
      have hnodup (shown : Segment → Bool) :
          (((sorted (fs.tree.names (project.pathOf directory).names)).filter
            fun name => !project.config.isIgnored name).filter shown).Nodup :=
        ((List.nodup_mergeSort.2 FileTree.nodup_names).filter _).filter _
      have hsorted (shown : Segment → Bool) :
          (((sorted (fs.tree.names (project.pathOf directory).names)).filter
            fun name => !project.config.isIgnored name).filter shown).Pairwise
              fun left right => left.text ≤ right.text :=
        ((pairwise_sorted _).filter _).filter _
      refine ⟨hfinds, _, _, rfl, rfl, hnodup _, hnodup _, ?_, ?_, hsorted _, hsorted _⟩
      · intro name
        simp only [mem_filter_sorted, Project.pathOf_join hdirectory]
        constructor
        · intro h
          obtain ⟨hmem, hkept, hfile⟩ := h
          have hname := FileTree.isName_of_mem_names hmem
          refine ⟨hname, hkept, ?_⟩
          exact (FileSystem.isFile_iff hlinks (hplace hname).1 (hplace hname).2.1).1 hfile
        · intro h
          obtain ⟨hname, hkept, content, hfound⟩ := h
          refine ⟨mem_names_of_finds hbase hdirectory hname hfound, hkept, ?_⟩
          exact (FileSystem.isFile_iff hlinks (hplace hname).1 (hplace hname).2.1).2 ⟨_, hfound⟩
      · intro name
        simp only [mem_filter_sorted, Project.pathOf_join hdirectory, Bool.and_eq_true,
          Bool.not_eq_true']
        constructor
        · intro h
          obtain ⟨hmem, hkept, hfound, houtside⟩ := h
          have hname := FileTree.isName_of_mem_names hmem
          refine ⟨hname, hkept, ?_, houtside⟩
          exact (FileSystem.isDirectory_iff hlinks (hplace hname).1 (hplace hname).2.1).1 hfound
        · intro h
          obtain ⟨hname, hkept, hfound, houtside⟩ := h
          refine ⟨mem_names_of_finds hbase hdirectory hname hfound, hkept, ?_,
            houtside⟩
          exact (FileSystem.isDirectory_iff hlinks (hplace hname).1 (hplace hname).2.1).2 hfound
  · cases h

end Listing

end Snapshot
