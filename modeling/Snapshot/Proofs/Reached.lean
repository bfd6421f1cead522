import Snapshot.Proofs.FileCopies
import Snapshot.Proofs.Listings

/-!
# What a walk reaches

What a walk through the project gets to, said about the tree alone: it goes down by names that are
not left out, as far as the system can follow the path. Whether a walk stops at a destination does
not show here; it does not if project and destination are apart.
-/

namespace Snapshot

/-- Neither location is at or below the other. -/
structure Location.Apart (left right : Location) : Prop where
  not_below : ¬left <+: right
  not_above : ¬right <+: left

instance (left right : Location) : Decidable (left.Apart right) :=
  decidable_of_iff (¬left <+: right ∧ ¬right <+: left)
    ⟨fun h => ⟨h.1, h.2⟩, fun h => ⟨h.not_below, h.not_above⟩⟩

namespace Location.Apart

variable {left right below : Location}

theorem append (h : left.Apart right) (below : Location) : left.Apart (right ++ below) where
  not_below hbelow := by
    rcases List.prefix_or_prefix_of_prefix hbelow (List.prefix_append right below) with habove | hin
    · exact h.not_below habove
    · exact h.not_above hin
  not_above habove := h.not_above ((List.prefix_append _ _).trans habove)

/-- What is apart from a location is not on the way to anything in it. -/
theorem not_prefix_append (h : left.Apart right) (below : Location) :
    ¬right <+: left ++ below := by
  intro hway
  rcases List.prefix_or_prefix_of_prefix hway (List.prefix_append left below) with habove | hin
  · exact h.not_above habove
  · exact h.not_below hin

end Location.Apart

namespace Project

variable {project : Project} {tree : FileTree} {path : Path} {name : Segment}
  {below : Location} {entry : Entry} {out : List UInt8}

/-- An entry below a path of the project that a walk from there gets to. -/
structure Reaches (project : Project) (tree : FileTree) (path : Path) (below : Location)
    (entry : Entry) : Prop where
  found : tree.get? (project.base ++ (path.names ++ below)) = some entry
  kept : ∀ name ∈ below, project.config.isIgnored name = false
  followed : (project.pathOf (path.extend below)).size ≤ Path.maxSize
  /-- A slash after the name of a file leads nowhere. -/
  ends : below = [] → entry = .directory ∨ (project.pathOf path).EndsInName

/-- A file that a walk from a path gets to, with what is left of it for the version. -/
def VisitsFile (project : Project) (tree : FileTree) (path : Path) (below : Location)
    (out : List UInt8) : Prop :=
  ∃ content, project.Reaches tree path below (.file content) ∧
    filterBytes project.config.version content = .ok out

theorem Reaches.unique {other : Entry} (h : project.Reaches tree path below entry)
    (hother : project.Reaches tree path below other) : entry = other :=
  Option.some.inj (h.found.symm.trans hother.found)

theorem reaches_nil_iff (hbase : project.base.IsPlain) (hpath : path.GoesDown) :
    project.Reaches tree path [] entry ↔ tree.Finds (project.pathOf path) entry := by
  obtain ⟨-, -, hnames⟩ := pathOf_goesDown hbase hpath
  constructor
  · intro h
    refine ⟨h.followed, ?_, h.ends rfl⟩
    rw [hnames]
    simpa using h.found
  · intro h
    refine ⟨?_, fun _ hmem => absurd hmem List.not_mem_nil, h.size_le, fun _ => h.ends⟩
    have hget := h.get?
    rw [hnames] at hget
    simpa using hget

theorem Reaches.isName (h : project.Reaches tree path (name :: below) entry) : name.IsName :=
  FileTree.isName_below h.found

theorem Reaches.isPlain (h : project.Reaches tree path below entry) : Location.IsPlain below :=
  FileTree.isPlain_below h.found

/-- A walk that gets anywhere finds something where it starts. -/
theorem Reaches.exists_finds (hbase : project.base.IsPlain) (hpath : path.GoesDown)
    (h : project.Reaches tree path below entry) :
    ∃ found, tree.Finds (project.pathOf path) found := by
  cases below with
  | nil => exact ⟨entry, (reaches_nil_iff hbase hpath).1 h⟩
  | cons name below =>
      have hfinds := finds_extend hbase hpath h.found h.followed
      exact ⟨.directory, finds_directory_of_extend hbase hpath h.isPlain hfinds⟩

/-- A walk gets to what is below a directory in it through that directory. -/
theorem reaches_cons_iff (hpath : path.GoesDown) (hname : name.IsName) :
    project.Reaches tree path (name :: below) entry ↔
      project.config.isIgnored name = false ∧
        project.Reaches tree (path.join (.ofSegment name)) below entry := by
  obtain ⟨hjoin, hnames⟩ := Path.goesDown_join_ofSegment hpath hname.ofSegment_eq
  have hplace : path.names ++ name :: below = (path.join (.ofSegment name)).names ++ below := by
    rw [hnames, ← List.append_cons]
  have hends : (project.pathOf (path.join (.ofSegment name))).EndsInName := by
    rw [← pathOf_join hpath]
    exact Path.endsInName_join_ofSegment hname.ofSegment_eq
  constructor
  · intro h
    refine ⟨h.kept name List.mem_cons_self, ?_, ?_, h.followed, fun _ => .inr hends⟩
    · rw [← hplace]
      exact h.found
    · exact fun other hmem => h.kept other (List.mem_cons_of_mem _ hmem)
  · intro h
    obtain ⟨hkept, h⟩ := h
    refine ⟨?_, ?_, h.followed, fun hnil => absurd hnil (List.cons_ne_nil _ _)⟩
    · rw [hplace]
      exact h.found
    · intro other hmem
      rcases List.mem_cons.1 hmem with rfl | hmem
      · exact hkept
      · exact h.kept other hmem

theorem visitsFile_cons_iff (hpath : path.GoesDown) (hname : name.IsName) :
    project.VisitsFile tree path (name :: below) out ↔
      project.config.isIgnored name = false ∧
        project.VisitsFile tree (path.join (.ofSegment name)) below out := by
  simp only [VisitsFile, reaches_cons_iff hpath hname, and_assoc, exists_and_left]

theorem reaches_singleton_iff (hbase : project.base.IsPlain) (hpath : path.GoesDown) :
    project.Reaches tree path [name] entry ↔
      name.IsName ∧ project.config.isIgnored name = false ∧
        tree.Finds (project.pathOf (path.join (.ofSegment name))) entry := by
  constructor
  · intro h
    have hname := h.isName
    obtain ⟨hjoin, -⟩ := Path.goesDown_join_ofSegment hpath hname.ofSegment_eq
    rw [reaches_cons_iff hpath hname, reaches_nil_iff hbase hjoin] at h
    exact ⟨hname, h⟩
  · intro h
    obtain ⟨hname, h⟩ := h
    obtain ⟨hjoin, -⟩ := Path.goesDown_join_ofSegment hpath hname.ofSegment_eq
    rw [reaches_cons_iff hpath hname, reaches_nil_iff hbase hjoin]
    exact h

/-- On the way to something a walk gets to a directory. -/
theorem Reaches.directory {second : Segment}
    (hbase : project.base.IsPlain) (hpath : path.GoesDown)
    (h : project.Reaches tree path (name :: second :: below) entry) :
    project.Reaches tree path [name] .directory := by
  have hname := h.isName
  obtain ⟨hjoin, -⟩ := Path.goesDown_join_ofSegment hpath hname.ofSegment_eq
  obtain ⟨hkept, hlater⟩ := (reaches_cons_iff hpath hname).1 h
  rw [reaches_singleton_iff hbase hpath]
  refine ⟨hname, hkept, ?_⟩
  have hfinds := finds_extend hbase hjoin hlater.found hlater.followed
  exact finds_directory_of_extend hbase hjoin hlater.isPlain hfinds

end Project

end Snapshot
