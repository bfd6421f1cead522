import Snapshot.Path.Basic

/-!
# File trees

A file tree is a finite set of entries, each at a location: the names that lead to it from the root.
It holds regular files, directories, symbolic links, sockets, and sinks, which swallow what is
written to them and read as empty. Every entry stands in a directory, and no name is one to which
the system gives a meaning of its own.

Which location a path denotes is settled in `Snapshot.FileTree.Walk`.
-/

namespace Snapshot

/-- The names from the root to an entry. The root has none. -/
abbrev Location := List Segment

/-- The name of a location in the given directory, if it is right in there. -/
def Location.nameIn? : (directory location : Location) → Option Segment
  | [], [name] => some name
  | first :: directory, head :: location =>
      if first = head then nameIn? directory location else none
  | _, _ => none

inductive Entry where
  | directory
  | file (content : List UInt8)
  | link (target : Path)
  | socket
  | sink
deriving DecidableEq

/-- A regular file with new content. Other entries have none and stay as they are. -/
def Entry.withContent (content : List UInt8) : Entry → Entry
  | .file _ => .file content
  | entry => entry

/-- The greatest number of bytes in a name. -/
def Segment.maxSize : Nat := 255

/-- Whether a directory can hold an entry of this name. -/
structure Segment.IsName (segment : Segment) : Prop where
  not_blank : ¬segment.isBlank
  ne_dotDot : segment ≠ Segment.dotDot
  nulFree : '\x00' ∉ segment.text.toList
  size_le : segment.text.utf8ByteSize ≤ Segment.maxSize

instance (segment : Segment) : Decidable segment.IsName :=
  decidable_of_iff (¬segment.isBlank ∧ segment ≠ Segment.dotDot ∧ '\x00' ∉ segment.text.toList ∧
      segment.text.utf8ByteSize ≤ Segment.maxSize)
    ⟨fun ⟨hblank, hdots, hnul, hsize⟩ => ⟨hblank, hdots, hnul, hsize⟩,
      fun h => ⟨h.not_blank, h.ne_dotDot, h.nulFree, h.size_le⟩⟩

/-! ## Well-formed trees -/

/-- The entries form a tree: no location is listed twice, the root is not listed, and the names on
the way to an entry are the names of directories. -/
structure WellFormed (entries : List (Location × Entry)) : Prop where
  nodup : (entries.map Prod.fst).Nodup
  ne_root : ∀ entry ∈ entries, entry.1 ≠ []
  parent : ∀ entry ∈ entries,
    entry.1.dropLast = [] ∨ (entry.1.dropLast, Entry.directory) ∈ entries
  isName : ∀ entry ∈ entries, ∀ name ∈ entry.1, name.IsName

namespace WellFormed

variable {entries : List (Location × Entry)}

theorem nil : WellFormed [] := ⟨by simp, by simp, by simp, by simp⟩

/-- A new entry can be added to a directory. -/
theorem cons (h : WellFormed entries) {directory : Location} {name : Segment} {entry : Entry}
    (hdirectory : directory = [] ∨ (directory, Entry.directory) ∈ entries)
    (hfree : directory ++ [name] ∉ entries.map Prod.fst) (hname : name.IsName) :
    WellFormed ((directory ++ [name], entry) :: entries) where
  nodup := List.nodup_cons.2 ⟨hfree, h.nodup⟩
  ne_root := by
    intro other hother
    rcases List.mem_cons.1 hother with rfl | hother
    · simp
    · exact h.ne_root other hother
  parent := by
    intro other hother
    rcases List.mem_cons.1 hother with rfl | hother
    · simpa using hdirectory
    · exact (h.parent other hother).imp_right fun hmem => List.mem_cons_of_mem _ hmem
  isName := by
    intro other hother
    rcases List.mem_cons.1 hother with rfl | hother
    · intro part hpart
      rcases List.mem_append.1 hpart with hpart | hpart
      · rcases hdirectory with rfl | hdirectory
        · simp at hpart
        · exact h.isName _ hdirectory part hpart
      · rw [List.mem_singleton.1 hpart]
        exact hname
    · exact h.isName other hother

/-- Entries can be dropped if everything below a dropped location is dropped too. -/
theorem filter (h : WellFormed entries) {p : Location → Prop} [DecidablePred p]
    (hbelow : ∀ location, location.dropLast ≠ [] → p location → p location.dropLast) :
    WellFormed (entries.filter fun entry => p entry.1) where
  nodup := h.nodup.sublist (List.filter_sublist.map _)
  ne_root := fun entry hentry => h.ne_root entry (List.mem_filter.1 hentry).1
  parent := by
    intro entry hentry
    simp only [List.mem_filter, decide_eq_true_eq] at hentry ⊢
    by_cases hroot : entry.1.dropLast = []
    · exact .inl hroot
    · exact .inr ⟨(h.parent entry hentry.1).resolve_left hroot, hbelow _ hroot hentry.2⟩
  isName := fun entry hentry => h.isName entry (List.mem_filter.1 hentry).1

/-- Entries can be changed in place as long as directories stay directories. -/
theorem map (h : WellFormed entries) {f : Location → Entry → Entry}
    (hdirectory : ∀ location, f location .directory = .directory) :
    WellFormed (entries.map fun entry => (entry.1, f entry.1 entry.2)) where
  nodup := by
    rw [List.map_map]
    exact h.nodup
  ne_root := by
    intro entry hentry
    obtain ⟨old, hold, rfl⟩ := List.mem_map.1 hentry
    exact h.ne_root old hold
  parent := by
    intro entry hentry
    obtain ⟨old, hold, rfl⟩ := List.mem_map.1 hentry
    refine (h.parent old hold).imp_right fun hparent => List.mem_map.2 ⟨_, hparent, ?_⟩
    simp only [hdirectory]
  isName := by
    intro entry hentry
    obtain ⟨old, hold, rfl⟩ := List.mem_map.1 hentry
    exact h.isName old hold

end WellFormed

/-- A file tree. Its root is a directory and is not listed among the entries. -/
structure FileTree where
  entries : List (Location × Entry)
  wellFormed : WellFormed entries

namespace FileTree

instance : EmptyCollection FileTree where
  emptyCollection := { entries := [], wellFormed := .nil }

/-- What stands at a location, if anything does. -/
def get? (tree : FileTree) (location : Location) : Option Entry :=
  if location = [] then some .directory else tree.entries.lookup location

/-- The names in the directory at a location, in no particular order. -/
def names (tree : FileTree) (location : Location) : List Segment :=
  tree.entries.filterMap fun entry => location.nameIn? entry.1

/-- The greatest number of names that lead to an entry. -/
def height (tree : FileTree) : Nat :=
  tree.entries.foldr (fun entry height => max entry.1.length height) 0

/-! ## Changes -/

/-- Puts an entry at a free location, if its directory exists and its name is one that entries can
have. -/
def insert? (tree : FileTree) (location : Location) (entry : Entry) : Option FileTree :=
  match hlast : location.getLast? with
  | none => none
  | some name =>
      if h : tree.get? location.dropLast = some .directory ∧ tree.get? location = none ∧
          name.IsName then
        some
          { entries := (location, entry) :: tree.entries
            wellFormed := by
              obtain ⟨directory, rfl⟩ := List.getLast?_eq_some_iff.1 hlast
              obtain ⟨hdirectory, hfree, hname⟩ := h
              rw [List.dropLast_concat] at hdirectory
              refine tree.wellFormed.cons ?_ ?_ hname
              · by_cases hroot : directory = []
                · exact .inl hroot
                · rw [get?, if_neg hroot, List.lookup_eq_some_iff] at hdirectory
                  obtain ⟨before, after, heq, _⟩ := hdirectory
                  exact .inr (by simp [heq])
              · rw [get?, if_neg (by simp), List.lookup_eq_none_iff] at hfree
                simp only [List.mem_map, not_exists, not_and]
                intro other hother heq
                simpa [heq] using hfree other hother }
      else
        none

def setContent (tree : FileTree) (location : Location) (content : List UInt8) : FileTree where
  entries := tree.entries.map fun entry =>
    (entry.1, if entry.1 = location then entry.2.withContent content else entry.2)
  wellFormed := tree.wellFormed.map
    (f := fun other entry => if other = location then entry.withContent content else entry)
    fun _ => by simp [Entry.withContent]

/-- The tree without the entry at a location and without everything below it. -/
def without (tree : FileTree) (location : Location) : FileTree where
  entries := tree.entries.filter fun entry => ¬location <+: entry.1
  wellFormed := tree.wellFormed.filter (p := fun other => ¬location <+: other)
    fun other _ hkeep hparent => hkeep (hparent.trans (List.dropLast_prefix other))

/-- The tree without everything below a location. -/
def emptied (tree : FileTree) (location : Location) : FileTree where
  entries := tree.entries.filter fun entry => ¬(location <+: entry.1 ∧ location ≠ entry.1)
  wellFormed := tree.wellFormed.filter (p := fun other => ¬(location <+: other ∧ location ≠ other))
    fun other hother hkeep ⟨hparent, _⟩ => by
      -- a location strictly below is longer, so it cannot be the one that is emptied
      refine hkeep ⟨hparent.trans (List.dropLast_prefix other), fun heq => ?_⟩
      have hlength := hparent.length_le
      rw [heq, List.length_dropLast] at hlength
      have hpos : other ≠ [] := fun hnil => hother (by simp [hnil])
      have := List.length_pos_iff.2 hpos
      omega

end FileTree

end Snapshot
