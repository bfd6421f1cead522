import Snapshot.FileTree.Basic

/-!
# What stands in a tree after a change

A file tree is seen through `FileTree.get?`. The statements here say what each change does to this
view: `insert?` adds one entry, `setContent` changes one file, and `without` and `emptied` forget
what is below a location. No proof has to open the list of entries after that.
-/

namespace Snapshot

namespace FileTree

variable {tree : FileTree} {location other : Location} {entry : Entry}

@[simp] theorem get?_root : tree.get? [] = some .directory := rfl

/-- Apart from the root, what stands at a location is what is listed there. -/
theorem get?_eq_some_iff_mem (hroot : location ≠ []) :
    tree.get? location = some entry ↔ (location, entry) ∈ tree.entries := by
  rw [get?, if_neg hroot, List.lookup_eq_some_iff]
  constructor
  · rintro ⟨before, after, heq, _⟩
    simp [heq]
  · intro hmem
    obtain ⟨before, after, heq⟩ := List.append_of_mem hmem
    refine ⟨before, after, heq, fun earlier hearlier => ?_⟩
    have hnodup := tree.wellFormed.nodup
    rw [heq, List.map_append, List.nodup_append] at hnodup
    have hne := hnodup.2.2 earlier.1 (List.mem_map_of_mem hearlier) location (by simp)
    simpa using Ne.symm hne

theorem get?_of_mem (hmem : (location, entry) ∈ tree.entries) : tree.get? location = some entry :=
  (get?_eq_some_iff_mem (tree.wellFormed.ne_root _ hmem)).2 hmem

theorem get?_eq_none_iff :
    tree.get? location = none ↔ location ≠ [] ∧ ∀ entry, (location, entry) ∉ tree.entries := by
  by_cases hroot : location = []
  · simp [hroot]
  · rw [← Option.not_isSome_iff_eq_none, Option.isSome_iff_exists]
    simp [get?_eq_some_iff_mem hroot, hroot]

/-- What stands at a location stands in a directory. -/
theorem get?_dropLast (h : tree.get? location = some entry) :
    tree.get? location.dropLast = some .directory := by
  by_cases hroot : location = []
  · simp [hroot]
  · rcases tree.wellFormed.parent _ ((get?_eq_some_iff_mem hroot).1 h) with hparent | hparent
    · simp only at hparent
      simp [hparent]
    · exact get?_of_mem hparent

theorem nameIn?_eq_some_iff {directory : Location} {name : Segment} :
    directory.nameIn? location = some name ↔ location = directory ++ [name] := by
  fun_induction Location.nameIn? directory location with
  | case1 last => simp
  | case2 first directory location ih => simpa using ih
  | case3 first directory head location hne => simp [Ne.symm hne]
  | case4 directory location hnil hcons =>
      simp only [reduceCtorEq, false_iff]
      rintro rfl
      cases directory with
      | nil => exact hnil name rfl rfl
      | cons first directory => exact hcons first directory first (directory ++ [name]) rfl rfl

theorem mem_names_iff {name : Segment} :
    name ∈ tree.names location ↔ (tree.get? (location ++ [name])).isSome := by
  simp only [names, List.mem_filterMap, nameIn?_eq_some_iff, Option.isSome_iff_exists,
    get?_eq_some_iff_mem (List.append_ne_nil_of_right_ne_nil _ (List.cons_ne_nil _ _))]
  constructor
  · rintro ⟨⟨place, entry⟩, hmem, rfl⟩
    exact ⟨entry, hmem⟩
  · rintro ⟨entry, hmem⟩
    exact ⟨_, hmem, rfl⟩

/-- No entry stands deeper than the tree is high. -/
theorem length_le_height (h : tree.get? location = some entry) :
    location.length ≤ tree.height := by
  by_cases hroot : location = []
  · simp [hroot]
  · rw [get?_eq_some_iff_mem hroot] at h
    unfold height
    generalize tree.entries = entries at h
    induction entries with
    | nil => cases h
    | cons first rest ih =>
        rw [List.foldr_cons]
        rcases List.mem_cons.1 h with rfl | hmem
        · exact Nat.le_max_left _ _
        · exact Nat.le_trans (ih hmem) (Nat.le_max_right _ _)

/-! ## Changes -/

/-- An entry can be put at a location exactly if the directory is there, the place is free and the
name is one that entries can have. -/
theorem isSome_insert?_iff {name : Segment} :
    (tree.insert? (location ++ [name]) entry).isSome ↔
      tree.get? location = some .directory ∧ tree.get? (location ++ [name]) = none ∧
        name.IsName := by
  unfold insert?
  split
  · next hnone => simp at hnone
  · next last hlast =>
      obtain rfl : name = last := by simpa using hlast
      split
      · next h => simpa using h
      · next h => simpa using h

theorem get?_insert? {changed : FileTree} (h : tree.insert? location entry = some changed) :
    changed.get? other = if other = location then some entry else tree.get? other := by
  unfold insert? at h
  split at h
  · cases h
  · next name hlast =>
      split at h
      · next hfree =>
          cases h
          have hroot : location ≠ [] := by
            rintro rfl
            simp at hlast
          simp only [get?]
          by_cases hother : other = []
          · simp [hother, Ne.symm hroot]
          · rw [if_neg hother, List.lookup_cons, if_neg hother]
            by_cases heq : other = location
            · simp [heq]
            · simp [heq, beq_false_of_ne heq]
      · cases h

theorem get?_setContent {content : List UInt8} :
    (tree.setContent location content).get? other =
      if other = location then (tree.get? other).map (·.withContent content)
      else tree.get? other := by
  by_cases hother : other = []
  · subst hother
    simp [Entry.withContent]
  · simp only [get?, if_neg hother, setContent]
    induction tree.entries with
    | nil => simp
    | cons head rest ih =>
        obtain ⟨place, entry⟩ := head
        rw [List.map_cons, List.lookup_cons, List.lookup_cons]
        by_cases hplace : other = place
        · subst hplace
          by_cases heq : other = location <;> simp [heq]
        · simpa [beq_false_of_ne hplace] using ih

/-- Of a filtered list, the places that the filter keeps look as before, and the others are free. -/
theorem lookup_filter {p : Location → Prop} [DecidablePred p] {entries : List (Location × Entry)} :
    (entries.filter fun entry => p entry.1).lookup other =
      if p other then entries.lookup other else none := by
  induction entries with
  | nil => simp
  | cons head rest ih =>
      obtain ⟨place, entry⟩ := head
      by_cases hplace : other = place
      · subst hplace
        by_cases hp : p other
        · simp [hp]
        · simpa [hp] using ih
      · by_cases hp : p place <;> simpa [hp, List.lookup_cons, beq_false_of_ne hplace] using ih

/-- The root stays, even if it is what the tree is to lose. -/
theorem get?_without :
    (tree.without location).get? other =
      if location <+: other ∧ other ≠ [] then none else tree.get? other := by
  by_cases hother : other = []
  · simp [hother]
  · simp only [get?, if_neg hother, without]
    rw [lookup_filter (p := fun other => ¬location <+: other)]
    by_cases hbelow : location <+: other <;> simp [hbelow, hother]

theorem get?_emptied :
    (tree.emptied location).get? other =
      if location <+: other ∧ location ≠ other then none else tree.get? other := by
  by_cases hother : other = []
  · subst hother
    simp [List.prefix_nil]
  · simp only [get?, if_neg hother, emptied]
    rw [lookup_filter (p := fun other => ¬(location <+: other ∧ location ≠ other))]
    by_cases hbelow : location <+: other ∧ location ≠ other <;> simp [hbelow]

theorem names_emptied : (tree.emptied location).names location = [] := by
  refine List.eq_nil_iff_forall_not_mem.2 fun name hname => ?_
  rw [mem_names_iff, get?_emptied, if_pos ⟨List.prefix_append _ _, by simp⟩] at hname
  cases hname

end FileTree

end Snapshot
