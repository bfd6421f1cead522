import Snapshot.Path.Basic

/-!
# Paths and their texts

A path and the text that writes it determine each other: `Path.text` and `Path.ofString` undo one
another.
-/

namespace Snapshot

namespace Path

@[ext] theorem ext_segments {left right : Path} (h : left.segments = right.segments) :
    left = right := by
  cases left
  cases right
  simp_all

theorem map_toList_segments_ofString (text : String) :
    (ofString text).segments.map (·.text.toList) = text.toList.splitOn '/' := by
  simp [ofString, Function.comp_def]

/-- A path writes the text that it was read from. -/
@[simp] theorem text_ofString (text : String) : (ofString text).text = text := by
  rw [Path.text, map_toList_segments_ofString, List.intercalate_splitOn, String.ofList_toList]

/-- Reading the text of a path gives the path. -/
@[simp] theorem ofString_text (path : Path) : ofString path.text = path := by
  refine ext_segments ?_
  have hlists : (ofString path.text).segments.map (·.text.toList) =
      path.segments.map (·.text.toList) := by
    rw [map_toList_segments_ofString, Path.text, String.toList_ofList]
    refine List.splitOn_intercalate _ (fun piece hpiece => ?_) (by simpa using path.nonempty)
    obtain ⟨segment, _, rfl⟩ := List.mem_map.1 hpiece
    exact segment.slashFree
  refine (List.map_inj_right fun left right heq => ?_).1 hlists
  cases left
  cases right
  simpa [String.toList_inj] using heq

theorem text_injective {left right : Path} (h : left.text = right.text) : left = right := by
  rw [← ofString_text left, h, ofString_text]

/-- The size of a path is that of its text. -/
theorem size_eq_utf8ByteSize_text (path : Path) : path.size = path.text.utf8ByteSize := by
  obtain ⟨segments, hne⟩ := path
  induction segments with
  | nil => exact absurd rfl hne
  | cons first rest ih =>
      cases rest with
      | nil => simp [size, text, List.intercalate, Segment.sizeWithSlashes]
      | cons second rest =>
          have hrest := ih (by simp)
          have hslash : (String.ofList ['/']).utf8ByteSize = 1 := rfl
          simp only [size, text, Segment.sizeWithSlashes, List.map_cons, List.intercalate_cons_cons,
            String.ofList_append, String.utf8ByteSize_append, String.ofList_toList] at hrest ⊢
          omega

end Path

end Snapshot
