import Snapshot.Proofs.LinkFree
import Snapshot.Proofs.Reaching

/-!
# Looking up paths where there are no links

What the requests of a file system find in a tree without links. A relative path leads to where it
reads from the directory in which the program was started, also after that directory is gone: then
it can only be left upwards. What an absolute path without a way up finds is said exactly, by
`FileTree.Finds`.
-/

namespace Snapshot

namespace FileTree

/-- What an absolute path without a way up finds in a tree without links. -/
structure Finds (tree : FileTree) (path : Path) (entry : Entry) : Prop where
  size_le : path.size ≤ Path.maxSize
  get? : tree.get? path.names = some entry
  ends : entry = .directory ∨ path.EndsInName

theorem Finds.unique {tree : FileTree} {path : Path} {first second : Entry}
    (hfirst : tree.Finds path first) (hsecond : tree.Finds path second) : first = second := by
  simpa [hfirst.get?] using hsecond.get?

end FileTree

namespace FileSystem

variable {fs : FileSystem} {start location : Location} {path : Path} {ending : Ending}
  {hops : List Hop} {spot : Spot} {entry : Entry}

/-! ## What is found stands where the path reads -/

theorem reach_holds_of_straight (hstraight : fs.tree.Straight (path.startFrom start) hops)
    (hstart : fs.current.IsLeftOf start) (h : fs.reach ending path hops = .ok spot) :
    (spot = .removed ∧ path.isAbsolute = false) ∨
      fs.tree.Holds ((path.startFrom start).follow hops) spot := by
  refine (reach_eq_ok hstart h).imp_right fun ⟨front, rest, heq, _, hhere, hwalk⟩ => ?_
  subst heq
  rw [Location.follow_append]
  exact FileTree.walk_holds_of_straight hstraight.append hhere hwalk

theorem locate_holds_of_straight (hstraight : fs.tree.Straight (path.startFrom start) path.hops)
    (hstart : fs.current.IsLeftOf start) (h : fs.locate ending path = .ok spot) :
    (spot = .removed ∧ path.isAbsolute = false) ∨ fs.tree.Holds (path.placeFrom start) spot :=
  reach_holds_of_straight hstraight hstart h

theorem find_holds_of_straight (hstraight : fs.tree.Straight (path.startFrom start) path.hops)
    (hstart : fs.current.IsLeftOf start) (h : fs.find ending path = .ok (location, entry)) :
    location = path.placeFrom start ∧ fs.tree.get? location = some entry := by
  rcases locate_holds_of_straight hstraight hstart (find_eq_ok_iff.1 h) with ⟨hspot, -⟩ | hholds
  · cases hspot
  · exact ⟨hholds.1, get?_of_find h⟩

theorem find_holds (hlinks : fs.tree.LinkFree) (hstart : fs.current.IsLeftOf start)
    (h : fs.find ending path = .ok (location, entry)) :
    location = path.placeFrom start ∧ fs.tree.get? location = some entry :=
  find_holds_of_straight hlinks.straight hstart h

theorem canonicalize_holds (hlinks : fs.tree.LinkFree) (hstart : fs.current.IsLeftOf start)
    (h : fs.canonicalize path = .ok location) :
    location = path.placeFrom start ∧ ∃ entry, fs.tree.get? location = some entry := by
  obtain ⟨entry, hfind⟩ := find_spell_of_canonicalize h
  obtain ⟨hplace, hentry⟩ := find_holds hlinks hstart hfind
  exact ⟨hplace, entry, hentry⟩

/-- What does not read as leading into a location does not lead there. -/
theorem leadsInto_eq_false (hlinks : fs.tree.LinkFree) (hstart : fs.current.IsLeftOf start)
    (h : ¬location <+: path.placeFrom start) : fs.leadsInto location path = false := by
  unfold leadsInto
  split
  · next found hfound =>
      obtain ⟨rfl, -⟩ := canonicalize_holds hlinks hstart hfound
      exact decide_eq_false h
  · rfl

theorem resolveExisting_holds (hlinks : fs.tree.LinkFree) (hstart : fs.current.IsLeftOf start)
    (h : fs.resolveExisting path = .ok location) :
    location = path.placeFrom start ∧ ∃ entry, fs.tree.get? location = some entry := by
  unfold resolveExisting at h
  split at h
  · split at h
    · next hcanonical =>
        cases h
        exact canonicalize_holds hlinks hstart hcanonical
    · cases h
  · cases h

/-- However much of a path exists, it is resolved as it reads. -/
theorem resolveLenient_holds (hlinks : fs.tree.LinkFree) (hstart : fs.current.IsLeftOf start)
    (h : fs.resolveLenient path = .ok location) : location = path.placeFrom start := by
  unfold resolveLenient at h
  split at h
  · cases h
  · next hcurrent =>
      have hplace : ((Path.ofLocation fs.current.anchor).join path).placeFrom [] =
          path.placeFrom start := by
        rw [Path.placeFrom_join_ofLocation fs.isPlain_anchor]
        cases habsolute : path.isAbsolute with
        | true => simp [Path.placeFrom, habsolute]
        | false =>
            have hlost : fs.current.lost = 0 := by simpa [habsolute, hasCurrent] using hcurrent
            rw [hstart.anchor_eq_start hlost]
      dsimp only at h
      split at h
      · next found hfound =>
          cases h
          obtain ⟨count, -, hcut⟩ := List.exists_of_findSome?_eq_some hfound
          unfold resolveLenient.resolveCut? at hcut
          split at hcut
          · next canonical hcanonical =>
              obtain rfl : _ = location := Option.some.inj hcut
              -- the path up to the cut is absolute, so no start matters to it
              have habsolute : ((Path.ofLocation fs.current.anchor).join path).isAbsolute :=
                Path.isAbsolute_ofLocation_join
              obtain ⟨hcanonical, -⟩ := canonicalize_holds hlinks hstart hcanonical
              rw [← hplace, ← Path.foldl_extend_after count, hcanonical, Path.placeFrom,
                Path.placeFrom, Path.isAbsolute_upTo, if_pos habsolute, if_pos habsolute]
          · cases hcut
      · cases h

/-! ## Absolute paths without a way up -/

/-- A path under which something stands can be handed to the system. -/
theorem not_hasNul_of_get?_append {tree : FileTree}
    (h : tree.get? (start ++ path.names) = some entry) : path.hasNul = false := by
  have hsegment : ∀ segment ∈ path.body, '\x00' ∉ segment.text.toList := by
    intro segment hmem
    by_cases hempty : segment = Segment.empty
    · rw [hempty]
      decide
    · by_cases hdot : segment = Segment.dot
      · rw [hdot]
        decide
      · by_cases hdots : segment = Segment.dotDot
        · rw [hdots]
          decide
        · have hinto : Hop.ofSegment segment = .into segment := by
            rw [Hop.ofSegment, if_neg hempty, if_neg hdot, if_neg hdots]
          have hname : segment ∈ path.names := by
            rw [Path.names, Path.hops, List.filterMap_map]
            exact List.mem_filterMap.2 ⟨segment, hmem, by simp [hinto, Hop.name?]⟩
          obtain ⟨above, below, heq⟩ := List.append_of_mem hname
          rw [heq, ← List.append_assoc] at h
          exact (FileTree.isName_of_get? h).nulFree
  rw [Path.hasNul_eq_any_body, List.any_eq_false]
  exact fun segment hmem => by simpa using hsegment segment hmem

theorem not_hasNul_of_get? {tree : FileTree} (h : tree.get? path.names = some entry) :
    path.hasNul = false :=
  not_hasNul_of_get?_append (show tree.get? ([] ++ path.names) = some entry from h)

theorem not_isEmpty_of_isAbsolute (h : path.isAbsolute) : path.isEmpty = false := by
  obtain ⟨second, rest, heq⟩ := Path.isAbsolute_iff.1 h
  simp [Path.isEmpty, heq]

theorem not_isEmpty_of_names_ne_nil (h : path.names ≠ []) : path.isEmpty = false := by
  by_contra hempty
  have hsegments : path.segments = [Segment.empty] := by simpa [Path.isEmpty] using hempty
  apply h
  simp [Path.names, Path.hops, Path.body, hsegments, Hop.ofSegment, Hop.name?]

/-- An absolute path is followed from the root if it can be handed to the system. -/
theorem locate_eq_ok_iff_of_isAbsolute (habsolute : path.isAbsolute) :
    fs.locate ending path = .ok spot ↔
      path.hasNul = false ∧ (ending = .spell ∨ path.size ≤ Path.maxSize) ∧
        fs.tree.walk ending linkLimit [] path.hops = .ok spot := by
  rw [locate, reach, not_isEmpty_of_isAbsolute habsolute]
  by_cases hnul : path.hasNul
  · simp [hnul]
  · by_cases hlong : ending ≠ .spell ∧ Path.maxSize < path.size
    · simp [hnul, hlong, Nat.not_le.2 hlong.2]
    · have hsize : ending = .spell ∨ path.size ≤ Path.maxSize := by
        by_cases hspell : ending = .spell
        · exact .inl hspell
        · exact .inr (Nat.not_lt.1 fun h => hlong ⟨hspell, h⟩)
      simp [hnul, hlong, hsize, habsolute]

/-- What stands where a path reads is found there, if the system can follow the path. -/
theorem find_keep_eq_ok (hlinks : fs.tree.LinkFree)
    (hcurrent : (path.isAbsolute || fs.hasCurrent) = true) (hup : Hop.up ∉ path.hops)
    (hne : path.names ≠ []) (hsize : path.size ≤ Path.maxSize)
    (hentry : fs.tree.get? (path.placeFrom fs.current.anchor) = some entry)
    (hends : entry = .directory ∨ path.EndsInName) :
    fs.find .keep path = .ok (path.placeFrom fs.current.anchor, entry) := by
  rw [Path.placeFrom_of_not_up hup, ← Path.startFrom] at hentry ⊢
  have haccepted : path.Acceptable .keep :=
    ⟨not_hasNul_of_get?_append hentry, not_isEmpty_of_names_ne_nil hne, .inr hsize⟩
  apply find_eq_ok_iff.2
  rw [locate, reach_eq_walk haccepted hcurrent]
  exact FileTree.walk_eq_taken hlinks (by simp) hup (FileTree.get?_startFrom fs.anchored path)
    hentry (by simp [Ending.admits]) hends

theorem locate_eq_taken_iff (hlinks : fs.tree.LinkFree) (habsolute : path.isAbsolute)
    (hup : Hop.up ∉ path.hops) (hending : ending = .follow ∨ ending = .keep) :
    fs.locate ending path = .ok (.taken location entry) ↔
      location = path.names ∧ fs.tree.Finds path entry := by
  have hkind : ending ≠ .write ∧ ending ≠ .spell := by
    rcases hending with rfl | rfl <;> simp
  have hplace : Location.follow [] path.hops = path.names := by
    rw [Location.follow_of_not_up hup, List.nil_append, Path.names]
  rw [locate_eq_ok_iff_of_isAbsolute habsolute]
  constructor
  · intro h
    obtain ⟨-, hsize, hwalk⟩ := h
    obtain ⟨rfl, hentry⟩ := FileTree.walk_holds hlinks FileTree.get?_root hwalk
    rw [hplace] at hentry
    exact ⟨hplace, hsize.resolve_left hkind.2, hentry, FileTree.walk_ends hlinks hwalk⟩
  · intro h
    obtain ⟨rfl, hsize, hentry, hends⟩ := h
    refine ⟨not_hasNul_of_get? hentry, .inr hsize, ?_⟩
    exact FileTree.walk_eq_taken hlinks hkind.1 hup FileTree.get?_root hentry
      (by simp [Ending.admits, hkind.2]) hends

/-- What is asked about an absolute path is asked about what it finds. -/
theorem entryAt_eq_ok_iff (hlinks : fs.tree.LinkFree) (habsolute : path.isAbsolute)
    (hup : Hop.up ∉ path.hops) :
    fs.entryAt .follow path = .ok entry ↔ fs.tree.Finds path entry := by
  have htaken {location : Location} {found : Entry} :
      fs.locate .follow path = .ok (.taken location found) ↔
        location = path.names ∧ fs.tree.Finds path found :=
    locate_eq_taken_iff hlinks habsolute hup (.inl rfl)
  unfold entryAt
  constructor
  · intro h
    cases hlocate : fs.locate .follow path with
    | error fault => simp [hlocate, Except.bind] at h
    | ok spot =>
        cases spot with
        | free place => simp [hlocate, Except.bind, Spot.entry?] at h
        | removed =>
            have hwalk := ((locate_eq_ok_iff_of_isAbsolute habsolute).1 hlocate).2.2
            exact (FileTree.walk_holds hlinks FileTree.get?_root hwalk).elim
        | taken place found =>
            obtain rfl : found = entry := by simpa [hlocate, Except.bind, Spot.entry?] using h
            exact (htaken.1 hlocate).2
  · intro h
    rw [htaken.2 ⟨rfl, h⟩]
    rfl

theorem pathExists_iff (hlinks : fs.tree.LinkFree) (habsolute : path.isAbsolute)
    (hup : Hop.up ∉ path.hops) : fs.pathExists path ↔ ∃ entry, fs.tree.Finds path entry := by
  simp only [← entryAt_eq_ok_iff hlinks habsolute hup, pathExists_iff_entryAt]

theorem isDirectory_iff (hlinks : fs.tree.LinkFree) (habsolute : path.isAbsolute)
    (hup : Hop.up ∉ path.hops) : fs.isDirectory path ↔ fs.tree.Finds path .directory := by
  rw [← entryAt_eq_ok_iff hlinks habsolute hup, isDirectory_iff_entryAt]

theorem isFile_iff (hlinks : fs.tree.LinkFree) (habsolute : path.isAbsolute)
    (hup : Hop.up ∉ path.hops) :
    fs.isFile path ↔ ∃ content, fs.tree.Finds path (.file content) := by
  simp only [← entryAt_eq_ok_iff hlinks habsolute hup, isFile]
  split
  · next h => simp [h]
  · next h => simpa using h

/-- What can be read under an absolute path: the content of a regular file, and nothing of a sink.
-/
theorem open?_eq_ok (hlinks : fs.tree.LinkFree) (habsolute : path.isAbsolute)
    (hup : Hop.up ∉ path.hops) {content : List UInt8} (h : fs.open? path = .ok (.ok content)) :
    fs.tree.Finds path (.file content) ∨ (fs.tree.Finds path .sink ∧ content = []) := by
  unfold open? at h
  cases hentry : fs.entryAt .follow path with
  | error fault => simp [hentry, Except.bind] at h
  | ok entry =>
      have hfinds := (entryAt_eq_ok_iff hlinks habsolute hup).1 hentry
      cases entry with
      | directory => simp [hentry, Except.bind] at h
      | link target => simp [hentry, Except.bind] at h
      | socket => simp [hentry, Except.bind] at h
      | sink =>
          obtain rfl : [] = content := by simpa [hentry, Except.bind] using h
          exact .inr ⟨hfinds, rfl⟩
      | file bytes =>
          obtain rfl : bytes = content := by simpa [hentry, Except.bind] using h
          exact .inl hfinds

theorem list_eq_ok_iff (hlinks : fs.tree.LinkFree) (habsolute : path.isAbsolute)
    (hup : Hop.up ∉ path.hops) {names : List Segment} :
    fs.list path = .ok names ↔
      fs.tree.Finds path .directory ∧ names = fs.tree.names path.names := by
  have htaken {location : Location} {found : Entry} :
      fs.locate .follow path = .ok (.taken location found) ↔
        location = path.names ∧ fs.tree.Finds path found :=
    locate_eq_taken_iff hlinks habsolute hup (.inl rfl)
  unfold list find
  constructor
  · intro h
    cases hlocate : fs.locate .follow path with
    | error fault => simp [hlocate, Except.bind] at h
    | ok spot =>
        cases spot with
        | free place => simp [hlocate, Except.bind] at h
        | removed => simp [hlocate, Except.bind] at h
        | taken place found =>
            obtain ⟨rfl, hfinds⟩ := htaken.1 hlocate
            cases found with
            | directory => exact ⟨hfinds, by simpa [hlocate, Except.bind, eq_comm] using h⟩
            | file content | link target | socket | sink => simp [hlocate, Except.bind] at h
  · intro h
    obtain ⟨hfinds, rfl⟩ := h
    rw [htaken.2 ⟨rfl, hfinds⟩]
    rfl

/-- The location of what an absolute path names. The path may be longer than one that can be asked
about, as long as the location can be spelled. -/
theorem canonicalize_eq_ok (hlinks : fs.tree.LinkFree) (habsolute : path.isAbsolute)
    (hup : Hop.up ∉ path.hops) (hentry : fs.tree.get? path.names = some entry)
    (hsize : path.names.size ≤ Path.maxSize) (hends : entry = .directory ∨ path.EndsInName) :
    fs.canonicalize path = .ok path.names := by
  have hadmits : Ending.spell.admits path.names := by simp [Ending.admits, hsize]
  have hspell : Ending.spell ≠ .write := by simp
  have hlocate : fs.locate .spell path = .ok (.taken path.names entry) :=
    (locate_eq_ok_iff_of_isAbsolute habsolute).2 ⟨not_hasNul_of_get? hentry, .inl rfl,
      FileTree.walk_eq_taken hlinks hspell hup FileTree.get?_root hentry hadmits hends⟩
  rw [canonicalize, if_neg (by simp [habsolute]), find, hlocate]
  rfl

/-- A directory that reads as leading into a location leads there. -/
theorem not_prefix_of_leadsInto_eq_false (hlinks : fs.tree.LinkFree) (habsolute : path.isAbsolute)
    (hup : Hop.up ∉ path.hops) (hfinds : fs.tree.Finds path .directory)
    (h : fs.leadsInto location path = false) : ¬location <+: path.names := by
  have hsize := Nat.le_trans (Path.size_names_le habsolute) hfinds.size_le
  rw [leadsInto, canonicalize_eq_ok hlinks habsolute hup hfinds.get? hsize (.inl rfl)] at h
  exact of_decide_eq_false h

end FileSystem

end Snapshot
