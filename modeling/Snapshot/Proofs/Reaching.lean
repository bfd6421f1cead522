import Snapshot.FileSystem.Canonical
import Snapshot.FileSystem.Operations
import Snapshot.Proofs.Trails

/-!
# Paths handed to the system

What following a path comes to, in terms of walks. A relative path starts in what is left of a
directory, and as far as it leads anywhere from there, it leads where a walk from that directory
does. So what a path leads to in a tree that has less, it leads to in the one that has more.
-/

namespace Snapshot

namespace Place

/-- The place is what is left of a directory: itself, or one above it with the levels in between
lost. -/
structure IsLeftOf (start : Location) (place : Place) : Prop where
  lost_le : place.lost ≤ start.length
  anchor_eq : place.anchor = start.take (start.length - place.lost)

variable {start : Location} {place : Place} {hops rest : List Hop}

theorem IsLeftOf.anchor_eq_start (h : place.IsLeftOf start) (hlost : place.lost = 0) :
    place.anchor = start := by
  rw [h.anchor_eq, hlost, Nat.sub_zero, List.take_length]

theorem isLeftOf_anchor (hlost : place.lost = 0) : place.IsLeftOf place.anchor where
  lost_le := by simp [hlost]
  anchor_eq := by simp [hlost]

/-- Every place is what is left of some directory. No directory has an empty name, so none is
taken for the ones that are lost. -/
theorem isLeftOf_append_replicate (place : Place) :
    place.IsLeftOf (place.anchor ++ List.replicate place.lost Segment.empty) where
  lost_le := by simp
  anchor_eq := by simp

theorem IsLeftOf.settledIn (h : place.IsLeftOf start) (tree : FileTree) :
    (place.settledIn tree).IsLeftOf start := by
  have hlength : place.anchor.length = start.length - place.lost := by
    rw [h.anchor_eq, List.length_take]
    omega
  have hle := h.lost_le
  unfold Place.settledIn
  split
  · next levels hlevels =>
      have hlt : levels < place.anchor.length := by
        simpa using List.mem_of_find?_eq_some hlevels
      refine ⟨by dsimp only; omega, ?_⟩
      dsimp only
      rw [above, hlength, h.anchor_eq, List.take_take]
      congr 1
      omega
  · refine ⟨by dsimp only; omega, ?_⟩
    rw [hlength, Nat.add_sub_cancel' hle, Nat.sub_self, List.take_zero]

theorem lost_le_settledIn (tree : FileTree) (place : Place) :
    place.lost ≤ (place.settledIn tree).lost := by
  unfold Place.settledIn
  split
  · exact Nat.le_add_right _ _
  · exact Nat.le_add_right _ _

/-- Removed directories are left by hops into no name, up to the directory that is still there. -/
theorem exists_front_of_leave {lost : Nat} (hlost : lost ≤ start.length)
    (h : leave lost hops = .ok (some rest)) :
    ∃ front, hops = front ++ rest ∧ (∀ hop ∈ front, hop.name? = none) ∧
      start.follow front = start.take (start.length - lost) := by
  induction hops generalizing start lost with
  | nil =>
      cases lost with
      | zero =>
          cases h
          exact ⟨[], rfl, by simp, by simp⟩
      | succ lost => cases h
  | cons first hops ih =>
      have hcons {front : List Hop} (hfirst : first.name? = none)
          (hfront : ∀ hop ∈ front, hop.name? = none) : ∀ hop ∈ first :: front, hop.name? = none :=
        List.forall_mem_cons.2 ⟨hfirst, hfront⟩
      cases lost with
      | zero =>
          cases h
          exact ⟨[], rfl, by simp, by simp⟩
      | succ lost =>
          cases first with
          | slash | dot =>
              obtain ⟨front, rfl, hfront, hplace⟩ := ih hlost h
              exact ⟨_ :: front, rfl, hcons rfl hfront, hplace⟩
          | into name => cases h
          | up =>
              have hlength : start.dropLast.length = start.length - 1 := List.length_dropLast
              have hshorter : lost ≤ start.dropLast.length := by omega
              obtain ⟨front, rfl, hfront, hplace⟩ := ih hshorter h
              refine ⟨_ :: front, rfl, hcons rfl hfront, ?_⟩
              rw [Location.follow_cons, Location.hop, hplace, List.dropLast_eq_take, List.take_take,
                List.length_take]
              congr 1
              omega

/-- Where more levels are lost and can be left, fewer can be. -/
theorem exists_leave_of_le {lost more : Nat} (hle : lost ≤ more)
    (h : leave more hops = .ok (some rest)) : ∃ middle, leave lost hops = .ok (some middle) := by
  induction hops generalizing lost more with
  | nil =>
      cases more with
      | zero =>
          obtain rfl : lost = 0 := Nat.le_zero.1 hle
          exact ⟨[], rfl⟩
      | succ more => cases h
  | cons first hops ih =>
      cases lost with
      | zero => exact ⟨_, rfl⟩
      | succ lost =>
          obtain ⟨more, rfl⟩ : ∃ fewer, more = fewer + 1 := ⟨more - 1, by omega⟩
          cases first with
          | slash | dot => exact ih hle h
          | up => exact ih (Nat.le_of_succ_le_succ hle) h
          | into name => cases h

theorem leave_append {lost : Nat} (h : leave lost hops = .ok (some rest)) (more : List Hop) :
    leave lost (hops ++ more) = .ok (some (rest ++ more)) := by
  induction hops generalizing lost with
  | nil =>
      cases lost with
      | zero =>
          cases h
          rw [leave, List.nil_append]
      | succ lost => cases h
  | cons first hops ih =>
      cases lost with
      | zero =>
          cases h
          rw [leave]
      | succ lost =>
          cases first with
          | slash | dot => exact ih h
          | up => exact ih h
          | into name => cases h

end Place

/-- Whether the system looks at a path at all. -/
structure Path.Acceptable (path : Path) (ending : Ending) : Prop where
  nulFree : path.hasNul = false
  nonempty : path.isEmpty = false
  size_le : ending = .spell ∨ path.size ≤ Path.maxSize

namespace FileSystem

variable {fs small big : FileSystem} {start location : Location} {path : Path} {ending : Ending}
  {hops : List Hop} {spot : Spot} {entry : Entry}

theorem isPlain_anchor (fs : FileSystem) : fs.current.anchor.IsPlain :=
  FileTree.isPlain_of_get? fs.anchored

theorem acceptable_of_reach (h : fs.reach ending path hops = .ok spot) :
    path.Acceptable ending := by
  unfold reach at h
  split at h
  · cases h
  · next hnul =>
      split at h
      · cases h
      · next hempty =>
          split at h
          · cases h
          · next hlong =>
              refine ⟨by simpa using hnul, by simpa using hempty, ?_⟩
              rw [not_and_or, not_not, Nat.not_lt] at hlong
              exact hlong

theorem reach_of_acceptable (h : path.Acceptable ending) :
    fs.reach ending path hops =
      if path.isAbsolute then fs.tree.walk ending linkLimit [] hops
      else
        match Place.leave fs.current.lost hops with
        | .ok (some rest) => fs.tree.walk ending linkLimit fs.current.anchor rest
        | .ok none => .ok .removed
        | .error fault => .error fault := by
  have hlong : ¬(ending ≠ .spell ∧ Path.maxSize < path.size) := fun hlong =>
    h.size_le.elim hlong.1 (Nat.not_le.2 hlong.2)
  unfold reach
  exact (if_neg (by simp [h.nulFree])).trans
    ((if_neg (by simp [h.nonempty])).trans (if_neg hlong))

/-- What following a path can come to: where a walk leads, or a directory that was removed. -/
theorem reach_eq_ok_iff :
    fs.reach ending path hops = .ok spot ↔ path.Acceptable ending ∧
      if path.isAbsolute then fs.tree.walk ending linkLimit [] hops = .ok spot
      else
        (∃ rest, Place.leave fs.current.lost hops = .ok (some rest) ∧
          fs.tree.walk ending linkLimit fs.current.anchor rest = .ok spot) ∨
        Place.leave fs.current.lost hops = .ok none ∧ spot = .removed := by
  rw [← and_iff_right_of_imp acceptable_of_reach]
  refine and_congr_right fun haccepted => ?_
  rw [reach_of_acceptable haccepted]
  split
  · rfl
  · cases Place.leave fs.current.lost hops with
    | error fault => simp
    | ok left =>
        cases left with
        | none => simp [eq_comm]
        | some rest => simp

/-- While the current directory is there, a relative path is followed from it. -/
theorem reach_eq_walk (haccepted : path.Acceptable ending)
    (hcurrent : (path.isAbsolute || fs.hasCurrent) = true) :
    fs.reach ending path hops =
      fs.tree.walk ending linkLimit (path.startFrom fs.current.anchor) hops := by
  rw [reach_of_acceptable haccepted]
  unfold Path.startFrom
  split
  · rfl
  · next habsolute =>
      have hlost : fs.current.lost = 0 := by simpa [habsolute, hasCurrent] using hcurrent
      rw [hlost, Place.leave]

/-- A path is followed by a walk from a directory on the way to its start, or ends in a directory
that was removed. -/
theorem reach_eq_ok (hstart : fs.current.IsLeftOf start)
    (h : fs.reach ending path hops = .ok spot) :
    (spot = .removed ∧ path.isAbsolute = false) ∨
      ∃ front rest, hops = front ++ rest ∧ (∀ hop ∈ front, hop.name? = none) ∧
        fs.tree.get? ((path.startFrom start).follow front) = some .directory ∧
        fs.tree.walk ending linkLimit ((path.startFrom start).follow front) rest = .ok spot := by
  obtain ⟨-, hwalk⟩ := reach_eq_ok_iff.1 h
  unfold Path.startFrom
  split at hwalk
  · next habsolute =>
      rw [if_pos habsolute]
      exact .inr ⟨[], hops, rfl, by simp, FileTree.get?_root, hwalk⟩
  · next habsolute =>
      rw [if_neg habsolute]
      rcases hwalk with ⟨rest, hleave, hwalk⟩ | ⟨-, rfl⟩
      · obtain ⟨front, rfl, hfront, hplace⟩ := Place.exists_front_of_leave hstart.lost_le hleave
        rw [hstart.anchor_eq] at hwalk
        refine .inr ⟨front, rest, rfl, hfront, ?_, hplace ▸ hwalk⟩
        rw [hplace, ← hstart.anchor_eq]
        exact fs.anchored
      · exact .inl ⟨rfl, Bool.eq_false_iff.2 habsolute⟩

theorem walk_of_reach (hstart : fs.current.IsLeftOf start)
    (h : fs.reach ending path hops = .ok spot) :
    (spot = .removed ∧ path.isAbsolute = false) ∨
      fs.tree.walk ending linkLimit (path.startFrom start) hops = .ok spot := by
  refine (reach_eq_ok hstart h).imp_right fun ⟨front, rest, heq, hfront, _, hwalk⟩ => ?_
  rw [heq, FileTree.walk_append_of_nameless hfront]
  exact hwalk

/-- What a path leads to stands there, and a free place is free. -/
theorem get?_of_reach (h : fs.reach ending path hops = .ok spot) :
    spot = .removed ∨ (∃ location entry, spot = .taken location entry ∧
        fs.tree.get? location = some entry) ∨
      ∃ location, spot = .free location ∧ fs.tree.get? location = none := by
  rcases reach_eq_ok fs.current.isLeftOf_append_replicate h with
    ⟨hremoved, -⟩ | ⟨front, rest, -, -, hhere, hwalk⟩
  · exact .inl hremoved
  · exact .inr (FileTree.get?_of_walk hhere hwalk)

theorem find_eq_ok_iff :
    fs.find ending path = .ok (location, entry) ↔
      fs.locate ending path = .ok (.taken location entry) := by
  unfold find
  cases fs.locate ending path with
  | error fault => simp [Except.bind]
  | ok spot =>
      cases spot with
      | free place => simp [Except.bind]
      | removed => simp [Except.bind]
      | taken place found => simp [Except.bind]

theorem walk_of_find (hcurrent : (path.isAbsolute || fs.hasCurrent) = true)
    (h : fs.find ending path = .ok (location, entry)) :
    path.Acceptable ending ∧
      fs.tree.walk ending linkLimit (path.startFrom fs.current.anchor) path.hops =
        .ok (.taken location entry) := by
  have hlocate := find_eq_ok_iff.1 h
  have haccepted := acceptable_of_reach hlocate
  exact ⟨haccepted, (reach_eq_walk haccepted hcurrent).symm.trans hlocate⟩

theorem get?_of_find (h : fs.find ending path = .ok (location, entry)) :
    fs.tree.get? location = some entry := by
  rcases get?_of_reach (find_eq_ok_iff.1 h) with
    hremoved | ⟨place, found, heq, hentry⟩ | ⟨place, heq, -⟩
  · cases hremoved
  · cases heq
    exact hentry
  · cases heq

theorem exists_get?_of_find (hnames : path.names ≠ [])
    (h : fs.find ending path = .ok (location, entry)) :
    ∃ met, met ≠ [] ∧ ∃ found, fs.tree.get? met = some found := by
  have hlocate := find_eq_ok_iff.1 h
  rcases walk_of_reach fs.current.isLeftOf_append_replicate hlocate with ⟨hspot, -⟩ | hwalk
  · cases hspot
  · exact FileTree.exists_get?_of_walk hnames hwalk

/-- What a path leads to in a file system that has less, it leads to in the one that has more. -/
theorem reach_mono
    (hsub : ∀ place entry, small.tree.get? place = some entry → big.tree.get? place = some entry)
    (hsmall : small.current.IsLeftOf start) (hbig : big.current.IsLeftOf start)
    (hlost : big.current.lost ≤ small.current.lost)
    (h : small.reach ending path hops = .ok (.taken location entry)) :
    big.reach ending path hops = .ok (.taken location entry) := by
  obtain ⟨haccepted, hwalk⟩ := reach_eq_ok_iff.1 h
  refine reach_eq_ok_iff.2 ⟨haccepted, ?_⟩
  split at hwalk
  · next habsolute =>
      rw [if_pos habsolute]
      exact FileTree.walk_mono hsub hwalk
  · next habsolute =>
      rw [if_neg habsolute]
      left
      rcases hwalk with ⟨rest, hleave, hwalk⟩ | ⟨-, hspot⟩
      · obtain ⟨middle, hmiddle⟩ := Place.exists_leave_of_le hlost hleave
        refine ⟨middle, hmiddle, ?_⟩
        obtain ⟨front, rfl, hfront, hplace⟩ := Place.exists_front_of_leave hsmall.lost_le hleave
        obtain ⟨bigFront, heq, hbigFront, hbigPlace⟩ :=
          Place.exists_front_of_leave hbig.lost_le hmiddle
        rw [hsmall.anchor_eq, ← hplace, ← FileTree.walk_append_of_nameless hfront, heq] at hwalk
        rw [hbig.anchor_eq, ← hbigPlace, ← FileTree.walk_append_of_nameless hbigFront]
        exact FileTree.walk_mono hsub hwalk
      · cases hspot

theorem find_mono
    (hsub : ∀ place entry, small.tree.get? place = some entry → big.tree.get? place = some entry)
    (hsmall : small.current.IsLeftOf start) (hbig : big.current.IsLeftOf start)
    (hlost : big.current.lost ≤ small.current.lost)
    (h : small.find ending path = .ok (location, entry)) :
    big.find ending path = .ok (location, entry) :=
  find_eq_ok_iff.2 (reach_mono hsub hsmall hbig hlost (find_eq_ok_iff.1 h))

/-! ## Directories -/

/-- A directory that a path leads to is found under slashes as well. -/
theorem locate_of_reach_bareHops (hending : ending = .follow ∨ ending = .keep)
    (h : fs.reach .keep path path.bareHops = .ok (.taken location .directory)) :
    fs.locate ending path = .ok (.taken location .directory) := by
  obtain ⟨slashes, hparts, hslashes⟩ := path.exists_slashes
  obtain ⟨haccepted, hwalk⟩ := reach_eq_ok_iff.1 h
  have hsize : path.size ≤ Path.maxSize := haccepted.size_le.resolve_left (by simp)
  rw [locate, hparts]
  refine reach_eq_ok_iff.2 ⟨⟨haccepted.nulFree, haccepted.nonempty, .inr hsize⟩, ?_⟩
  split at hwalk
  · next habsolute =>
      rw [if_pos habsolute]
      exact FileTree.walk_append_slashes hending hslashes hwalk
  · next habsolute =>
      rw [if_neg habsolute]
      rcases hwalk with ⟨rest, hleave, hwalk⟩ | ⟨-, hspot⟩
      · exact .inl ⟨rest ++ slashes, Place.leave_append hleave slashes,
          FileTree.walk_append_slashes hending hslashes hwalk⟩
      · cases hspot

/-- Once a directory stands at a free place that a path leads to, it is found there. -/
theorem reach_of_free
    (hsub : ∀ place entry, small.tree.get? place = some entry → big.tree.get? place = some entry)
    (hcurrent : big.current = small.current)
    (hdirectory : big.tree.get? location = some .directory)
    (h : small.reach .keep path hops = .ok (.free location)) :
    big.reach .keep path hops = .ok (.taken location .directory) := by
  obtain ⟨haccepted, hwalk⟩ := reach_eq_ok_iff.1 h
  refine reach_eq_ok_iff.2 ⟨haccepted, ?_⟩
  rw [hcurrent]
  split at hwalk
  · next habsolute =>
      rw [if_pos habsolute]
      exact FileTree.walk_keep_of_free hsub hdirectory hwalk
  · next habsolute =>
      rw [if_neg habsolute]
      rcases hwalk with ⟨rest, hleave, hwalk⟩ | ⟨-, hspot⟩
      · exact .inl ⟨rest, hleave, FileTree.walk_keep_of_free hsub hdirectory hwalk⟩
      · cases hspot

/-- What is told of a path is told of the place it leads to, unless the directory that a relative
path starts in is gone. -/
theorem find_of_entryAt (hcurrent : (path.isAbsolute || fs.hasCurrent) = true)
    (h : fs.entryAt ending path = .ok entry) :
    ∃ location, fs.find ending path = .ok (location, entry) := by
  unfold entryAt at h
  cases hlocate : fs.locate ending path with
  | error fault => simp [hlocate, Except.bind] at h
  | ok spot =>
      cases spot with
      | free place => simp [hlocate, Except.bind, Spot.entry?] at h
      | removed =>
          have haccepted := acceptable_of_reach hlocate
          have hwalk := (reach_eq_walk haccepted hcurrent).symm.trans hlocate
          rcases FileTree.get?_of_walk (FileTree.get?_startFrom fs.anchored path) hwalk with
            ⟨place, found, hspot, -⟩ | ⟨place, hspot, -⟩
          · cases hspot
          · cases hspot
      | taken place found =>
          obtain rfl : found = entry := by simpa [hlocate, Except.bind, Spot.entry?] using h
          exact ⟨place, find_eq_ok_iff.2 hlocate⟩

theorem entryAt_of_find (h : fs.find ending path = .ok (location, entry)) :
    fs.entryAt ending path = .ok entry := by
  rw [entryAt, find_eq_ok_iff.1 h]
  rfl

theorem isDirectory_iff_entryAt :
    fs.isDirectory path = true ↔ fs.entryAt .follow path = .ok .directory := by
  unfold isDirectory
  split
  · next h => simp [h]
  · next h => simpa using h

theorem pathExists_iff_entryAt :
    fs.pathExists path = true ↔ ∃ entry, fs.entryAt .follow path = .ok entry := by
  unfold pathExists
  cases fs.entryAt .follow path with
  | error fault => simp [Except.isOk, Except.toBool]
  | ok entry => simp [Except.isOk, Except.toBool]

theorem pathExists_of_isDirectory (h : fs.isDirectory path = true) : fs.pathExists path = true :=
  pathExists_iff_entryAt.2 ⟨_, isDirectory_iff_entryAt.1 h⟩

theorem find_of_isDirectory (hcurrent : (path.isAbsolute || fs.hasCurrent) = true)
    (h : fs.isDirectory path = true) :
    ∃ location, fs.find .follow path = .ok (location, .directory) :=
  find_of_entryAt hcurrent (isDirectory_iff_entryAt.1 h)

/-- A directory that is found is led to, over no more links than are followed. -/
theorem leads_of_isDirectory (habsolute : path.isAbsolute) (h : fs.isDirectory path = true) :
    path.hasNul = false ∧ ∃ used ≤ linkLimit, ∃ there, fs.tree.Leads [] path.hops used there := by
  obtain ⟨there, hfind⟩ := find_of_isDirectory (by rw [habsolute, Bool.true_or]) h
  obtain ⟨haccepted, hwalk⟩ := walk_of_find (by rw [habsolute, Bool.true_or]) hfind
  rw [Path.startFrom_of_isAbsolute habsolute] at hwalk
  obtain ⟨used, hused, hleads⟩ := FileTree.leads_of_walk hwalk
  exact ⟨haccepted.nulFree, used, hused, there, hleads⟩

theorem isDirectory_of_find (h : fs.find .follow path = .ok (location, .directory)) :
    fs.isDirectory path = true :=
  isDirectory_iff_entryAt.2 (entryAt_of_find h)

theorem isFile_iff_find (hcurrent : (path.isAbsolute || fs.hasCurrent) = true) :
    fs.isFile path = true ↔
      ∃ location content, fs.find .follow path = .ok (location, .file content) := by
  constructor
  · intro h
    unfold isFile at h
    split at h
    · next content hentry =>
        obtain ⟨location, hfind⟩ := find_of_entryAt hcurrent hentry
        exact ⟨location, content, hfind⟩
    · cases h
  · rintro ⟨location, content, hfind⟩
    rw [isFile, entryAt_of_find hfind]

theorem isDirectory_iff_find (hcurrent : (path.isAbsolute || fs.hasCurrent) = true) :
    fs.isDirectory path = true ↔ ∃ location, fs.find .follow path = .ok (location, .directory) :=
  ⟨find_of_isDirectory hcurrent, fun ⟨_, hfind⟩ => isDirectory_of_find hfind⟩

theorem pathExists_of_find (h : fs.find .follow path = .ok (location, entry)) :
    fs.pathExists path = true :=
  pathExists_iff_entryAt.2 ⟨_, entryAt_of_find h⟩

theorem isAbsolute_or_hasCurrent_of_canonicalize {location : Location}
    (h : fs.canonicalize path = .ok location) : (path.isAbsolute || fs.hasCurrent) = true := by
  unfold canonicalize at h
  split at h
  · cases h
  · next hstart => simpa [Bool.or_eq_true, or_iff_not_imp_left] using hstart

theorem find_spell_of_canonicalize (h : fs.canonicalize path = .ok location) :
    ∃ entry, fs.find .spell path = .ok (location, entry) := by
  unfold canonicalize at h
  split at h
  · cases h
  · cases hfind : fs.find .spell path with
    | error fault => simp [hfind, Except.map] at h
    | ok found =>
        obtain rfl : found.1 = location := by simpa [hfind, Except.map] using h
        exact ⟨found.2, rfl⟩

/-- The walk that has found the location of a path. -/
theorem walk_of_canonicalize (h : fs.canonicalize path = .ok location) :
    path.hasNul = false ∧ path.isEmpty = false ∧ ∃ entry,
      fs.tree.walk .spell linkLimit (path.startFrom fs.current.anchor) path.hops =
        .ok (.taken location entry) := by
  obtain ⟨entry, hfind⟩ := find_spell_of_canonicalize h
  obtain ⟨haccepted, hwalk⟩ :=
    walk_of_find (isAbsolute_or_hasCurrent_of_canonicalize h) hfind
  exact ⟨haccepted.nulFree, haccepted.nonempty, entry, hwalk⟩

/-- The location of a path is where it leads. -/
theorem find_of_canonicalize (h : fs.canonicalize path = .ok location)
    (hsize : path.size ≤ Path.maxSize) :
    ∃ entry, fs.find .follow path = .ok (location, entry) := by
  obtain ⟨hnul, hempty, entry, hwalk⟩ := walk_of_canonicalize h
  refine ⟨entry, find_eq_ok_iff.2 ?_⟩
  rw [locate, reach_eq_walk ⟨hnul, hempty, .inr hsize⟩ (isAbsolute_or_hasCurrent_of_canonicalize h)]
  exact FileTree.walk_follow_of_ok (by simp) hwalk

theorem leads_of_resolveLenient (h : fs.resolveLenient path = .ok location) :
    (path.isAbsolute || fs.hasCurrent) = true := by
  unfold resolveLenient at h
  split at h
  · cases h
  · next hleads => simpa [Bool.or_eq_true, or_iff_not_imp_left] using hleads

theorem exists_of_resolveExisting (h : fs.resolveExisting path = .ok location) :
    fs.pathExists path = true ∧ fs.canonicalize path = .ok location := by
  unfold resolveExisting at h
  split at h
  · next hexists =>
      split at h
      · next place hplace =>
          cases h
          exact ⟨hexists, hplace⟩
      · cases h
  · cases h

theorem canonicalize_of_resolveExisting (h : fs.resolveExisting path = .ok location) :
    fs.canonicalize path = .ok location :=
  (exists_of_resolveExisting h).2

theorem find_of_resolveExisting (h : fs.resolveExisting path = .ok location) :
    (path.isAbsolute || fs.hasCurrent) = true ∧
      ∃ entry, fs.find .follow path = .ok (location, entry) := by
  obtain ⟨hexists, hcanonical⟩ := exists_of_resolveExisting h
  have hcurrent := isAbsolute_or_hasCurrent_of_canonicalize hcanonical
  obtain ⟨entry, hentry⟩ := pathExists_iff_entryAt.1 hexists
  obtain ⟨place, hplace⟩ := find_of_entryAt hcurrent hentry
  have hsize := (acceptable_of_reach (find_eq_ok_iff.1 hplace)).size_le.resolve_left (by simp)
  exact ⟨hcurrent, find_of_canonicalize hcanonical hsize⟩

/-- A path that is added to one that leads to a directory leads on from there. -/
theorem walk_of_find_join {left right : Path} {target : Location}
    (hright : right.isAbsolute = false)
    (hleft : fs.find .follow left = .ok (target, .directory))
    (h : fs.find .keep (left.join right) = .ok (location, entry)) :
    ∃ links, fs.tree.walk .keep links target right.hops = .ok (.taken location entry) := by
  have hstart := fs.current.isLeftOf_append_replicate
  rcases walk_of_reach hstart (find_eq_ok_iff.1 hleft) with ⟨hspot, -⟩ | hwalk
  · cases hspot
  · rcases walk_of_reach hstart (find_eq_ok_iff.1 h) with ⟨hspot, -⟩ | hjoin
    · cases hspot
    · obtain ⟨used, hused, hled⟩ := FileTree.leads_of_walk hwalk
      obtain ⟨front, hhops, hledFront⟩ := FileTree.exists_leads_join hright hled
      have hlinks : linkLimit = used + (linkLimit - used) := by omega
      rw [Path.startFrom, (Path.body_join left hright).1, ← Path.startFrom, hhops, hlinks,
        hledFront.walk_append (Path.hops_ne_nil hright) (.inr rfl)] at hjoin
      exact ⟨_, hjoin⟩

end FileSystem

end Snapshot
