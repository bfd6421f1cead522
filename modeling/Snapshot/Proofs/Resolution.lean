import Snapshot.Proofs.Cuts
import Snapshot.Proofs.Spelling

/-!
# As far as a path exists

A path is resolved from the longest part of it that exists, and the rest of it is taken as it reads.
Some part of a path always exists, no longer one does, and where the whole path leads is where it is
resolved to if its rest passes no link. If no way up is in its rest, a directory that is created for
it is new.
-/

namespace Snapshot

namespace FileSystem

open FileTree

variable {fs after : FileSystem} {path : Path} {location target : Location} {rest : List Hop}
  {ending : Ending} {links : Nat}

/-- The path from the root that a path is short for. -/
def absolute (fs : FileSystem) (path : Path) : Path :=
  (Path.ofLocation fs.current.anchor).join path

/-- As far as the path exists it leads to the location, and the hops are what is left of it. -/
def ExistsUpTo (fs : FileSystem) (path : Path) (location : Location) (rest : List Hop) : Prop :=
  ∃ count,
    (fs.absolute path).cuts.find?
      (fun count => (fs.canonicalize ((fs.absolute path).upTo count)).isOk) = some count ∧
    fs.canonicalize ((fs.absolute path).upTo count) = .ok location ∧
    rest = ((fs.absolute path).body.drop count).map Hop.ofSegment

/-- A path is resolved from the longest part of it that exists. -/
theorem ExistsUpTo.resolveLenient (h : fs.ExistsUpTo path location rest)
    (hcurrent : (path.isAbsolute || fs.hasCurrent) = true) :
    fs.resolveLenient path = .ok (location.follow rest) := by
  obtain ⟨count, hfirst, hlocation, rfl⟩ := h
  obtain ⟨-, longer, shorter, hcuts, hlonger⟩ := List.find?_eq_some_iff_append.1 hfirst
  have hfails (cut : Nat) (hcut : cut ∈ longer) :
      resolveLenient.resolveCut? fs (fs.absolute path) cut = none := by
    have hfault := hlonger cut hcut
    unfold resolveLenient.resolveCut?
    split
    · next place hplace => simp [hplace, Except.isOk, Except.toBool] at hfault
    · rfl
  have hfound : (fs.absolute path).cuts.findSome?
      (resolveLenient.resolveCut? fs (fs.absolute path)) =
        some (location.follow (((fs.absolute path).body.drop count).map Hop.ofSegment)) := by
    rw [hcuts, List.findSome?_append, List.findSome?_eq_none_iff.2 hfails, Option.none_or,
      List.findSome?_cons, resolveLenient.resolveCut?, hlocation, ← Location.foldl_extend]
    rfl
  have hstarts : (!path.isAbsolute && !fs.hasCurrent) = false := by
    rw [← Bool.not_or, hcurrent, Bool.not_true]
  rw [absolute] at hfound
  unfold FileSystem.resolveLenient
  rw [hstarts]
  dsimp only
  rw [hfound]
  rfl

theorem isAbsolute_absolute (fs : FileSystem) (path : Path) : (fs.absolute path).isAbsolute :=
  Path.isAbsolute_ofLocation_join

/-- From the root a path leads through the names of the current directory, unless it starts at the
root itself. -/
theorem exists_hops_absolute (fs : FileSystem) (path : Path) :
    ∃ front, (fs.absolute path).hops = front ++ path.hops ∧
      ∃ slashes, (∀ hop ∈ slashes, hop = .slash) ∧
        front = slashes ++ (path.startFrom fs.current.anchor).map Hop.into := by
  cases habsolute : path.isAbsolute with
  | true =>
      refine ⟨[], ?_, [], by simp, ?_⟩
      · rw [absolute, Path.join, if_pos habsolute, List.nil_append]
      · rw [Path.startFrom_of_isAbsolute habsolute]
        rfl
  | false =>
      obtain ⟨front, hjoin, hfront⟩ :=
        Path.exists_hops_join (Path.ofLocation fs.current.anchor) habsolute
      refine ⟨front, hjoin, ?_⟩
      rw [Path.hops_ofLocation fs.isPlain_anchor] at hfront
      rw [Path.startFrom, habsolute, if_neg (by simp)]
      by_cases hroot : fs.current.anchor = []
      · rw [if_pos hroot] at hfront
        refine ⟨front, fun hop hhop => ?_, by simp [hroot]⟩
        rcases hfront with heq | heq
        · simpa [← heq] using hhop
        · obtain rfl : front = [] := by simpa using congrArg List.length heq
          simp at hhop
      · rw [if_neg hroot] at hfront
        refine ⟨[], by simp, hfront.elim Eq.symm fun heq => ?_⟩
        -- the last hop of a location is a name
        have hlast := congrArg List.getLast? heq
        simp [List.getLast?_map] at hlast

/-- What following a path from the root comes to. -/
theorem walk_absolute (hwrite : ending ≠ .write)
    (hadmits : ending.admits (path.startFrom fs.current.anchor)) :
    fs.tree.walk ending links [] (fs.absolute path).hops =
      fs.tree.walk ending links (path.startFrom fs.current.anchor) path.hops := by
  obtain ⟨front, hhops, slashes, hslashes, rfl⟩ := fs.exists_hops_absolute path
  rw [hhops]
  exact walk_root_append hslashes hwrite (get?_startFrom fs.anchored path) hadmits

/-- A location that can be spelled is found by following the path from the root. -/
theorem walk_absolute_of_canonicalize (h : fs.canonicalize path = .ok location) :
    ∃ entry, fs.tree.walk .follow linkLimit [] (fs.absolute path).hops =
      .ok (.taken location entry) := by
  obtain ⟨-, -, entry, hwalk⟩ := walk_of_canonicalize h
  rw [walk_absolute (by simp) (by simp [Ending.admits])]
  exact ⟨entry, walk_follow_of_ok (by simp) hwalk⟩

/-- The walk to as far as a path exists. -/
theorem walk_of_existsUpTo (h : fs.ExistsUpTo path location rest) :
    ∃ front found, (fs.absolute path).hops = front ++ rest ∧
      fs.tree.walk .spell linkLimit [] front = .ok (.taken location found) := by
  obtain ⟨count, -, hlocation, rfl⟩ := h
  obtain ⟨-, -, found, hwalk⟩ := walk_of_canonicalize hlocation
  have habsolute := (Path.isAbsolute_upTo _ count).trans (isAbsolute_absolute fs path)
  rw [Path.startFrom_of_isAbsolute habsolute, walk_hops_upTo] at hwalk
  refine ⟨_, found, ?_, hwalk⟩
  rw [← List.map_append, List.take_append_drop, Path.hops]

/-- Where a path leads is where it is resolved to, as far as the rest of it passes no link. The tree
may have got more in between. -/
theorem eq_follow_of_canonicalize
    (hsub : ∀ place entry, fs.tree.get? place = some entry → after.tree.get? place = some entry)
    (hcurrent : after.current = fs.current) (hexists : fs.ExistsUpTo path location rest)
    (hstraight : after.tree.Straight location rest) (h : after.canonicalize path = .ok target) :
    target = location.follow rest := by
  obtain ⟨front, found, hhops, hfront⟩ := walk_of_existsUpTo hexists
  obtain ⟨entry, hwalk⟩ := walk_absolute_of_canonicalize h
  have habsolute : after.absolute path = fs.absolute path := by rw [absolute, absolute, hcurrent]
  rw [habsolute, hhops] at hwalk
  have hfollow := walk_follow_of_ok (by simp) hfront
  exact eq_follow_of_walk_append (walk_mono hsub hfollow) hwalk hstraight

theorem canonicalize_of_walk {entry : Entry} (habsolute : path.isAbsolute)
    (hnul : path.hasNul = false)
    (h : fs.tree.walk .spell linkLimit [] path.hops = .ok (.taken location entry)) :
    fs.canonicalize path = .ok location := by
  have hfind : fs.find .spell path = .ok (location, entry) :=
    find_eq_ok_iff.2 ((locate_eq_ok_iff_of_isAbsolute habsolute).2 ⟨hnul, .inl rfl, h⟩)
  rw [canonicalize, habsolute, hfind]
  rfl

/-- Of every path from the root at least a part exists that no name stands in. -/
theorem exists_existsUpTo (fs : FileSystem) (path : Path) :
    ∃ location rest, fs.ExistsUpTo path location rest := by
  obtain ⟨count, hcount, hblank⟩ := Path.exists_blank_cut (isAbsolute_absolute fs path)
  have hnameless (hop : Hop) (hhop : hop ∈ ((fs.absolute path).body.take count).map Hop.ofSegment) :
      hop.name? = none := by
    obtain ⟨segment, hsegment, rfl⟩ := List.mem_map.1 hhop
    rcases Segment.eq_of_isBlank (hblank segment hsegment) with rfl | rfl <;> rfl
  have hnul : ((fs.absolute path).upTo count).hasNul = false := by
    rw [Path.hasNul_eq_any_body, List.any_eq_false, Path.body_upTo]
    intro segment hsegment
    split at hsegment
    · rw [List.mem_singleton.1 hsegment]
      decide
    · rcases Segment.eq_of_isBlank (hblank segment hsegment) with rfl | rfl <;> decide
  have hroot : fs.tree.walk .spell linkLimit [] ((fs.absolute path).upTo count).hops =
      .ok (.taken (Location.follow [] (((fs.absolute path).body.take count).map Hop.ofSegment))
        .directory) := by
    rw [walk_hops_upTo, ← List.append_nil (List.map _ _), walk_append_of_nameless hnameless,
      walk_nil, List.append_nil]
  have hlocation := canonicalize_of_walk
    ((Path.isAbsolute_upTo _ count).trans (isAbsolute_absolute fs path)) hnul hroot
  have hsome : ((fs.absolute path).cuts.find? fun count =>
      (fs.canonicalize ((fs.absolute path).upTo count)).isOk).isSome :=
    List.find?_isSome.2 ⟨count, hcount, by simp [hlocation, Except.isOk, Except.toBool]⟩
  obtain ⟨cut, hcut⟩ := Option.isSome_iff_exists.1 hsome
  have hok := List.find?_some hcut
  cases hplace : fs.canonicalize ((fs.absolute path).upTo cut) with
  | error fault => simp [hplace, Except.isOk, Except.toBool] at hok
  | ok place => exact ⟨place, _, cut, hcut, hplace, rfl⟩

theorem not_hasNul_absolute (h : path.hasNul = false) : (fs.absolute path).hasNul = false := by
  cases habsolute : path.isAbsolute with
  | true => rwa [absolute, Path.join, if_pos habsolute]
  | false =>
      rw [absolute, Path.hasNul_join habsolute, h, Bool.or_false]
      have hanchor : fs.tree.get? (Path.ofLocation fs.current.anchor).names = some .directory := by
        rw [Path.names_ofLocation fs.isPlain_anchor]
        exact fs.anchored
      exact not_hasNul_of_get? hanchor

/-- No longer part of a path exists than the one that it exists up to. -/
theorem ExistsUpTo.not_longer {mid more : List Hop} {name : Segment}
    (h : fs.ExistsUpTo path location (mid ++ .into name :: more)) (hnul : path.hasNul = false)
    (hmore : ∃ later, Hop.into later ∈ more) :
    ∃ front found, (fs.absolute path).hops = front ++ (mid ++ .into name :: more) ∧
      fs.tree.walk .spell linkLimit [] front = .ok (.taken location found) ∧
      ∀ place entry, fs.tree.walk .spell linkLimit [] (front ++ (mid ++ [.into name])) ≠
        .ok (.taken place entry) := by
  obtain ⟨count, hfirst, hlocation, hrest⟩ := h
  obtain ⟨front, found, hhops, hwalk⟩ := walk_of_existsUpTo ⟨count, hfirst, hlocation, rfl⟩
  rw [← hrest] at hhops
  refine ⟨front, found, hhops, hwalk, fun place entry hplace => ?_⟩
  -- the part up to the name is one that was tried
  obtain ⟨above, below, hbody, habove, hbelow⟩ :=
    List.map_eq_append_iff.1 (hhops.trans (List.append_assoc front mid _).symm)
  obtain ⟨segment, later, rfl, hsegment, hlater⟩ := List.map_eq_cons_iff.1 hbelow
  have hname : ∃ other ∈ later, other.isBlank = false := by
    obtain ⟨other, hother⟩ := hmore
    obtain ⟨part, hpart, heq⟩ := List.mem_map.1 (hlater ▸ hother)
    exact ⟨part, hpart, Segment.not_isBlank_of_ofSegment heq⟩
  have hcount : count ≤ above.length := by
    have hlength := congrArg List.length hrest
    have htotal := congrArg List.length hhops
    have habove := congrArg List.length habove
    simp only [Path.hops, List.length_map, List.length_drop, List.length_append,
      List.length_cons] at hlength htotal habove
    omega
  have hfails :=
    Path.not_of_find?_cuts hbody (Segment.not_isBlank_of_ofSegment hsegment) hname hcount hfirst
  have hwhole : (fs.absolute path).body = (above ++ [segment]) ++ later := by simp [hbody]
  have hlonger : fs.tree.walk .spell linkLimit []
      ((fs.absolute path).upTo (above.length + 1)).hops = .ok (.taken place entry) := by
    rw [walk_hops_upTo, hwhole, List.take_left' (by simp), List.map_append, habove,
      List.map_singleton, hsegment, List.append_assoc]
    exact hplace
  rw [canonicalize_of_walk ((Path.isAbsolute_upTo _ _).trans (isAbsolute_absolute fs path))
    (Path.not_hasNul_upTo (not_hasNul_absolute hnul) _) hlonger] at hfails
  cases hfails

/-! ## Directories that are new -/

/-- No way up is left of the path behind the part of it that exists. -/
def GoesDownBeyond (fs : FileSystem) (path : Path) : Prop :=
  ∀ location rest, fs.ExistsUpTo path location rest → Hop.up ∉ rest

theorem goesDownBeyond_of_not_up (hup : Hop.up ∉ path.hops) : fs.GoesDownBeyond path := by
  intro location rest hexists hmem
  obtain ⟨front, found, hfront, -⟩ := walk_of_existsUpTo hexists
  obtain ⟨start, hstart, slashes, hslashes, rfl⟩ := fs.exists_hops_absolute path
  have hwhole : Hop.up ∈ (fs.absolute path).hops := by
    rw [hfront]
    exact List.mem_append_right _ hmem
  rw [hstart, List.mem_append, List.mem_append] at hwhole
  rcases hwhole with (hslash | hname) | hpath
  · cases hslashes _ hslash
  · simp at hname
  · exact hup hpath

/-- A part of a path that leads to a new directory is longer than the part that exists. -/
theorem GoesDownBeyond.not_up_of_new (hbeyond : fs.GoesDownBeyond path)
    (hsub : ∀ place entry, fs.tree.get? place = some entry → after.tree.get? place = some entry)
    (hnew : fs.tree.get? location = none) {count : Nat} {entry : Entry}
    (hpart : after.tree.walk .follow linkLimit (path.startFrom fs.current.anchor)
      ((path.body.take count).map Hop.ofSegment) = .ok (.taken location entry)) :
    Hop.up ∉ (path.body.drop count).map Hop.ofSegment := by
  obtain ⟨there, rest, hexists⟩ := fs.exists_existsUpTo path
  obtain ⟨front, found, hfront, hwalk⟩ := walk_of_existsUpTo hexists
  obtain ⟨start, hstart, slashes, hslashes, rfl⟩ := fs.exists_hops_absolute path
  have hanchor := get?_startFrom fs.anchored path
  have hparts : front ++ rest =
      slashes ++ (path.startFrom fs.current.anchor).map Hop.into ++
        (path.body.take count).map Hop.ofSegment ++ (path.body.drop count).map Hop.ofSegment := by
    rw [← hfront, hstart, List.append_assoc _ (List.map _ (List.take _ _)), ← List.map_append,
      List.take_append_drop, Path.hops]
  rcases List.append_eq_append_iff.1 hparts with ⟨middle, -, hrest⟩ | ⟨middle, hlonger, -⟩
  · intro hmem
    refine hbeyond _ _ hexists ?_
    rw [hrest]
    exact List.mem_append_right _ hmem
  · -- otherwise the part would have led somewhere before
    have hbefore := walk_follow_of_ok (by simp) hwalk
    rw [hlonger, List.append_assoc, walk_root_append hslashes (by simp) hanchor
      (by simp [Ending.admits])] at hbefore
    have hthere : ∃ place old, fs.tree.walk .follow linkLimit (path.startFrom fs.current.anchor)
        ((path.body.take count).map Hop.ofSegment) = .ok (.taken place old) := by
      by_cases hmiddle : middle = []
      · rw [hmiddle, List.append_nil] at hbefore
        exact ⟨_, _, hbefore⟩
      · obtain ⟨used, left, place, hlinks, hleads, -⟩ := walk_append_eq_ok hmiddle hbefore
        rw [hlinks]
        exact ⟨place, .directory, hleads.walk_follow⟩
    obtain ⟨place, old, hold⟩ := hthere
    have hsame := (walk_mono hsub hold).symm.trans hpart
    cases hsame
    have hplace : fs.tree.get? location = some entry := by simpa using get?_of_walk hanchor hold
    simp [hnew] at hplace

section Created

variable {entry : Entry} {target : Location} (hleads : (path.isAbsolute || fs.hasCurrent) = true)
  (hbeyond : fs.GoesDownBeyond path)
  (hfind : (fs.createDirectories path).1.find .follow path = .ok (target, entry))

include hleads hbeyond hfind

/-- What is added for a path that only leads down behind the part that exists has only directories
below it, so the rest of the path leads down from it. -/
theorem prefix_of_created (hnew : fs.tree.get? location = none) {count : Nat}
    (hcount : (fs.createDirectories path).1.find .follow (path.upTo count) =
      .ok (location, .directory)) : location <+: target := by
  obtain ⟨hadded, hcurrent⟩ := createDirectories_leads fs path
  generalize (fs.createDirectories path).1 = after at hfind hcount hadded hcurrent
  rw [hasCurrent, ← hcurrent] at hleads
  have hthere := get?_of_find hcount
  obtain ⟨-, hwhole⟩ := walk_of_find hleads hfind
  obtain ⟨-, hpart⟩ := walk_of_find (by rwa [Path.isAbsolute_upTo]) hcount
  rw [Path.startFrom, Path.isAbsolute_upTo, ← Path.startFrom, walk_hops_upTo, hcurrent] at hpart
  have hdown := hbeyond.not_up_of_new (fun _ _ => hadded.keeps) hnew hpart
  have hparts : path.hops = (path.body.take count).map Hop.ofSegment ++
      (path.body.drop count).map Hop.ofSegment := by
    rw [← List.map_append, List.take_append_drop, Path.hops]
  rw [hparts, hcurrent] at hwhole
  obtain ⟨used, hused, hled⟩ := leads_of_walk hpart
  by_cases hrest : (path.body.drop count).map Hop.ofSegment = []
  · rw [hrest, List.append_nil, hpart] at hwhole
    cases hwhole
    exact List.prefix_rfl
  · have hlinks : linkLimit = used + (linkLimit - used) := by omega
    rw [hlinks, hled.walk_append hrest (.inl rfl)] at hwhole
    have hstraight : after.tree.Straight location ((path.body.drop count).map Hop.ofSegment) := by
      intro way hway link hlink
      rw [Location.follow_of_not_up fun hmem => hdown (hway.subset hmem)] at hlink
      rcases hadded.adds hlink with hold | ⟨hdirectory, -⟩
      · obtain ⟨found, hfound⟩ := exists_get?_of_prefix (List.prefix_append _ _) hold
        simp [hnew] at hfound
      · cases hdirectory
    obtain ⟨rfl, -⟩ := walk_holds_of_straight hstraight hthere hwhole
    rw [Location.follow_of_not_up hdown]
    exact List.prefix_append _ _

/-- A missing directory is new and nothing is in it, if its path only leads down behind the part
that exists. -/
theorem free_of_created (hmissing : fs.pathExists path = false) :
    fs.tree.get? target = none ∧ ∀ name below,
      (fs.createDirectories path).1.tree.get? (target ++ name :: below) = none := by
  obtain ⟨hadded, hcurrent⟩ := createDirectories_leads fs path
  have hnewAbove {place : Location} {found : Entry} (hnew : fs.tree.get? place = none)
      (hfound : (fs.createDirectories path).1.tree.get? place = some found) :
      place <+: target := by
    rcases hadded.adds hfound with hold | ⟨-, count, hcount⟩
    · simp [hnew] at hold
    · exact prefix_of_created hleads hbeyond hfind hnew hcount
  have hfree : fs.tree.get? target = none := by
    by_contra htaken
    obtain ⟨old, hold⟩ := Option.ne_none_iff_exists'.1 htaken
    -- nothing above it is new then, so the path would have led there before
    have hsame (place : Location) (found : Entry)
        (hfound : (fs.createDirectories path).1.tree.get? place = some found) :
        fs.tree.get? place = some found := by
      cases hplace : fs.tree.get? place with
      | none =>
          obtain ⟨above, habove⟩ := exists_get?_of_prefix (hnewAbove hplace hfound) hold
          simp [hplace] at habove
      | some before => exact (hadded.keeps hplace).symm.trans hfound
    have hstart := fs.current.isLeftOf_append_replicate
    have hbefore := find_mono hsame (hcurrent ▸ hstart) hstart (hcurrent ▸ Nat.le_refl _) hfind
    rw [pathExists_of_find hbefore] at hmissing
    cases hmissing
  refine ⟨hfree, fun name below => ?_⟩
  by_contra htaken
  obtain ⟨found, hfound⟩ := Option.ne_none_iff_exists'.1 htaken
  cases hplace : fs.tree.get? (target ++ name :: below) with
  | none =>
      have hlength := (hnewAbove hplace hfound).length_le
      rw [List.length_append, List.length_cons] at hlength
      omega
  | some before => simp [get?_of_get?_append hplace] at hfree

end Created

end FileSystem

end Snapshot
