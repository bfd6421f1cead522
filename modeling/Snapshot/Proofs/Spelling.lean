import Snapshot.Proofs.Requests

/-!
# Walks in parts

A location is spelled by a path if a walk comes to it on which every location fits into a path. What
leads to a directory can be cut off a walk, and the rest of the walk goes on from there: as the rest
of the path reads, if it passes no link. A free place cuts a walk as well: nothing goes on from it,
and below it there can be new directories only.
-/

namespace Snapshot

namespace FileTree

variable {tree : FileTree} {here there location target : Location} {front rest hops : List Hop}
  {ending : Ending} {entry found : Entry} {links : Nat}

theorem walk_hops_upTo (path : Path) (count : Nat) :
    tree.walk ending links here (path.upTo count).hops =
      tree.walk ending links here ((path.body.take count).map Hop.ofSegment) := by
  rw [Path.hops_upTo]
  split
  · next hempty => rw [hempty, List.map_nil, walk_step rfl, Location.hop]
  · rfl

/-- Names that lead to a directory are gone through one after the other. -/
theorem walk_names_append {names : Location} (hwrite : ending ≠ .write)
    (hdirectory : tree.get? (here ++ names) = some .directory)
    (hadmits : ending.admits (here ++ names)) :
    tree.walk ending links here (names.map Hop.into ++ rest) =
      tree.walk ending links (here ++ names) rest := by
  induction names generalizing here with
  | nil => simp
  | cons name names ih =>
      rw [List.append_cons] at hdirectory hadmits ⊢
      have hplace : tree.get? (here ++ [name]) = some .directory := by
        cases names with
        | nil => rwa [List.append_nil] at hdirectory
        | cons next names => exact get?_of_get?_append hdirectory
      rw [List.map_cons, List.cons_append,
        walk_into_directory hwrite (admits_of_append hadmits) hplace]
      exact ih hdirectory hadmits

/-- From the root a location is reached by its names, also after slashes. -/
theorem walk_root_append {slashes : List Hop} (hslashes : ∀ hop ∈ slashes, hop = .slash)
    (hwrite : ending ≠ .write) (hdirectory : tree.get? here = some .directory)
    (hadmits : ending.admits here) :
    tree.walk ending links [] (slashes ++ here.map Hop.into ++ rest) =
      tree.walk ending links here rest := by
  have hnameless (hop : Hop) (hhop : hop ∈ slashes) : hop.name? = none := by
    rw [hslashes hop hhop]
    rfl
  rw [List.append_assoc, walk_append_of_nameless hnameless, Location.follow_of_slashes hslashes]
  exact walk_names_append hwrite hdirectory hadmits

theorem admits_of_walk_into {name : Segment} {spot : Spot}
    (h : tree.walk ending links here (.into name :: hops) = .ok spot) :
    ending.admits (here ++ [name]) := by
  rw [walk_into] at h
  split at h
  · cases h
  · split at h
    · cases h
    · next hsize => simpa using (not_or.1 hsize).2

/-- A walk that goes down from a location can look at it. -/
theorem admits_of_walk {spot : Spot} (hup : Hop.up ∉ hops)
    (hnames : hops.filterMap Hop.name? ≠ []) (h : tree.walk ending links here hops = .ok spot) :
    ending.admits here := by
  induction hops generalizing here with
  | nil => exact absurd rfl hnames
  | cons hop hops ih =>
      have hrest : Hop.up ∉ hops := fun hmem => hup (List.mem_cons_of_mem _ hmem)
      cases hop with
      | up => exact absurd List.mem_cons_self hup
      | slash | dot =>
          rw [walk_step rfl] at h
          exact ih hrest hnames h
      | into name => exact admits_of_append (admits_of_walk_into h)

/-- A walk through names can look at the directory that they lead to. -/
theorem admits_of_walk_names {names : Location} {spot : Spot} (hhere : ending.admits here)
    (hwrite : ending ≠ .write) (hdirectory : tree.get? (here ++ names) = some .directory)
    (h : tree.walk ending links here (names.map Hop.into ++ rest) = .ok spot) :
    ending.admits (here ++ names) := by
  induction names generalizing here with
  | nil => simpa using hhere
  | cons name names ih =>
      have hplace := admits_of_walk_into h
      rw [List.append_cons] at hdirectory ⊢
      have hname : tree.get? (here ++ [name]) = some .directory := by
        cases names with
        | nil => rwa [List.append_nil] at hdirectory
        | cons next names => exact get?_of_get?_append hdirectory
      rw [List.map_cons, List.cons_append, walk_into_directory hwrite hplace hname] at h
      exact ih hplace hdirectory h

theorem admits_of_walk_root {slashes : List Hop} {spot : Spot}
    (hslashes : ∀ hop ∈ slashes, hop = .slash) (hwrite : ending ≠ .write)
    (hdirectory : tree.get? here = some .directory)
    (h : tree.walk ending links [] (slashes ++ here.map Hop.into ++ rest) = .ok spot) :
    ending.admits here := by
  have hnameless (hop : Hop) (hhop : hop ∈ slashes) : hop.name? = none := by
    rw [hslashes hop hhop]
    rfl
  rw [List.append_assoc, walk_append_of_nameless hnameless,
    Location.follow_of_slashes hslashes] at h
  have hroot : ending.admits [] := by simp [Ending.admits, Location.size, Segment.sizeWithSlashes]
  exact admits_of_walk_names hroot hwrite hdirectory h

/-- Hops that go into no name stay among directories. -/
theorem get?_follow_of_nameless (hhere : tree.get? here = some .directory)
    (hhops : ∀ hop ∈ hops, hop.name? = none) : tree.get? (here.follow hops) = some .directory := by
  induction hops generalizing here with
  | nil => exact hhere
  | cons hop hops ih =>
      exact ih (get?_hop hhere (hhops hop List.mem_cons_self)) fun later hmem =>
        hhops later (List.mem_cons_of_mem _ hmem)

/-- Hops that lead somewhere and are walked in a tree that has more, each place spelled, are walked
so in any case. -/
theorem Leads.walk_spell_append {small big : FileTree} {used : Nat} {spot : Spot}
    (hsub : ∀ place entry, small.get? place = some entry → big.get? place = some entry)
    (h : small.Leads here front used there)
    (hbig : big.walk .spell links here (front ++ rest) = .ok spot) (more : Nat)
    (later : List Hop) :
    small.walk .spell (used + more) here (front ++ later) =
      small.walk .spell more there later := by
  induction h generalizing links with
  | nil => simp
  | step hhop _ ih => exact (walk_step hhop).trans (ih (walk_step hhop ▸ hbig))
  | into hdirectory _ ih =>
      have hadmits := admits_of_walk_into hbig
      rw [List.cons_append, walk_into_directory (by simp) hadmits (hsub _ _ hdirectory)] at hbig
      exact (walk_into_directory (by simp) hadmits hdirectory).trans (ih hbig)
  | @link _ _ _ target hops used hlink _ ih =>
      have hadmits := admits_of_walk_into hbig
      rw [Nat.add_right_comm, List.cons_append,
        walk_into_link (by simp) hadmits hlink (.inr (by simp)), chase, ← List.append_assoc]
      rw [List.cons_append,
        walk_into_link (by simp) hadmits (hsub _ _ hlink) (.inr (by simp))] at hbig
      -- the longer walk has a link left for this one, or it would have failed
      cases links with
      | zero => cases hbig
      | succ fewer =>
          rw [chase, ← List.append_assoc] at hbig
          exact ih hbig

/-- What hops lead to can be spelled if a longer walk can be, in a tree that has more. -/
theorem Leads.walk_spell {small big : FileTree} {used : Nat} {spot : Spot}
    (hsub : ∀ place entry, small.get? place = some entry → big.get? place = some entry)
    (h : small.Leads here front used there)
    (hbig : big.walk .spell links here (front ++ rest) = .ok spot) (more : Nat) :
    small.walk .spell (used + more) here front = .ok (.taken there .directory) := by
  simpa using h.walk_spell_append hsub hbig more []

/-- A walk ends where the hops lead. -/
theorem Leads.end_of_walk {left : Nat} (h : tree.Leads here hops links there)
    (hwalk : tree.walk .follow (links + left) here hops = .ok (.taken location found)) :
    location = there ∧ found = .directory := by
  have hthere : tree.walk .follow (links + left) here hops = .ok (.taken there .directory) :=
    h.walk_follow
  simpa [hwalk] using hthere

/-- Where a path leads, the part after some hops leads from where they lead, as it reads unless a
link is passed. -/
theorem eq_follow_of_walk_append
    (hfront : tree.walk .follow links [] front = .ok (.taken location found))
    (h : tree.walk .follow links [] (front ++ rest) = .ok (.taken target entry))
    (hstraight : tree.Straight location rest) : target = location.follow rest := by
  by_cases hrest : rest = []
  · rw [hrest, List.append_nil, hfront] at h
    cases h
    rw [hrest, Location.follow_nil]
  · obtain ⟨used, left, middle, rfl, hleads, hleft⟩ := walk_append_eq_ok hrest h
    obtain ⟨rfl, rfl⟩ := hleads.end_of_walk hfront
    have hlocation : tree.get? location = some .directory := by
      simpa using get?_of_walk get?_root hfront
    exact (walk_holds_of_straight hstraight hlocation hleft).1

/-- Where a path leads can be spelled, or is too deep somewhere on the way. -/
theorem walk_spell_of_follow {spot : Spot} (h : tree.walk .follow links here hops = .ok spot) :
    tree.walk .spell links here hops = .ok spot ∨
      tree.walk .spell links here hops = .error .nameTooLong := by
  induction links, here, hops using walk_induction with
  | nil links here =>
      rw [walk_nil] at h ⊢
      exact .inl h
  | step links here hop rest hhop ih =>
      rw [walk_step hhop] at h ⊢
      exact ih h
  | into links here name rest ih ihLink =>
      by_cases hadmits : Ending.spell.admits (here ++ [name])
      · rcases walk_into_eq_ok h with
          ⟨hdirectory, hgoes⟩ | ⟨target, fewer, hlink, -, rfl, hgoes⟩ | ⟨rfl, hlast⟩
        · rw [walk_into_directory (by simp) hadmits hdirectory]
          exact ih hgoes
        · rw [walk_into_link (by simp) hadmits hlink (.inr (by simp))]
          exact ihLink fewer rfl target hgoes
        · rw [walk_into, if_neg (by simp)] at h ⊢
          split at h
          · cases h
          · next hsize =>
              left
              rw [if_neg (not_or.2 ⟨fun hlong => hsize (.inl hlong), by simp [hadmits]⟩)]
              rcases hlast with ⟨entry, hentry, hdirectory, hfollowed, rfl⟩ | ⟨hnone, rfl⟩
              · cases entry with
                | directory => exact absurd rfl hdirectory
                | link target => simp at hfollowed
                | file content | socket | sink => simp [hentry]
              · simp [hnone]
      · right
        rw [walk_into, if_neg (by simp), if_pos (.inr (by simpa using hadmits))]

/-- A walk that follows links does not end at one. -/
theorem eq_keep_of_walk_link {aim : Path}
    (h : tree.walk ending links here hops = .ok (.taken location (.link aim))) :
    ending = .keep := by
  induction links, here, hops using walk_induction with
  | nil links here =>
      rw [walk_nil] at h
      cases h
  | step links here hop rest hhop ih =>
      rw [walk_step hhop] at h
      exact ih h
  | into links here name rest ih ihLink =>
      rcases walk_into_eq_ok h with
        ⟨-, hgoes⟩ | ⟨target, fewer, -, -, rfl, hgoes⟩ | ⟨-, ⟨entry, -, -, hkeep, heq⟩ | ⟨-, heq⟩⟩
      · exact ih hgoes
      · exact ihLink fewer rfl target hgoes
      · obtain ⟨-, rfl⟩ := Spot.taken.inj heq
        exact hkeep ⟨aim, rfl⟩
      · cases heq

/-! ### Free places -/

/-- What leads somewhere does not pass a place that is free. -/
theorem exists_middle_of_free {before more : List Hop} {name : Segment} {place : Location}
    (hfront : tree.walk .follow links [] front = .ok (.taken location found))
    (hfree : tree.walk .keep links [] (before ++ [.into name]) = .ok (.free place))
    (heq : front ++ rest = before ++ .into name :: more) :
    ∃ middle, before = front ++ middle ∧ rest = middle ++ .into name :: more := by
  rcases List.append_eq_append_iff.1 heq with ⟨middle, hbefore, hrest⟩ | ⟨middle, rfl, hmore⟩
  · exact ⟨middle, hbefore, hrest⟩
  · rcases List.cons_eq_append_iff.1 hmore with ⟨rfl, hrest⟩ | ⟨tail, rfl, -⟩
    · exact ⟨[], by simp, hrest⟩
    · -- the front would go on from the free place
      obtain ⟨_, _, there, -, hleads, hlast⟩ := walk_append_eq_ok (List.cons_ne_nil _ _) hfree
      obtain ⟨_, _, other, -, hother, hpast⟩ := walk_append_eq_ok (List.cons_ne_nil _ _) hfront
      obtain ⟨-, rfl⟩ := hleads.unique hother
      obtain ⟨rfl, hnone⟩ := walk_into_eq_free hlast
      rcases walk_into_eq_ok hpast with
        ⟨hthere, -⟩ | ⟨_, _, hthere, -⟩ | ⟨-, ⟨_, hthere, -⟩ | ⟨-, heq⟩⟩
      · simp [hnone] at hthere
      · simp [hnone] at hthere
      · simp [hnone] at hthere
      · cases heq

/-- If no name stands between what leads to a location and a free place, the place is right there.
-/
theorem get?_eq_none_of_free {middle : List Hop} {name : Segment} {place : Location}
    (hfront : tree.walk .follow links [] front = .ok (.taken location found))
    (hmiddle : ∀ hop ∈ middle, hop.name? = none)
    (hfree : tree.walk .keep links [] (front ++ (middle ++ [.into name])) = .ok (.free place)) :
    tree.get? location = some .directory ∧
      tree.get? (location.follow middle ++ [name]) = none := by
  obtain ⟨used, left, there, rfl, hleads, hlast⟩ := walk_append_eq_ok (by simp) hfree
  obtain ⟨rfl, rfl⟩ := hleads.end_of_walk hfront
  refine ⟨by simpa using get?_of_walk get?_root hfront, ?_⟩
  rw [walk_append_of_nameless hmiddle] at hlast
  obtain ⟨rfl, hnone⟩ := walk_into_eq_free hlast
  exact hnone

/-- Below a place that was free there are new directories only. -/
theorem straight_of_directoriesAdded {before after : FileTree} {added : Location → Prop}
    {middle more : List Hop} {name : Segment} (hadded : before.DirectoriesAdded after added)
    (hlocation : before.get? location = some .directory)
    (hmiddle : ∀ hop ∈ middle, hop.name? = none)
    (hnone : before.get? (location.follow middle ++ [name]) = none) (hup : Hop.up ∉ more) :
    after.Straight location (middle ++ .into name :: more) := by
  intro way hway target hlink
  have hinside (hop : List Hop) (hshort : hop <+: middle) :
      after.get? (location.follow hop) = some .directory :=
    get?_follow_of_nameless (hadded.keeps hlocation) fun step hstep =>
      hmiddle step (hshort.subset hstep)
  rcases List.prefix_or_prefix_of_prefix hway (List.prefix_append middle _) with
    hshort | ⟨tail, rfl⟩
  · simp [hinside way hshort] at hlink
  · rcases List.prefix_cons_iff.1 ((List.prefix_append_right_inj middle).1 hway) with
      rfl | ⟨later, rfl, hlater⟩
    · rw [List.append_nil] at hlink
      simp [hinside middle List.prefix_rfl] at hlink
    · -- what stands below the free place was added
      have hdown : Hop.up ∉ later := fun hmem => hup (hlater.subset hmem)
      rw [Location.follow_append, Location.follow_cons, Location.follow_of_not_up hdown] at hlink
      rcases hadded.adds hlink with hold | ⟨hdirectory, -⟩
      · obtain ⟨found, hfound⟩ := exists_get?_of_prefix (List.prefix_append _ _) hold
        rw [Location.hop, hnone] at hfound
        cases hfound
      · cases hdirectory

end FileTree

end Snapshot
