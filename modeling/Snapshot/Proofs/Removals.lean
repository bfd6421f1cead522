import Snapshot.Proofs.Requests

/-!
# What removing changes

Removing a path takes away what is at or below the place that the path names, a link at its end
standing for itself, and nothing is found under the path afterwards. Where the path passes links,
that place can be anywhere. What is left of the current directory can be less than before.
-/

namespace Snapshot

namespace FileTree

/-- Nothing is left that was not there, and only what is at or below a place is gone. -/
structure RemovedBelow (before after : FileTree) (location : Location) : Prop where
  keeps : ∀ {other}, ¬location <+: other → after.get? other = before.get? other
  old : ∀ {other entry}, after.get? other = some entry → before.get? other = some entry

variable {before middle after : FileTree} {location : Location}

namespace RemovedBelow

theorem trans (hfirst : before.RemovedBelow middle location)
    (hsecond : middle.RemovedBelow after location) : before.RemovedBelow after location where
  keeps hother := (hsecond.keeps hother).trans (hfirst.keeps hother)
  old h := hfirst.old (hsecond.old h)

theorem without (tree : FileTree) (location : Location) :
    tree.RemovedBelow (tree.without location) location where
  keeps hother := by simp [get?_without, hother]
  old h := by
    rw [get?_without] at h
    split at h
    · cases h
    · exact h

theorem emptied (tree : FileTree) (location : Location) :
    tree.RemovedBelow (tree.emptied location) location where
  keeps hother := by simp [get?_emptied, hother]
  old h := by
    rw [get?_emptied] at h
    split at h
    · cases h
    · exact h

end RemovedBelow

end FileTree

namespace FileSystem

open FileTree

variable {fs after : FileSystem} {start location : Location} {path : Path} {entry : Entry}
  {fault : Fault}

/-! ## Directories that are removed -/

/-- What a path leads to in what is left after removing things, it led to before. -/
theorem find_of_withTree {tree : FileTree} (hremoved : fs.tree.RemovedBelow tree location)
    {ending : Ending} {place : Location}
    (h : (fs.withTree tree).find ending path = .ok (place, entry)) :
    fs.find ending path = .ok (place, entry) :=
  have hstart := fs.current.isLeftOf_append_replicate
  find_mono (fun _ _ => hremoved.old) (hstart.settledIn tree) hstart
    (Place.lost_le_settledIn tree fs.current) h

theorem removeDirectory_eq_ok (h : fs.removeDirectory path = .ok after) :
    ∃ location, fs.find .keep path = .ok (location, .directory) ∧
      after = fs.withTree (fs.tree.without location) := by
  unfold removeDirectory at h
  split at h
  · cases hreach : fs.reach .follow path path.bareHops.dropLast with
    | error fault => simp [hreach, Except.bind] at h
    | ok spot =>
        simp only [hreach, Except.bind] at h
        split at h <;> cases h
  · cases hreach : fs.reach .keep path path.bareHops with
    | error fault => simp [hreach, Except.bind] at h
    | ok spot =>
        simp only [hreach, Except.bind] at h
        split at h
        · next location =>
            split at h
            · cases h
              exact ⟨location, find_eq_ok_iff.2 (locate_of_reach_bareHops (.inr rfl) hreach), rfl⟩
            · cases h
        · cases h
        · cases h
        · cases h

/-- A directory that a path leads to is there to be removed, unless the current directory is gone.
-/
theorem removeDirectory_ne_noEntry (hcurrent : (path.isAbsolute || fs.hasCurrent) = true)
    (h : fs.find .keep path = .ok (location, .directory)) :
    fs.removeDirectory path ≠ .error .noEntry := by
  obtain ⟨slashes, hparts, hslashes⟩ := path.exists_slashes
  have hlocate := find_eq_ok_iff.1 h
  have hkeep := acceptable_of_reach hlocate
  have hfollow : path.Acceptable .follow :=
    ⟨hkeep.nulFree, hkeep.nonempty, .inr (hkeep.size_le.resolve_left (by simp))⟩
  rw [locate, reach_eq_walk hkeep hcurrent, hparts] at hlocate
  unfold removeDirectory
  split
  · next hdot =>
      obtain ⟨front, hfront⟩ := List.getLast?_eq_some_iff.1 hdot
      rw [hfront, List.append_assoc] at hlocate
      obtain ⟨used, left, there, hlinks, hleads, -⟩ := walk_append_eq_ok (by simp) hlocate
      rw [hfront, List.dropLast_concat, reach_eq_walk hfollow hcurrent, hlinks, hleads.walk_follow]
      simp [Except.bind, Spot.entry?]
  · obtain ⟨place, found, hbare⟩ : ∃ place found,
        fs.reach .keep path path.bareHops = .ok (.taken place found) := by
      rw [reach_eq_walk hkeep hcurrent]
      by_cases hnil : slashes = []
      · rw [hnil, List.append_nil] at hlocate
        exact ⟨_, _, hlocate⟩
      · obtain ⟨used, left, there, hlinks, hleads, -⟩ := walk_append_eq_ok hnil hlocate
        rw [hlinks]
        exact hleads.walk_keep
    rw [hbare]
    simp only [Except.bind]
    split
    · split <;> simp
    · simp
    · next hspot => cases hspot
    · next hspot => cases hspot

/-- How a request to remove a path can end. -/
theorem removeAll_cases (fs : FileSystem) (path : Path) :
    (∃ fault, fs.find .keep path = .error fault ∧ fs.removeAll path = (fs, .error fault)) ∨
      (∃ location entry, fs.find .keep path = .ok (location, entry) ∧ entry ≠ .directory ∧
        fs.removeAll path = (fs.withTree (fs.tree.without location), .ok ())) ∨
      ∃ location emptied, fs.find .keep path = .ok (location, .directory) ∧
        emptied = fs.withTree (fs.tree.emptied location) ∧
        (fs.removeAll path = (emptied.withTree (emptied.tree.without location), .ok ()) ∨
          emptied.removeDirectory path = .error .noEntry ∧
            fs.removeAll path = (emptied, .ok ()) ∨
          ∃ fault, fs.removeAll path = (emptied, .error fault)) := by
  unfold removeAll
  cases hfind : fs.find .keep path with
  | error fault => exact .inl ⟨fault, rfl, rfl⟩
  | ok found =>
      obtain ⟨location, entry⟩ := found
      cases entry with
      | file content | link target | socket | sink =>
          exact .inr (.inl ⟨location, _, rfl, by simp, rfl⟩)
      | directory =>
          refine .inr (.inr ⟨location, _, rfl, rfl, ?_⟩)
          dsimp only
          cases hremove : (fs.withTree (fs.tree.emptied location)).removeDirectory path with
          | ok after =>
              obtain ⟨place, hplace, hafter⟩ := removeDirectory_eq_ok hremove
              have hbefore := find_of_withTree (.emptied _ _) hplace
              obtain rfl : location = place := by simpa [hfind] using hbefore
              exact .inl (by rw [hafter])
          | error fault =>
              cases fault with
              | noEntry => exact .inr (.inl ⟨rfl, rfl⟩)
              | _ => exact .inr (.inr ⟨_, rfl⟩)

/-! ## Requests to remove -/

/-- What is left after a request to remove a path. -/
structure Removed (fs after : FileSystem) (start location : Location) : Prop where
  below : fs.tree.RemovedBelow after.tree location
  current : after.current.IsLeftOf start
  lost_le : fs.current.lost ≤ after.current.lost

namespace Removed

variable {middle : FileSystem}

theorem trans (hfirst : fs.Removed middle start location)
    (hsecond : middle.Removed after start location) : fs.Removed after start location where
  below := hfirst.below.trans hsecond.below
  current := hsecond.current
  lost_le := Nat.le_trans hfirst.lost_le hsecond.lost_le

theorem withTree (hstart : fs.current.IsLeftOf start) {tree : FileTree}
    (h : fs.tree.RemovedBelow tree location) : fs.Removed (fs.withTree tree) start location where
  below := h
  current := hstart.settledIn _
  lost_le := Place.lost_le_settledIn tree fs.current

end Removed

/-- Whether or not all of it could be removed, nothing outside of where the path leads is gone. -/
theorem removeAll_removed (hstart : fs.current.IsLeftOf start)
    (hfind : fs.find .keep path = .ok (location, entry)) :
    fs.Removed (fs.removeAll path).1 start location := by
  rcases fs.removeAll_cases path with
    ⟨fault, herror, -⟩ | ⟨place, found, hfound, -, hremove⟩ |
      ⟨place, emptied, hfound, rfl, hremove⟩
  · simp [hfind] at herror
  · obtain ⟨rfl, -⟩ : location = place ∧ entry = found := by simpa [hfind] using hfound
    rw [hremove]
    exact .withTree hstart (.without _ _)
  · obtain ⟨rfl, -⟩ : location = place ∧ entry = .directory := by simpa [hfind] using hfound
    have hemptied : fs.Removed (fs.withTree (fs.tree.emptied location)) start location :=
      .withTree hstart (.emptied _ _)
    rcases hremove with hremove | ⟨-, hremove⟩ | ⟨fault, hremove⟩
    · rw [hremove]
      exact hemptied.trans (.withTree hemptied.current (.without _ _))
    · rwa [hremove]
    · rwa [hremove]

/-! ## What is found afterwards -/

/-- Nothing is found under a path that could be removed. -/
theorem find_ne_ok_of_removeAll (hnames : path.names ≠ [])
    (hok : fs.removeAll path = (after, .ok ()))
    (hcurrent : (path.isAbsolute || after.hasCurrent) = true) (place : Location) (found : Entry) :
    after.find .keep path ≠ .ok (place, found) := by
  intro hafter
  rcases fs.removeAll_cases path with
    ⟨fault, -, hremove⟩ | ⟨location, entry, hfind, hentry, hremove⟩ |
      ⟨location, emptied, hfind, rfl, hremove | ⟨hnoEntry, hremove⟩ | ⟨fault, hremove⟩⟩
  · rw [hremove] at hok
    cases hok
  · rw [hremove] at hok
    cases hok
    have hbefore := find_of_withTree (.without _ _) hafter
    obtain ⟨rfl, rfl⟩ : location = place ∧ entry = found := by simpa [hfind] using hbefore
    have hthere := get?_of_find hafter
    rw [withTree, get?_without] at hthere
    split at hthere
    · cases hthere
    · next hroot =>
        have hroot : location = [] := by simpa using hroot
        rw [hroot, get?_root] at hthere
        exact hentry (Option.some.inj hthere).symm
  · rw [hremove] at hok
    cases hok
    have hbelow : fs.tree.RemovedBelow (fs.tree.emptied location) location := .emptied _ _
    have hbefore := find_of_withTree hbelow (find_of_withTree (.without _ _) hafter)
    obtain ⟨rfl, -⟩ : location = place ∧ found = .directory := by
      simpa [hfind, eq_comm] using hbefore
    -- at the root nothing is left that the path could lead through
    obtain ⟨met, hmet, other, hother⟩ := exists_get?_of_find hnames hafter
    have hthere := get?_of_find hafter
    rw [withTree, get?_without] at hthere hother
    split at hthere
    · cases hthere
    · next hroot =>
        have hroot : location = [] := by simpa using hroot
        rw [if_pos ⟨hroot ▸ List.nil_prefix, hmet⟩] at hother
        cases hother
  · rw [hremove] at hok
    cases hok
    have hbefore := find_of_withTree (.emptied _ _) hafter
    obtain ⟨rfl, rfl⟩ : location = place ∧ found = .directory := by
      simpa [hfind, eq_comm] using hbefore
    exact removeDirectory_ne_noEntry hcurrent hafter hnoEntry
  · rw [hremove] at hok
    cases hok

end FileSystem

end Snapshot
