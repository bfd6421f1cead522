import Snapshot.Proofs.Preparation
import Snapshot.Proofs.Reached
import Snapshot.Proofs.Resolution
import Snapshot.Proofs.Success

/-!
# Removing that goes well

In a tree without links what a path names can be removed, as long as all the directories that the
path goes through stay. So an existing destination can be made ready whatever it holds: exactly the
places of the roots are emptied, and the path of the destination still leads there, as it does not
go through one of them.
-/

namespace Snapshot

open ExportM FileTree

namespace Path

/-- Whether the path is written as names with single slashes between them. -/
def IsNormal (path : Path) : Prop :=
  ∀ segment ∈ path.segments, Hop.ofSegment segment = .into segment

instance (path : Path) : Decidable path.IsNormal :=
  inferInstanceAs (Decidable (∀ segment ∈ path.segments, Hop.ofSegment segment = .into segment))

variable {path : Path}

namespace IsNormal

theorem not_isAbsolute (h : path.IsNormal) : path.isAbsolute = false := by
  cases habsolute : path.isAbsolute with
  | false => rfl
  | true =>
      obtain ⟨second, rest, hsegments⟩ := isAbsolute_iff.1 habsolute
      have hempty := h Segment.empty (by simp [hsegments])
      simp [Hop.ofSegment] at hempty

theorem hops_eq (h : path.IsNormal) : path.hops = path.segments.map Hop.into := by
  rw [hops, body_of_not_isAbsolute h.not_isAbsolute]
  exact List.map_congr_left h

theorem names_eq (h : path.IsNormal) : path.names = path.segments := by
  rw [names, h.hops_eq, List.filterMap_map]
  simp [Function.comp_def, Hop.name?]

theorem names_ne_nil (h : path.IsNormal) : path.names ≠ [] := by
  rw [h.names_eq]
  exact path.nonempty

theorem goesDown (h : path.IsNormal) : path.GoesDown where
  relative := h.not_isAbsolute
  up_not_mem := by simp [h.hops_eq]

theorem endsInName (h : path.IsNormal) : path.EndsInName := by
  rw [EndsInName, h.hops_eq, List.getLast?_map, List.getLast?_eq_some_getLast path.nonempty]
  exact ⟨_, rfl⟩

end IsNormal

end Path

namespace FileTree

variable {tree other : FileTree} {here : Location} {hops : List Hop} {ending : Ending}
  {links used : Nat} {there : Location}

/-- Hops that go through directories lead where they read. -/
theorem leads_of_directories
    (h : ∀ way, way <+: hops → tree.get? (here.follow way) = some .directory) :
    tree.Leads here hops 0 (here.follow hops) := by
  induction hops generalizing here with
  | nil => exact .nil
  | cons hop hops ih =>
      have hrest := ih fun way hway => h (hop :: way) (List.cons_prefix_cons.2 ⟨rfl, hway⟩)
      cases hop with
      | slash | dot | up => exact .step rfl hrest
      | into name =>
          exact .into (h [.into name] (List.cons_prefix_cons.2 ⟨rfl, List.nil_prefix⟩)) hrest

/-- Without links what leads somewhere goes through directories. -/
theorem Leads.directories (h : tree.Leads here hops used there) (hlinks : tree.LinkFree)
    (hhere : tree.get? here = some .directory) {way : List Hop} (hway : way <+: hops) :
    tree.get? (here.follow way) = some .directory := by
  induction h generalizing way with
  | nil => rwa [List.prefix_nil.1 hway]
  | step hhop _ ih =>
      cases way with
      | nil => exact hhere
      | cons first way =>
          obtain ⟨rfl, hrest⟩ := List.cons_prefix_cons.1 hway
          exact ih (get?_hop hhere hhop) hrest
  | into hdirectory _ ih =>
      cases way with
      | nil => exact hhere
      | cons first way =>
          obtain ⟨rfl, hrest⟩ := List.cons_prefix_cons.1 hway
          exact ih hdirectory hrest
  | link hlink => exact absurd hlink (hlinks _ _)

/-- A walk through directories does not depend on anything else. -/
theorem walk_congr_of_directories
    (h : ∀ way, way <+: hops → tree.get? (here.follow way) = some .directory)
    (hother : ∀ way, way <+: hops → other.get? (here.follow way) = some .directory) :
    other.walk ending links here hops = tree.walk ending links here hops := by
  induction hops generalizing here with
  | nil => rw [walk_nil, walk_nil]
  | cons hop hops ih =>
      have hrest := ih (fun way hway => h (hop :: way) (List.cons_prefix_cons.2 ⟨rfl, hway⟩))
        fun way hway => hother (hop :: way) (List.cons_prefix_cons.2 ⟨rfl, hway⟩)
      cases hop with
      | slash | dot | up => rwa [walk_step rfl, walk_step rfl]
      | into name =>
          have hstep : [Hop.into name] <+: .into name :: hops :=
            List.cons_prefix_cons.2 ⟨rfl, List.nil_prefix⟩
          have hplace := h _ hstep
          have hplaceOther := hother _ hstep
          rw [Location.follow_cons, Location.follow_nil, Location.hop] at hplace hplaceOther
          rw [walk_into, walk_into, hplace, hplaceOther]
          dsimp only
          rw [← Location.hop, hrest]

end FileTree

namespace FileSystem

variable {fs other after : FileSystem} {path root : Path} {location : Location} {entry : Entry}

/-- An empty directory can be removed. -/
theorem exists_removeDirectory (hends : path.EndsInName)
    (hfind : fs.find .keep path = .ok (location, .directory))
    (hempty : fs.tree.names location = []) : ∃ after, fs.removeDirectory path = .ok after := by
  obtain ⟨name, hlast⟩ := hends
  obtain ⟨front, hfront⟩ := List.getLast?_eq_some_iff.1 hlast
  have hbare := bareHops_eq_hops hfront
  refine ⟨fs.withTree (fs.tree.without location), ?_⟩
  have hreach := find_eq_ok_iff.1 hfind
  rw [locate] at hreach
  rw [removeDirectory, hbare, if_neg (by simp [hlast]), hreach]
  exact if_pos hempty

/-! ## Paths through directories -/

/-- A path reads the same from the same start. -/
theorem place_eq_of_startFrom_eq
    (h : path.startFrom other.current.anchor = path.startFrom fs.current.anchor) :
    other.place path = fs.place path :=
  congrArg (Location.follow · path.hops) h

/-- The path of a directory goes through directories. -/
structure HasWay (fs : FileSystem) (path : Path) : Prop where
  leads : (path.isAbsolute || fs.hasCurrent) = true
  directory : ∀ way, way <+: path.hops →
    fs.tree.get? ((path.startFrom fs.current.anchor).follow way) = some .directory

theorem hasWay_of_find (hlinks : fs.tree.LinkFree)
    (hleads : (path.isAbsolute || fs.hasCurrent) = true)
    (h : fs.find .follow path = .ok (location, .directory)) : fs.HasWay path where
  leads := hleads
  directory way hway := by
    obtain ⟨-, hwalk⟩ := walk_of_find hleads h
    obtain ⟨used, -, hled⟩ := leads_of_walk hwalk
    exact hled.directories hlinks (get?_startFrom fs.anchored path) hway

namespace HasWay

theorem get?_place (h : fs.HasWay path) : fs.tree.get? (fs.place path) = some .directory :=
  h.directory _ List.prefix_rfl

/-- What the way goes through is still there afterwards. -/
theorem withTree (h : fs.HasWay path) {tree : FileTree}
    (hkeeps : ∀ way, way <+: path.hops →
      tree.get? ((path.startFrom fs.current.anchor).follow way) = some .directory) :
    (fs.withTree tree).HasWay path ∧
      path.startFrom (fs.withTree tree).current.anchor = path.startFrom fs.current.anchor := by
  have hstart : (path.isAbsolute || (fs.withTree tree).hasCurrent) = true ∧
      path.startFrom (fs.withTree tree).current.anchor = path.startFrom fs.current.anchor := by
    cases habsolute : path.isAbsolute with
    | true => simp [Path.startFrom, habsolute]
    | false =>
        have hcurrent := hkeeps [] List.nil_prefix
        rw [Location.follow_nil, Path.startFrom, if_neg (by simp [habsolute])] at hcurrent
        have hsame : (fs.withTree tree).current = fs.current := Place.settledIn_eq_self hcurrent
        have hleads := h.leads
        rw [habsolute, Bool.false_or] at hleads
        exact ⟨by simpa [hasCurrent, hsame] using hleads, by rw [hsame]⟩
  exact ⟨⟨hstart.1, fun way hway => by rw [hstart.2]; exact hkeeps way hway⟩, hstart.2⟩

/-- Where a path goes through directories in two file systems, it is resolved alike. -/
theorem resolveExisting_eq_ok (h : fs.HasWay path) (hother : other.HasWay path)
    (hstart : path.startFrom other.current.anchor = path.startFrom fs.current.anchor)
    (hresolved : fs.resolveExisting path = .ok location) :
    other.resolveExisting path = .ok location := by
  obtain ⟨-, entry, hfind⟩ := find_of_resolveExisting hresolved
  have hfollow := acceptable_of_reach (find_eq_ok_iff.1 hfind)
  have hlocate (ending : Ending) : other.locate ending path = fs.locate ending path := by
    have haccepted : path.Acceptable ending :=
      ⟨hfollow.nulFree, hfollow.nonempty, .inr (hfollow.size_le.resolve_left (by simp))⟩
    have hdirectory := hother.directory
    rw [hstart] at hdirectory
    rw [locate, locate, reach_eq_walk haccepted h.leads, reach_eq_walk haccepted hother.leads,
      hstart]
    exact walk_congr_of_directories h.directory hdirectory
  have hexists : other.pathExists path = fs.pathExists path := by
    rw [pathExists, pathExists, entryAt, entryAt, hlocate]
  have hcanonicalize : other.canonicalize path = fs.canonicalize path := by
    have hleads {fs : FileSystem} (h : (path.isAbsolute || fs.hasCurrent) = true) :
        ¬(!path.isAbsolute && !fs.hasCurrent) = true := by
      rw [← Bool.not_or, h]
      simp
    rw [canonicalize, canonicalize, if_neg (hleads h.leads), if_neg (hleads hother.leads), find,
      find, hlocate]
  rw [← hresolved, resolveExisting, resolveExisting, hexists, hcanonicalize]

/-- What stands at the place of a root is found under the path to it. -/
theorem find_join (hlinks : fs.tree.LinkFree) (h : fs.HasWay path) (hroot : root.IsNormal)
    (hnul : path.hasNul = false) (hsize : (path.join root).size ≤ Path.maxSize)
    (hentry : fs.tree.get? (fs.place path ++ root.names) = some entry) :
    fs.find .keep (path.join root) = .ok (fs.place path ++ root.names, entry) := by
  obtain ⟨front, hhops, hled⟩ :=
    exists_leads_join hroot.not_isAbsolute (leads_of_directories h.directory)
  have haccepted : (path.join root).Acceptable .keep := by
    refine ⟨?_, not_isEmpty_of_names_ne_nil ?_, .inr hsize⟩
    · rw [Path.hasNul_join hroot.not_isAbsolute, hnul, Bool.false_or]
      exact not_hasNul_of_get?_append hentry
    · rw [Path.names_join hroot.not_isAbsolute]
      exact List.append_ne_nil_of_right_ne_nil _ hroot.names_ne_nil
  have hleads := h.leads
  have hjoined := (Path.body_join path hroot.not_isAbsolute).1
  rw [← hjoined] at hleads
  have hplace : (path.startFrom fs.current.anchor).follow path.hops = fs.place path := rfl
  rw [find_eq_ok_iff, locate, reach_eq_walk haccepted hleads, Path.startFrom, hjoined,
    ← Path.startFrom, hhops, ← Nat.zero_add linkLimit,
    hled.walk_append (Path.hops_ne_nil hroot.not_isAbsolute) (.inr rfl), hplace]
  exact walk_eq_taken hlinks (by simp) hroot.goesDown.up_not_mem h.get?_place hentry
    (by simp [Ending.admits]) (.inr hroot.endsInName)

/-- Nothing is found there if nothing stands there. -/
theorem get?_of_entryAt_join (hlinks : fs.tree.LinkFree) (h : fs.HasWay path)
    (hroot : root.IsNormal) {found : Entry}
    (hfound : fs.entryAt .keep (path.join root) = .ok found) :
    fs.tree.get? (fs.place path ++ root.names) = some found := by
  obtain ⟨start, hstart, hplaces⟩ := fs.exists_isLeftOf
  have hjoined := (Path.body_join path hroot.not_isAbsolute).1
  have hleads := h.leads
  rw [← hjoined] at hleads
  obtain ⟨location, hfind⟩ := find_of_entryAt hleads hfound
  obtain ⟨rfl, hget⟩ := find_holds hlinks hstart hfind
  rwa [Path.placeFrom_join hroot.not_isAbsolute, hplaces _ h.leads,
    Location.follow_of_not_up hroot.goesDown.up_not_mem] at hget

/-- What stands at the place of a root can be removed, if the way does not go through it. -/
theorem removeAll_join (hlinks : fs.tree.LinkFree) (h : fs.HasWay path) (hroot : root.IsNormal)
    (hnul : path.hasNul = false) (hsize : (path.join root).size ≤ Path.maxSize)
    (hway : ∀ way, way <+: path.hops →
      ¬fs.place path ++ root.names <+: (path.startFrom fs.current.anchor).follow way)
    (hentry : fs.tree.get? (fs.place path ++ root.names) = some entry) :
    ∃ after, fs.removeAll (path.join root) = (after, .ok ()) ∧ after.HasWay path ∧
      path.startFrom after.current.anchor = path.startFrom fs.current.anchor ∧
      fs.tree.RemovedBelow after.tree (fs.place path ++ root.names) ∧
      after.tree.get? (fs.place path ++ root.names) = none := by
  have hfind := h.find_join hlinks hroot hnul hsize hentry
  have hne : fs.place path ++ root.names ≠ [] :=
    List.append_ne_nil_of_right_ne_nil _ hroot.names_ne_nil
  have hgone (tree : FileTree) :
      (tree.without (fs.place path ++ root.names)).get? (fs.place path ++ root.names) = none := by
    simp [get?_without, hne]
  have hkeeps {tree : FileTree} (hremoved : fs.tree.RemovedBelow tree (fs.place path ++ root.names))
      (way : List Hop) (hbefore : way <+: path.hops) :
      tree.get? ((path.startFrom fs.current.anchor).follow way) = some .directory :=
    (hremoved.keeps (hway way hbefore)).trans (h.directory way hbefore)
  by_cases hdirectory : entry = .directory
  -- a directory is emptied first, and is then found in its place once more
  · obtain ⟨hemptied, hstart⟩ := h.withTree (hkeeps (.emptied _ _))
    have hstands : (fs.tree.emptied (fs.place path ++ root.names)).get?
        (fs.place path ++ root.names) = some .directory := by
      rw [get?_emptied, if_neg (by simp), hentry, hdirectory]
    have hplace := place_eq_of_startFrom_eq hstart
    have hbelow := RemovedBelow.emptied fs.tree (fs.place path ++ root.names)
    have hfindEmptied := hemptied.find_join (fun _ _ hlink => hlinks _ _ (hbelow.old hlink)) hroot
      hnul hsize (by rw [hplace]; exact hstands)
    obtain ⟨after, hremove⟩ :=
      exists_removeDirectory (hroot.endsInName.join hroot.not_isAbsolute) hfindEmptied
        (by rw [hplace]; exact names_emptied)
    obtain ⟨location, hlocation, rfl⟩ := removeDirectory_eq_ok hremove
    obtain rfl : fs.place path ++ root.names = location := by
      rw [hfindEmptied, hplace] at hlocation
      exact congrArg Prod.fst (Except.ok.inj hlocation)
    have hboth := hbelow.trans (.without _ _)
    obtain ⟨hafter, hstartAfter⟩ := hemptied.withTree fun way hbefore => by
      rw [hstart]
      exact hkeeps hboth way hbefore
    refine ⟨_, ?_, hafter, hstartAfter.trans hstart, hboth, hgone _⟩
    rw [removeAll, hfind, hdirectory]
    dsimp only
    rw [hremove]
    rfl
  · obtain ⟨hafter, hstart⟩ := h.withTree (hkeeps (.without _ _))
    refine ⟨_, ?_, hafter, hstart, .without _ _, hgone _⟩
    rw [removeAll, hfind]
    cases entry with
    | directory => exact absurd rfl hdirectory
    | file content | link target | socket | sink => rfl

end HasWay

end FileSystem

namespace Export

/-! ## Emptying a destination -/

/-- Whether a place in the destination is that of one of the roots, or below it. -/
def InRoots (job : Export) (roots : List Path) (place : Location) : Prop :=
  ∃ root ∈ roots, job.target ++ root.names <+: place

theorem InRoots.target_isPrefix {job : Export} {roots : List Path} {place : Location}
    (h : job.InRoots roots place) : job.target <+: place :=
  let ⟨_, _, hbelow⟩ := h
  (List.prefix_append _ _).trans hbelow

/-- What is left of a file system when the places of some roots are emptied. The path of the
destination still leads there. -/
structure Emptied (job : Export) (roots : List Path) (fs after : FileSystem) : Prop where
  way : after.HasWay job.config.destination
  start : job.config.destination.startFrom after.current.anchor =
    job.config.destination.startFrom fs.current.anchor
  current : ∀ start, fs.current.IsLeftOf start → after.current.IsLeftOf start
  gone : ∀ place, job.InRoots roots place → after.tree.get? place = none
  keeps : ∀ place, ¬job.InRoots roots place → after.tree.get? place = fs.tree.get? place

/-- Whether the system follows the path of a root in the destination. -/
def isFollowed (job : Export) (root : Path) : Bool :=
  (job.config.destination.join root).size ≤ Path.maxSize

/-- The roots that are removed from the destination. One whose path is not followed is taken for
missing there. -/
def removable (job : Export) : List Path :=
  job.config.roots.filter job.isFollowed

/-- The system follows the paths of the roots in the destination, as far as anything stands there.
-/
def Followed (job : Export) (fs : FileSystem) : Prop :=
  ∀ root ∈ job.config.roots, (∃ entry, fs.tree.get? (job.target ++ root.names) = some entry) →
    (job.config.destination.join root).size ≤ Path.maxSize

/-- A destination from which the roots can be removed without losing the way to it. -/
structure Clearable (job : Export) (fs : FileSystem) : Prop where
  linkFree : fs.tree.LinkFree
  way : fs.HasWay job.config.destination
  resolved : fs.resolveExisting job.config.destination = .ok job.target
  normal : ∀ root ∈ job.config.roots, root.IsNormal
  avoids : ∀ way, way <+: job.config.destination.hops →
    ¬job.InRoots job.removable ((job.config.destination.startFrom fs.current.anchor).follow way)

variable {job : Export} {fs after : FileSystem} {roots front : List Path} {root : Path}
  {confirm : Path → Bool} {begun : Session}

theorem Emptied.refl (h : fs.HasWay job.config.destination) : job.Emptied [] fs fs where
  way := h
  start := rfl
  current _ := id
  gone place hplace := by
    obtain ⟨root, hroot, -⟩ := hplace
    cases hroot
  keeps _ _ := rfl

/-- What is left is not more than before. -/
theorem Emptied.old (h : job.Emptied roots fs after) {place : Location} {entry : Entry}
    (hentry : after.tree.get? place = some entry) : fs.tree.get? place = some entry := by
  by_cases hplace : job.InRoots roots place
  · rw [h.gone place hplace] at hentry
    cases hentry
  · rwa [h.keeps place hplace] at hentry

theorem Emptied.linkFree (h : job.Emptied roots fs after) (hlinks : fs.tree.LinkFree) :
    after.tree.LinkFree :=
  fun _ _ hlink => hlinks _ _ (h.old hlink)

/-- The destination itself is left in its place. -/
theorem Emptied.get?_place (h : job.Emptied roots fs after) :
    after.tree.get? (fs.place job.config.destination) = some .directory := by
  rw [← FileSystem.place_eq_of_startFrom_eq h.start]
  exact h.way.get?_place

/-- A root that is left because its path is not followed has stood nowhere, so all are gone. -/
theorem Emptied.all (h : job.Emptied job.removable fs after) (hfollowed : job.Followed fs) :
    job.Emptied job.config.roots fs after where
  way := h.way
  start := h.start
  current := h.current
  gone place hplace := by
    by_cases hremoved : job.InRoots job.removable place
    · exact h.gone place hremoved
    · rw [h.keeps place hremoved]
      obtain ⟨root, hroot, hbelow⟩ := hplace
      cases hentry : fs.tree.get? place with
      | none => rfl
      | some entry =>
          have hstands := exists_get?_of_prefix hbelow hentry
          have hsize := hfollowed root hroot hstands
          exact absurd ⟨root, List.mem_filter.2 ⟨hroot, decide_eq_true hsize⟩, hbelow⟩ hremoved
  keeps place hplace := h.keeps place fun hremoved => hplace <| by
    obtain ⟨root, hroot, hbelow⟩ := hremoved
    exact ⟨root, (List.mem_filter.1 hroot).1, hbelow⟩

theorem inRoots_append {place : Location} :
    job.InRoots (front ++ [root]) place ↔
      job.InRoots front place ∨ job.target ++ root.names <+: place := by
  simp [InRoots, or_and_right, exists_or]

/-- One root more is removed. -/
theorem Emptied.removed (h : job.Emptied front fs after) {later : FileSystem}
    (hway : later.HasWay job.config.destination)
    (hstart : job.config.destination.startFrom later.current.anchor =
      job.config.destination.startFrom after.current.anchor)
    (hcurrent : ∀ start, after.current.IsLeftOf start → later.current.IsLeftOf start)
    (hbelow : after.tree.RemovedBelow later.tree (job.target ++ root.names))
    (hgone : later.tree.get? (job.target ++ root.names) = none) :
    job.Emptied (front ++ [root]) fs later where
  way := hway
  start := hstart.trans h.start
  current start hleft := hcurrent start (h.current start hleft)
  gone place hplace := by
    rcases inRoots_append.1 hplace with hfront | hroot
    · cases hentry : later.tree.get? place with
      | none => rfl
      | some entry =>
          rw [← h.gone place hfront, hbelow.old hentry]
    · cases hentry : later.tree.get? place with
      | none => rfl
      | some entry =>
          obtain ⟨found, hfound⟩ := exists_get?_of_prefix hroot hentry
          simp [hgone] at hfound
  keeps place hplace := by
    rw [inRoots_append, not_or] at hplace
    exact (hbelow.keeps hplace.2).trans (h.keeps place hplace.1)

/-- A session in which the places of some roots have been emptied. -/
def Empties (job : Export) (roots : List Path) (begun session : Session) : Prop :=
  job.Emptied roots begun.fileSystem session.fileSystem ∧ session.summary = begun.summary

namespace Clearable

theorem target_eq (h : job.Clearable fs) : job.target = fs.place job.config.destination :=
  (FileSystem.resolveExisting_eq_ok h.linkFree h.resolved).2.1

theorem nulFree (h : job.Clearable fs) : job.config.destination.hasNul = false := by
  obtain ⟨-, entry, hfind⟩ := FileSystem.find_of_resolveExisting h.resolved
  exact (FileSystem.acceptable_of_reach (FileSystem.find_eq_ok_iff.1 hfind)).nulFree

theorem isDirectory (h : job.Clearable fs) : fs.isDirectory job.config.destination = true := by
  obtain ⟨-, entry, hfind⟩ := FileSystem.find_of_resolveExisting h.resolved
  have hentry := FileSystem.get?_of_find hfind
  rw [h.target_eq, h.way.get?_place] at hentry
  exact FileSystem.isDirectory_of_find (Option.some.inj hentry ▸ hfind)

/-- The same destination can be emptied elsewhere if its path goes through directories there. -/
theorem transfer (h : job.Clearable fs) {other : FileSystem} (hlinks : other.tree.LinkFree)
    (hway : other.HasWay job.config.destination)
    (hstart : job.config.destination.startFrom other.current.anchor =
      job.config.destination.startFrom fs.current.anchor) : job.Clearable other where
  linkFree := hlinks
  way := hway
  resolved := h.way.resolveExisting_eq_ok hway hstart h.resolved
  normal := h.normal
  avoids := hstart ▸ h.avoids

theorem removeExisting_empties (h : job.Clearable begun.fileSystem) (hroot : root ∈ job.removable) :
    Ensures (job.Empties front begun)
      (job.removeExisting (job.config.destination.join root))
      (fun _ => job.Empties (front ++ [root]) begun) (fun _ _ => False) := by
  apply Ensures.of_start
  intro session hsession
  obtain ⟨hemptied, hsummary⟩ := hsession
  have hlinks := hemptied.linkFree h.linkFree
  have htarget : session.fileSystem.place job.config.destination = job.target :=
    (FileSystem.place_eq_of_startFrom_eq hemptied.start).trans h.target_eq.symm
  obtain ⟨hmem, hfollowed⟩ := List.mem_filter.1 hroot
  have hnormal := h.normal root hmem
  have hsize := of_decide_eq_true hfollowed
  unfold Project.removeExisting
  refine Ensures.get_bind fun state hstate => ?_
  rw [hstate]
  split
  · next fault hfound =>
      -- nothing is found, so nothing stands there
      refine .pure fun last hlast => ?_
      rw [hlast]
      refine ⟨hemptied.removed hemptied.way rfl (fun _ => id) ⟨fun _ => rfl, id⟩ ?_, hsummary⟩
      cases hentry : session.fileSystem.tree.get? (job.target ++ root.names) with
      | none => rfl
      | some entry =>
          rw [← htarget] at hentry
          have hfind :=
            hemptied.way.find_join hlinks hnormal h.nulFree hsize hentry
          rw [FileSystem.entryAt_of_find hfind] at hfound
          cases hfound
  · next found hfound =>
      have hentry := hemptied.way.get?_of_entryAt_join hlinks hnormal hfound
      -- no root stands on the way to the destination, so the way outlasts the removal
      have havoids (way : List Hop) (hway : way <+: job.config.destination.hops) :
          ¬session.fileSystem.place job.config.destination ++ root.names <+:
            (job.config.destination.startFrom session.fileSystem.current.anchor).follow way := by
        rw [htarget, hemptied.start]
        exact fun hbelow => h.avoids way hway ⟨root, hroot, hbelow⟩
      obtain ⟨after, hremove, hway, hstart, hbelow, hgone⟩ :=
        hemptied.way.removeAll_join hlinks hnormal h.nulFree hsize havoids hentry
      have hcurrent (start : Location) (hleft : session.fileSystem.current.IsLeftOf start) :
          after.current.IsLeftOf start := by
        have hfind :=
          hemptied.way.find_join hlinks hnormal h.nulFree hsize hentry
        have hremoved := FileSystem.removeAll_removed hleft hfind
        rw [hremove] at hremoved
        exact hremoved.current
      rw [htarget] at hbelow hgone
      refine ensures_say_eq.bind fun _ => ensures_change ?_ ?_
      · intro last fs done hlast hchange
        obtain ⟨lines, rfl⟩ := hlast
        rw [hremove] at hchange
        obtain rfl := (Prod.mk.inj hchange).1
        exact ⟨hemptied.removed hway hstart hcurrent hbelow hgone, hsummary⟩
      · intro last fs report hlast hchange
        obtain ⟨lines, rfl⟩ := hlast
        rw [hremove] at hchange
        cases (Prod.mk.inj hchange).2

/-- What is not followed is not found, so it is not removed either. -/
theorem removeExisting_unfollowed {before : Session → Prop} (hroot : job.isFollowed root = false) :
    Ensures before (job.removeExisting (job.config.destination.join root)) (fun _ => before)
      (fun _ _ => False) := by
  unfold Project.removeExisting
  refine Ensures.get_bind fun state hstate => ?_
  split
  · exact .pure fun _ h => h
  · next found hfound =>
      unfold FileSystem.entryAt at hfound
      cases hlocate : state.fileSystem.locate .keep (job.config.destination.join root) with
      | error fault => simp [hlocate, Except.bind] at hfound
      | ok spot =>
          have haccepted := FileSystem.acceptable_of_reach hlocate
          exact absurd (haccepted.size_le.resolve_left (by simp)) (of_decide_eq_false hroot)

theorem removeRoots_empties (h : job.Clearable begun.fileSystem) :
    Ensures (job.Empties [] begun)
      (job.config.roots.forM fun root =>
        job.removeExisting (job.config.destination.join root))
      (fun _ => job.Empties job.removable begun) (fun _ _ => False) := by
  refine Ensures.forM_prefix (fun front => job.Empties (front.filter job.isFollowed) begun)
    fun front root rest heq => ?_
  have hmem : root ∈ job.config.roots := by simp [heq]
  rw [List.filter_append]
  cases hroot : job.isFollowed root with
  | true =>
      rw [List.filter_cons_of_pos hroot, List.filter_nil]
      exact h.removeExisting_empties (List.mem_filter.2 ⟨hmem, hroot⟩)
  | false =>
      rw [List.filter_cons_of_neg (by simp [hroot]), List.filter_nil, List.append_nil]
      exact removeExisting_unfollowed hroot

/-- A destination that is accepted and agreed to is made ready, whatever is in it. -/
theorem prepareDestination_empties (h : job.Clearable begun.fileSystem)
    (haccepted : job.checkDestination begun.fileSystem = .ok ())
    (hconfirm : confirm job.config.destination = true) :
    Ensures (fun session => session = begun) (job.prepareDestination confirm)
      (fun target session => target = job.target ∧ job.Empties job.removable begun session)
      (fun _ _ => False) := by
  have hcheck : Ensures (fun session => session = begun) (query job.checkDestination)
      (fun _ session => session = begun) (fun _ _ => False) := by
    refine ensures_query (fun session _ hsession _ => hsession) ?_
    intro session report hsession hreport
    rw [hsession, haccepted] at hreport
    cases hreport
  have hask : Ensures (fun session => session = begun) (job.askConsent confirm)
      (fun _ => job.Empties [] begun) (fun _ _ => False) := by
    have hnote : Ensures (fun session => session = begun) (modify fun session =>
        { session with
          questions := session.questions ++ [⟨job.config.destination, session.fileSystem⟩] })
        (fun _ => job.Empties [] begun) (fun _ _ => False) := by
      apply ensures_modify
      intro session hsession
      rw [hsession]
      exact ⟨.refl h.way, rfl⟩
    unfold Project.askConsent
    refine hnote.bind fun _ => ?_
    rw [if_pos hconfirm]
    exact .pure fun _ h => h
  have hexists : begun.fileSystem.pathExists job.config.destination = true := by
    obtain ⟨-, entry, hfind⟩ := FileSystem.find_of_resolveExisting h.resolved
    exact FileSystem.pathExists_of_find hfind
  unfold Project.prepareDestination
  refine hcheck.bind fun _ => Ensures.get_bind fun state hstate => ?_
  dsimp only
  rw [hstate, if_pos hexists, if_pos h.isDirectory]
  refine hask.bind fun _ => h.removeRoots_empties.bind fun _ => ensures_query ?_ ?_
  · intro session target hsession hresolved
    rw [h.way.resolveExisting_eq_ok hsession.1.way hsession.1.start h.resolved] at hresolved
    exact ⟨(Except.ok.inj hresolved).symm, hsession⟩
  · intro session report hsession hresolved
    rw [h.way.resolveExisting_eq_ok hsession.1.way hsession.1.start h.resolved] at hresolved
    cases hresolved

end Clearable

/-- A destination that was there and could be made ready can be made ready again. -/
theorem clearable_of_isReady {session : Session}
    (hlinks : begun.fileSystem.tree.LinkFree)
    (h : job.IsReady confirm begun job.target session)
    (hexists : begun.fileSystem.isDirectory job.config.destination = true)
    (hnormal : ∀ root ∈ job.config.roots, root.IsNormal) :
    job.Clearable begun.fileSystem := by
  have hleads := h.leads
  obtain ⟨location, hfind⟩ := FileSystem.find_of_isDirectory hleads hexists
  have hway := FileSystem.hasWay_of_find hlinks hleads hfind
  rcases h.way with ⟨-, -, -, hlosing, hunfound⟩ | ⟨hmissing, -⟩
  · have hlinksAfter : session.fileSystem.tree.LinkFree :=
      fun _ _ hlink => hlinks _ _ (hlosing.old hlink)
    obtain ⟨hleadsAfter, entry, hfindAfter⟩ := FileSystem.find_of_resolveExisting h.resolved
    obtain ⟨rfl, rfl⟩ : location = job.target ∧ .directory = entry := by
      simpa [hfind] using hlosing.find hfindAfter
    have hwayAfter := FileSystem.hasWay_of_find hlinksAfter hleadsAfter hfindAfter
    have hstart : job.config.destination.startFrom begun.fileSystem.current.anchor =
        job.config.destination.startFrom session.fileSystem.current.anchor := by
      cases habsolute : job.config.destination.isAbsolute with
      | true => simp [Path.startFrom, habsolute]
      | false =>
          simp only [habsolute, Bool.false_or, FileSystem.hasCurrent, decide_eq_true_eq]
            at hleads hleadsAfter
          rw [(hlosing.current (Place.isLeftOf_anchor hleads)).anchor_eq_start hleadsAfter]
    refine ⟨hlinks, hway, hwayAfter.resolveExisting_eq_ok hway hstart h.resolved, hnormal,
      fun way hbefore hroots => ?_⟩
    obtain ⟨root, hroot, hbelow⟩ := hroots
    obtain ⟨hmem, hfollowed⟩ := List.mem_filter.1 hroot
    have hsize := of_decide_eq_true hfollowed
    have hstands := hwayAfter.directory way hbefore
    rw [← hstart] at hstands
    obtain ⟨found, hfound⟩ := exists_get?_of_prefix hbelow hstands
    have htarget := (FileSystem.resolveExisting_eq_ok hlinksAfter h.resolved).2.1
    rw [htarget] at hfound
    have hnul := (FileSystem.acceptable_of_reach (FileSystem.find_eq_ok_iff.1 hfind)).nulFree
    exact hunfound root hmem hleadsAfter _ _
      (hwayAfter.find_join hlinksAfter (hnormal root hmem) hnul hsize hfound)
  · simp [FileSystem.pathExists_of_find hfind] at hmissing

/-- A destination that is apart from the roots, and in which no root holds the project, is accepted.
-/
theorem checkDestination_eq_ok (hlinks : fs.tree.LinkFree) (hway : fs.HasWay job.config.destination)
    (htarget : job.target = fs.place job.config.destination) (hbase : job.base.IsPlain)
    (hroots : ∀ root ∈ job.config.roots, root.GoesDown) (hne : job.target ≠ job.base)
    (hapart : ∀ root ∈ job.config.roots, Location.Apart job.target (job.base ++ root.names))
    (hspares : ∀ root ∈ job.config.roots, ¬job.target ++ root.names <+: job.base) :
    job.checkDestination fs = .ok () := by
  have hresolve {path : Path} (hleads : (path.isAbsolute || fs.hasCurrent) = true) :
      fs.resolveLenient path = .ok (fs.place path) := by
    obtain ⟨location, rest, hexists⟩ := fs.exists_existsUpTo path
    have hresolved := hexists.resolveLenient hleads
    rw [hresolved, (FileSystem.resolveLenient_eq_ok hlinks hresolved).2]
  refine Project.checkDestination_eq_ok_iff.2 ⟨_, hresolve hway.leads, htarget ▸ hne, ?_⟩
  rw [← htarget]
  intro root hroot
  have hdown := hroots root hroot
  have htargetPlain : job.target.IsPlain := htarget ▸ fs.isPlain_place _
  have hcheck : Project.checkRoot.checkTarget job.toProject fs job.target root = .ok () := by
    have habsolute : ((Path.ofLocation job.target).join root).isAbsolute = true :=
      Path.isAbsolute_ofLocation_join
    unfold Project.checkRoot.checkTarget
    rw [hresolve (by rw [habsolute, Bool.true_or]), FileSystem.place,
      Path.placeFrom_ofLocation_join htargetPlain hdown]
    exact if_neg (hspares root hroot)
  unfold Project.checkRoot
  split
  · next location hlocation =>
      obtain ⟨start, hstart, -⟩ := fs.exists_isLeftOf
      obtain ⟨hplace, -⟩ := FileSystem.canonicalize_holds hlinks hstart hlocation
      rw [Project.pathOf, Path.placeFrom_ofLocation_join hbase hdown] at hplace
      rw [hplace, if_neg (hapart root hroot).not_above]
      exact hcheck
  · exact hcheck

end Export

end Snapshot
