import Snapshot.Proofs.Clearing

/-!
# Using a destination with consent

A destination that exists is used only after the question about it was answered with yes, and then
without what its roots led to. That a destination is missing is found out by following its path. If
the path only leads down behind the part of it that exists, the directory that is created for a
missing one is new, so nothing of what was there before can be in it. With a way up in the rest it
need not be: a missing directory that the path goes into and leaves again can be all that is
missing.
-/

namespace Snapshot

open ExportM FileTree Export

namespace FileSystem

variable {fs after : FileSystem} {path left right : Path} {location target : Location}
  {entry : Entry}

/-! ## Paths in a directory -/

/-- What exists under a path in a directory is found by a walk from there. -/
theorem exists_walk_of_pathExists (htarget : fs.tree.get? target = some .directory)
    (hright : right.isAbsolute = false)
    (h : fs.pathExists ((Path.ofLocation target).join right) = true) :
    right.hasNul = false ∧ ∃ location entry,
      fs.tree.walk .follow linkLimit target right.hops = .ok (.taken location entry) := by
  have habsolute : ((Path.ofLocation target).join right).isAbsolute :=
    Path.isAbsolute_ofLocation_join
  have hleads : (((Path.ofLocation target).join right).isAbsolute || fs.hasCurrent) = true := by
    rw [habsolute, Bool.true_or]
  obtain ⟨entry, hentry⟩ := pathExists_iff_entryAt.1 h
  obtain ⟨location, hfind⟩ := find_of_entryAt hleads hentry
  obtain ⟨haccepted, hwalk⟩ := walk_of_find hleads hfind
  obtain ⟨front, hhops, hled⟩ := exists_leads_join hright (leads_ofLocation htarget)
  rw [Path.startFrom_of_isAbsolute habsolute, hhops, ← Nat.zero_add linkLimit,
    hled.walk_append (Path.hops_ne_nil hright) (.inl rfl)] at hwalk
  have hnul := haccepted.nulFree
  rw [Path.hasNul_join hright, Bool.or_eq_false_iff] at hnul
  exact ⟨hnul.2, location, entry, hwalk⟩

/-- Where something exists in a directory, the path that leads to the directory leads on to it, as
far as the system follows it. -/
theorem found_or_unfollowed (hleads : (left.isAbsolute || fs.hasCurrent) = true)
    (hleft : fs.find .follow left = .ok (target, .directory)) (hright : right.isAbsolute = false)
    (hnames : right.names ≠ [])
    (h : fs.pathExists ((Path.ofLocation target).join right) = true) :
    (∃ location entry, fs.find .keep (left.join right) = .ok (location, entry)) ∨
      Path.maxSize < (left.join right).size ∨
        fs.entryAt .keep (left.join right) = .error .tooManyLinks := by
  obtain ⟨hnul, location, entry, hbelow⟩ :=
    exists_walk_of_pathExists (get?_of_find hleft) hright h
  obtain ⟨hleftAccepted, hwalk⟩ := walk_of_find hleads hleft
  obtain ⟨used, hused, hled⟩ := leads_of_walk hwalk
  obtain ⟨front, hhops, hledFront⟩ := exists_leads_join hright hled
  by_cases hsize : (left.join right).size ≤ Path.maxSize
  · have hjoinNames : (left.join right).names ≠ [] := by
      rw [Path.names_join hright]
      exact List.append_ne_nil_of_right_ne_nil _ hnames
    have haccepted : (left.join right).Acceptable .keep :=
      ⟨by rw [Path.hasNul_join hright, hleftAccepted.nulFree, hnul, Bool.or_false],
        not_isEmpty_of_names_ne_nil hjoinNames, .inr hsize⟩
    have hlinks : linkLimit = used + (linkLimit - used) := by omega
    have hjoin : fs.locate .keep (left.join right) =
        fs.tree.walk .keep (linkLimit - used) target right.hops := by
      rw [locate, reach_eq_walk haccepted (by rwa [(Path.body_join left hright).1]),
        Path.startFrom, (Path.body_join left hright).1, ← Path.startFrom, hhops, hlinks,
        hledFront.walk_append (Path.hops_ne_nil hright) (.inr rfl), ← hlinks]
    rcases walk_keep_of_follow hbelow (Nat.sub_le linkLimit used) with
      ⟨place, found, hkeep⟩ | hmany
    · exact .inl ⟨place, found, find_eq_ok_iff.2 (hjoin.trans hkeep)⟩
    · right
      right
      rw [entryAt, hjoin, hmany]
      rfl
  · exact .inr (.inl (Nat.not_le.1 hsize))

/-- In a directory in which nothing stands no path leads anywhere. -/
theorem not_pathExists_of_empty (htarget : fs.tree.get? target = some .directory)
    (hempty : ∀ name below, fs.tree.get? (target ++ name :: below) = none)
    (hright : right.GoesDown) (hnames : right.names ≠ []) :
    fs.pathExists ((Path.ofLocation target).join right) = false := by
  rw [Bool.eq_false_iff]
  intro h
  obtain ⟨-, location, entry, hwalk⟩ := exists_walk_of_pathExists htarget hright.relative h
  have hplace (way : List Hop) (hway : way <+: right.hops) :
      target.follow way = target ++ way.filterMap Hop.name? :=
    Location.follow_of_not_up fun hmem => hright.up_not_mem (hway.subset hmem)
  have hstraight : fs.tree.Straight target right.hops := by
    intro way hway link hlink
    rw [hplace way hway] at hlink
    cases hbelow : way.filterMap Hop.name? with
    | nil => simp [hbelow, htarget] at hlink
    | cons name below => simp [hbelow, hempty] at hlink
  obtain ⟨-, hentry⟩ := walk_holds_of_straight hstraight htarget hwalk
  rw [hplace _ List.prefix_rfl, ← Path.names] at hentry
  obtain ⟨name, below, hbelow⟩ := List.exists_cons_of_ne_nil hnames
  simp [hbelow, hempty] at hentry

end FileSystem

namespace Project

open FileSystem

variable {project : Project} {confirm : Path → Bool} {begun session : Session} {target : Location}

/-- A destination that exists is taken only with consent, and no root is left in it. This holds of
every destination that exists under its path and of every one whose path has no way up behind the
part that exists; as to the roots, the system has to follow their paths in the destination. -/
theorem destination_agreed_to (hvalid : project.config.validate = .ok ())
    (hspelled : begun.fileSystem.pathExists project.config.destination = true ∨
      begun.fileSystem.GoesDownBeyond project.config.destination)
    (hok : project.prepareDestination confirm begun = .ok target session) :
    ((∃ entry, begun.fileSystem.tree.get? target = some entry) →
      confirm project.config.destination = true ∧
        session.questions =
          begun.questions ++ [⟨project.config.destination, begun.fileSystem⟩]) ∧
    ∀ root ∈ project.config.roots,
      session.fileSystem.pathExists ((Path.ofLocation target).join root) = true →
        Path.maxSize < (project.config.destination.join root).size ∨
          session.fileSystem.entryAt .keep (project.config.destination.join root) =
            .error .tooManyLinks := by
  have hdescent := Config.isDescent_of_validate hvalid
  have hready := isReady_of_prepareDestination hdescent hok
  have hfind := hready.directory
  have hleads := (find_of_resolveExisting hready.resolved).1
  rcases hready.way with ⟨-, hconfirm, hasked, -, hunfound⟩ | ⟨hmissing, -⟩
  · -- a directory that is there
    refine ⟨fun _ => ⟨hconfirm, hasked⟩, fun root hroot hrootExists => ?_⟩
    obtain ⟨hgoesDown, hnames⟩ := (hdescent root hroot).goesDown
    refine (found_or_unfollowed hleads hfind hgoesDown.relative hnames hrootExists).resolve_left ?_
    intro hfound
    obtain ⟨location, found, hfound⟩ := hfound
    exact hunfound root hroot hleads location found hfound
  · -- a missing one, which is new
    have hbeyond := hspelled.resolve_left (by simp [hmissing])
    obtain ⟨hfree, hempty⟩ := hready.free_of_missing hmissing hbeyond
    constructor
    · intro hthere
      obtain ⟨old, hold⟩ := hthere
      simp [hfree] at hold
    · intro root hroot hrootExists
      obtain ⟨hgoesDown, hnames⟩ := (hdescent root hroot).goesDown
      rw [not_pathExists_of_empty (get?_of_find hfind) hempty hgoesDown hnames] at hrootExists
      cases hrootExists

/-- A project `p` and what an export has left in `out`. -/
def oldExport : FileSystem :=
  .ofTree
    { entries :=
        [(.ofString "p/src/a.c", .file [0x61, 0x0A]),
          (.ofString "p/src", .directory), (.ofString "p", .directory),
          (.ofString "out/src/old.c", .file [0x6F, 0x0A]),
          (.ofString "out/src", .directory), (.ofString "out", .directory)]
      wellFormed := ⟨by decide +kernel, by decide +kernel, by decide +kernel, by decide +kernel⟩ }
    []

/-- An export of `p`, with its destination and its roots as they are written. -/
def exportTo (destination : String) (roots : List String) : Project where
  config :=
    { baseDirectory := Path.ofString "p"
      destination := Path.ofString destination
      roots := roots.map Path.ofString }
  base := [{ text := "p" }]

/-- The destination that is there is asked about, and its old root is removed. -/
theorem destination_agreed_to_oldExport :
    ∃ target session,
      (exportTo "out" ["src"]).prepareDestination (fun _ => true) { fileSystem := oldExport } =
        .ok target session ∧
      (exportTo "out" ["src"]).config.validate = .ok () ∧
      oldExport.pathExists (Path.ofString "out") = true ∧
      oldExport.tree.get? target = some .directory ∧
      session.questions = [⟨Path.ofString "out", oldExport⟩] ∧
      session.fileSystem.pathExists ((Path.ofLocation target).join (Path.ofString "src")) =
        false := by
  have hvalid : (exportTo "out" ["src"]).config.validate = .ok () :=
    eq_ok_of_toOption (by decide +kernel)
  have hexists : oldExport.pathExists (Path.ofString "out") = true := by decide +kernel
  obtain ⟨target, session, hok, hthere, hfew⟩ : ∃ target session,
      (exportTo "out" ["src"]).prepareDestination (fun _ => true) { fileSystem := oldExport } =
        .ok target session ∧
      oldExport.tree.get? target = some .directory ∧
      session.fileSystem.entryAt .keep ((Path.ofString "out").join (Path.ofString "src")) ≠
        .error .tooManyLinks := by
    decide +kernel
  obtain ⟨hagreed, hroots⟩ := destination_agreed_to hvalid (.inl hexists) hok
  refine ⟨target, session, hok, hvalid, hexists, hthere, (hagreed ⟨_, hthere⟩).2, ?_⟩
  rw [Bool.eq_false_iff]
  intro hsrc
  rcases hroots _ (List.mem_singleton_self _) hsrc with hlong | hmany
  · exact absurd hlong (by decide +kernel)
  · exact hfew hmany

/-- Where a missing directory is gone into and left again, the destination behind it is taken for a
missing one: nobody is asked, and the old root stays. -/
theorem destination_taken_unasked :
    ∃ target session,
      (exportTo "missing/../out" ["src"]).prepareDestination (fun _ => true)
        { fileSystem := oldExport } = .ok target session ∧
      (exportTo "missing/../out" ["src"]).config.validate = .ok () ∧
      oldExport.tree.get? target = some .directory ∧ session.questions.isEmpty ∧
      session.fileSystem.pathExists ((Path.ofLocation target).join (Path.ofString "src")) =
        true := by
  obtain ⟨target, session, hok, htaken⟩ : ∃ target session,
      (exportTo "missing/../out" ["src"]).prepareDestination (fun _ => true)
        { fileSystem := oldExport } = .ok target session ∧
      oldExport.tree.get? target = some .directory ∧ session.questions.isEmpty ∧
      session.fileSystem.pathExists ((Path.ofLocation target).join (Path.ofString "src")) =
        true := by
    decide +kernel
  exact ⟨target, session, hok, eq_ok_of_toOption (by decide +kernel), htaken⟩

end Project

end Snapshot
