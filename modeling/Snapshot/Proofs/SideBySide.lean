import Snapshot.Proofs.Simulation

/-!
# Two exports side by side

The same project can be exported to the same destination from two file systems that differ in what
the destination holds. As long as the places of the roots hold the same in both of them, and nothing
blocks the way to them in the second one that does not in the first, the second export does what the
first one does: each step puts the same entry at the same place. So they end with the same counts,
and with the same entries at the places of the roots.
-/

namespace Snapshot

open ExportM FileTree

namespace FileTree

variable {before after before' after' : FileTree} {location place : Location} {entry : Entry}

/-- What an entry that was put changes at a place depends on nothing else there. -/
theorem Put.get?_congr (h : before.Put after location entry)
    (h' : before'.Put after' location entry) (hsame : before'.get? place = before.get? place) :
    after'.get? place = after.get? place := by
  by_cases hplace : place = location
  · rw [hplace, h.put, h'.put]
  · cases hentry : before.get? place with
    | some found =>
        rw [h.keeps hplace hentry, h'.keeps hplace (hsame.trans hentry)]
    | none =>
        by_cases habove : place <+: location
        · rw [get?_eq_directory h.put habove hplace, get?_eq_directory h'.put habove hplace]
        · have hnone {old new : FileTree} (hput : old.Put new location entry)
              (hold : old.get? place = none) : new.get? place = none := by
            cases hnew : new.get? place with
            | none => rfl
            | some found =>
                rcases hput.adds hplace hnew with hthere | ⟨-, hbelow⟩
                · simp [hold] at hthere
                · exact absurd hbelow habove
          rw [hnone h hentry, hnone h' (hsame.trans hentry)]

theorem Put.linkFree (h : before.Put after location entry) (hlinks : before.LinkFree)
    (hentry : ∀ target, entry ≠ .link target) : after.LinkFree := by
  intro place target hlink
  by_cases hplace : place = location
  · rw [hplace, h.put] at hlink
    exact hentry target (Option.some.inj hlink)
  · rcases h.adds hplace hlink with hold | ⟨hdirectory, -⟩
    · exact hlinks _ _ hold
    · cases hdirectory

end FileTree

namespace Export

/-- Two file systems from which an export of the roots goes the same way. -/
structure Matches (job : Export) (fs other : FileSystem) : Prop
    extends job.SameOutside fs other where
  inside : ∀ place, job.InRoots job.config.roots place → other.tree.get? place = fs.tree.get? place
  no_sink : ∀ place, job.InRoots job.config.roots place → fs.tree.get? place ≠ some .sink
  /-- On the way to a root stands nothing else than directories and what is there in both. The
  record of the version, which is written last, is not spoken of. -/
  ways : ∀ root ∈ job.config.roots, ∀ place, place <+: job.target ++ root.names →
    place ≠ job.placeOf versionFile → ∀ entry, other.tree.get? place = some entry →
      entry = .directory ∨ fs.tree.get? place = some entry
  record : ∀ entry, other.tree.get? (job.placeOf versionFile) = some entry →
    (entry = .sink ∨ ∃ content, entry = .file content) ∨
      fs.tree.get? (job.placeOf versionFile) = some entry

/-- What the export of the roots makes of a file system apart from their places: it adds directories
on the way to what it has put there. -/
structure Grown (job : Export) (fs after : FileSystem) : Prop where
  current : after.current = fs.current
  keeps : ∀ place entry, ¬job.InRoots job.config.roots place → fs.tree.get? place = some entry →
    after.tree.get? place = some entry
  adds : ∀ place entry, ¬job.InRoots job.config.roots place → after.tree.get? place = some entry →
    fs.tree.get? place = some entry ∨ entry = .directory ∧ ∃ below found,
      job.InRoots job.config.roots below ∧ place <+: below ∧ after.tree.get? below = some found

/-- Two exports that have come equally far. -/
structure Together (job : Export) (begun begun' : FileSystem) (session other : Session) : Prop where
  alike : job.Matches session.fileSystem other.fileSystem
  grown : job.Grown begun session.fileSystem
  grown_other : job.Grown begun' other.fileSystem
  summary : other.summary = session.summary

variable {job : Export} {fs other after after' begun begun' : FileSystem} {path : Path}
  {place : Location} {entry : Entry} {session : Session}

theorem Grown.refl (fs : FileSystem) : job.Grown fs fs where
  current := rfl
  keeps _ _ _ h := h
  adds _ _ _ h := .inl h

/-- An entry is put at the place of a root, or below it. -/
theorem Grown.put (h : job.Grown begun fs) (hplace : job.InRoots job.config.roots place)
    (hput : fs.tree.Put after.tree place entry) (hcurrent : after.current = fs.current) :
    job.Grown begun after where
  current := hcurrent.trans h.current
  keeps other found hother hfound :=
    hput.keeps (fun heq : other = place => hother (heq ▸ hplace)) (h.keeps _ _ hother hfound)
  adds other found hother hfound := by
    rcases hput.adds (fun heq : other = place => hother (heq ▸ hplace)) hfound with
      hold | ⟨rfl, habove⟩
    · rcases h.adds _ _ hother hold with hbegun | ⟨rfl, below, deep, hbelow, habove, hdeep⟩
      · exact .inl hbegun
      · refine .inr ⟨rfl, below, ?_⟩
        by_cases heq : below = place
        · exact ⟨entry, hbelow, habove, heq ▸ hput.put⟩
        · exact ⟨deep, hbelow, habove, hput.keeps heq hdeep⟩
    · exact .inr ⟨rfl, place, entry, hplace, habove, hput.put⟩

/-- The same entry is put at the same place. -/
theorem Matches.put (h : job.Matches fs other)
    (hput : fs.tree.Put after.tree place entry) (hput' : other.tree.Put after'.tree place entry)
    (hentry : entry = .directory ∨ ∃ content, entry = .file content) :
    job.Matches after after' where
  linkFree := hput.linkFree h.linkFree fun _ heq => by simp [heq] at hentry
  linkFree_other := hput'.linkFree h.linkFree_other fun _ heq => by simp [heq] at hentry
  outside place hplace := hput.get?_congr hput' (h.outside place hplace)
  inside place hplace := hput.get?_congr hput' (h.inside place hplace)
  no_sink other hother hsink := by
    by_cases heq : other = place
    · rw [heq, hput.put] at hsink
      simp [Option.some.inj hsink] at hentry
    · rcases hput.adds heq hsink with hold | ⟨hdirectory, -⟩
      · exact h.no_sink _ hother hold
      · cases hdirectory
  ways root hroot way hway hrecord found hfound := by
    by_cases heq : way = place
    · rw [heq, hput'.put] at hfound
      rw [heq, hput.put]
      exact .inr hfound
    · rcases hput'.adds heq hfound with hold | ⟨hdirectory, -⟩
      · exact (h.ways root hroot way hway hrecord found hold).imp_right (hput.keeps heq)
      · exact .inl hdirectory
  record found hfound := by
    by_cases heq : job.placeOf versionFile = place
    · rw [heq, hput'.put] at hfound
      rw [heq, hput.put]
      exact .inr hfound
    · rcases hput'.adds heq hfound with hold | ⟨hdirectory, habove⟩
      · exact (h.record found hold).imp_right (hput.keeps heq)
      · exact .inr (hdirectory ▸ get?_eq_directory hput.put habove heq)

/-- Only the file systems and the counts matter. -/
theorem Together.of_eq {session other same too : Session}
    (h : job.Together begun begun' session other) (hsession : same.fileSystem = session.fileSystem)
    (hother : too.fileSystem = other.fileSystem) (hsummary : too.summary = same.summary) :
    job.Together begun begun' same too where
  alike := hsession ▸ hother ▸ h.alike
  grown := hsession ▸ h.grown
  grown_other := hother ▸ h.grown_other
  summary := hsummary

/-! ## A lost record -/

/-- A directory stands in the place of the record of the version, so that it cannot be written. -/
structure Lost (job : Export) (session : Session) : Prop where
  linkFree : session.fileSystem.tree.LinkFree
  directory : session.fileSystem.tree.get? (job.placeOf versionFile) = some .directory

theorem Lost.of_retains (h : job.Lost session) (hafter : after.Retains session.fileSystem) :
    job.Lost { session with fileSystem := after } :=
  ⟨hafter.linkFree h.linkFree, hafter.directories h.directory⟩

theorem ofFiles_lost (job : Export) : OfFiles job.Lost :=
  fun _ _ hsame _ h => ⟨hsame ▸ h.linkFree, hsame ▸ h.directory⟩

/-- No step of an export removes a directory. -/
theorem keeps_lost (job : Export) : job.Keeps job.Visits job.Lost fun _ _ => True where
  of_kept _ _ _ := trivial
  of_status _ _ h := ⟨h.linkFree, h.directory⟩
  of_missing _ _ _ _ h := ⟨h.linkFree, h.directory⟩
  failed_of_status _ _ _ _ := trivial
  visited_join _ _ hpath hname := hpath.join hname
  createTarget path _ := by
    refine ensures_change ?_ fun _ _ _ _ _ => trivial
    intro session fs done hlost hrequest
    rw [← (Prod.mk.inj hrequest).1]
    exact hlost.of_retains (.createDirectories _ _)
  exportFile path _ := by
    have hkeeps : Ensures job.Lost (job.exportFile path) (fun _ => job.Lost) fun _ => job.Lost :=
      exportFile_changes job.ofFiles_lost job.ofFiles_lost (fun _ h => h)
        fun _ _ _ _ _ h hfinish => h.of_retains (FileCopy.retains_of_finish hfinish)
    exact hkeeps.anyhow

/-- Where a root or something below it is put, the way is as open in the second file system. -/
theorem Matches.openWay (h : job.Matches fs other) (hpath : job.Carried path) {names : Location}
    (hnames : names <+: job.placeOf path) (hrecord : ¬job.placeOf versionFile <+: names)
    (hopen : fs.tree.Open [] names) :
    other.tree.Open [] names := by
  intro way hway
  have hopenWay := hopen way hway
  rw [List.nil_append] at hopenWay ⊢
  by_cases htarget : job.target <+: way
  · obtain ⟨-, root, hroot, hbelow⟩ := hpath.visits
    have hplace : job.target ++ root.names <+: job.placeOf path :=
      (List.prefix_append_right_inj _).2 hbelow
    rcases List.prefix_or_prefix_of_prefix hplace (hway.trans hnames) with hinside | habove
    · rwa [h.inside way ⟨root, hroot, hinside⟩]
    · cases hentry : other.tree.get? way with
      | none => exact .inl rfl
      | some entry =>
          have hway : way ≠ job.placeOf versionFile := fun heq => hrecord (heq ▸ hway)
          rcases h.ways root hroot way habove hway entry hentry with rfl | hsame
          · exact .inr rfl
          · rwa [hsame] at hopenWay
  · rwa [h.outside way htarget]

/-! ## Steps -/

/-- With a directory in the place of the record the first export would not end well. -/
theorem not_above_of_not_lost (hlinks : after.tree.LinkFree)
    (hlost : ¬job.Lost { session with fileSystem := after })
    (hthere : after.tree.get? place = some .directory) : ¬job.placeOf versionFile <+: place := by
  intro habove
  apply hlost
  refine ⟨hlinks, ?_⟩
  by_cases heq : job.placeOf versionFile = place
  · exact (congrArg after.tree.get? heq).trans hthere
  · exact get?_eq_directory hthere habove heq

theorem together_creates (htarget : job.target.IsPlain) (hpath : job.Carried path)
    {session other : Session} (h : job.Together begun begun' session other)
    (hfirst : session.fileSystem.createDirectories (job.targetOf path) = (after, .ok ()))
    (hlost : ¬job.Lost { session with fileSystem := after }) :
    ∃ after', other.fileSystem.createDirectories (job.targetOf path) = (after', .ok ()) ∧
      job.Together begun begun' { session with fileSystem := after }
        { other with fileSystem := after' } := by
  have hlinks := h.alike.linkFree
  have hput := hpath.put_of_createTarget htarget hlinks hfirst
  have hrecord : ¬job.placeOf versionFile <+: job.placeOf path :=
    not_above_of_not_lost (hput.linkFree hlinks (by simp)) hlost hput.put
  obtain ⟨after', hsecond⟩ := hpath.exists_createTarget htarget hlinks h.alike.linkFree_other
    hfirst (h.alike.openWay hpath List.prefix_rfl hrecord)
  have hput' := hpath.put_of_createTarget htarget h.alike.linkFree_other hsecond
  have hcurrent := (session.fileSystem.createDirectories_leads (job.targetOf path)).2
  have hcurrent' := (other.fileSystem.createDirectories_leads (job.targetOf path)).2
  rw [hfirst] at hcurrent
  rw [hsecond] at hcurrent'
  exact ⟨after', hsecond, h.alike.put hput hput' (.inl rfl),
    h.grown.put hpath.inRoots hput hcurrent, h.grown_other.put hpath.inRoots hput' hcurrent',
    h.summary⟩

theorem together_writes (htarget : job.target.IsPlain) (hpath : job.Carried path)
    {session other : Session} {copy : FileCopy} (h : job.Together begun begun' session other)
    (houtput : copy.output = job.targetOf path)
    (hfirst : copy.finish session.fileSystem = (after, .ok true))
    (hlost : ¬job.Lost { session with fileSystem := after }) :
    ∃ after', copy.finish other.fileSystem = (after', .ok true) ∧
      job.Together begun begun' { session with fileSystem := after }
        { other with fileSystem := after' } := by
  have hlinks := h.alike.linkFree
  have hinside := h.alike.inside _ hpath.inRoots
  have hsink := h.alike.no_sink _ hpath.inRoots
  have hretains := FileCopy.retains_of_finish hfirst
  have hput := (hpath.written_of_finish htarget hlinks houtput hfirst).put hsink
  obtain ⟨after', hsecond⟩ : ∃ after', copy.finish other.fileSystem = (after', .ok true) := by
    apply hpath.exists_finish htarget hlinks h.alike.linkFree_other houtput hfirst
    · intro names habove hne hopen
      have hthere := get?_eq_directory hput.put habove hne
      exact h.alike.openWay hpath habove
        (not_above_of_not_lost (hretains.linkFree hlinks) hlost hthere) hopen
    · intro entry hentry
      -- at the place of the file both file systems agree, and what was there became the file
      rw [hinside] at hentry
      obtain ⟨found, hfound, hbecomes⟩ := hretains.keeps hentry
      obtain rfl := Option.some.inj (hfound.symm.trans hput.put)
      rcases Entry.canBecome_iff.1 hbecomes with rfl | ⟨old, -, rfl, -⟩
      · exact .inr ⟨_, rfl⟩
      · exact .inr ⟨old, rfl⟩
  have hput' := (hpath.written_of_finish htarget h.alike.linkFree_other houtput hsecond).put
    (by rwa [hinside])
  exact ⟨after', hsecond, h.alike.put hput hput' (.inr ⟨_, rfl⟩),
    h.grown.put hpath.inRoots hput hretains.current,
    h.grown_other.put hpath.inRoots hput' (FileCopy.retains_of_finish hsecond).current, h.summary⟩

/-- The second export keeps up with the first one. -/
theorem simulates_together (htarget : job.target.IsPlain) :
    job.Simulates job.Lost (job.Together begun begun') where
  keeps_lost := job.keeps_lost
  ofFiles_lost := job.ofFiles_lost
  outside h := h.alike.toSameOutside
  of_eq h hsession hother hsummary hsummary' :=
    h.of_eq hsession hother (hsummary'.trans (h.summary.trans hsummary.symm))
  count more h := ⟨h.alike, h.grown, h.grown_other, congrArg (· + more) h.summary⟩
  creates hpath h hfirst hlost := together_creates htarget hpath h hfirst hlost
  writes hpath h hleft hfirst hlost := together_writes htarget hpath h hleft.1 hfirst hlost

/-! ## Outside the destination -/

/-- Outside the destination nothing changes, unless something is missing on the way to it. -/
theorem Grown.get?_eq (h : job.Grown fs after) (hplace : ¬job.target <+: place)
    (hway : place <+: job.target → ∃ entry, fs.tree.get? place = some entry) :
    after.tree.get? place = fs.tree.get? place := by
  have houtside : ¬job.InRoots job.config.roots place := fun hroots =>
    hplace hroots.target_isPrefix
  cases hold : fs.tree.get? place with
  | some entry => exact h.keeps _ _ houtside hold
  | none =>
      -- only directories above the destination could be new, and none is missing there
      refine Option.eq_none_iff_forall_ne_some.2 fun entry hentry => ?_
      rcases h.adds _ _ houtside hentry with hthere | ⟨-, below, -, hbelow, habove, -⟩
      · rw [hold] at hthere
        cases hthere
      · have hcomparable := List.prefix_or_prefix_of_prefix habove hbelow.target_isPrefix
        obtain ⟨found, hfound⟩ := hway (hcomparable.resolve_right hplace)
        rw [hold] at hfound
        cases hfound

end Export

end Snapshot
