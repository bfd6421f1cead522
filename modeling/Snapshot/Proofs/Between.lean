import Mathlib.Algebra.BigOperators.Group.List.Basic
import Mathlib.Algebra.GroupWithZero.Nat
import Snapshot.Proofs.Simulation

/-!
# Between the start and the end of an export

An export of some roots, once it has gone well, has left certain directories and files in the
destination. A file system in which some of them are there already, and the rest is as it was at the
start, lies between the start and the end of the export. From there each of the roots can be
exported as well, with the same counts as in its turn, and what comes out lies between the start and
the end again. So the roots can be exported in any order, and any of them once more.
-/

namespace Snapshot

open ExportM FileTree

namespace Summary

instance : Zero Summary := ⟨{}⟩

/-- Counts are added up part by part. -/
instance : AddMonoid Summary where
  add_assoc first second third :=
    Summary.ext (Nat.add_assoc _ _ _) (Nat.add_assoc _ _ _) (List.append_assoc _ _ _)
  zero_add summary :=
    Summary.ext (Nat.zero_add _) (Nat.zero_add _) (List.nil_append _)
  add_zero summary :=
    Summary.ext (Nat.add_zero _) (Nat.add_zero _) (List.append_nil _)
  nsmul := nsmulRec

theorem add_left_cancel {first second other : Summary} (h : first + second = first + other) :
    second = other :=
  Summary.ext (Nat.add_left_cancel (congrArg written h))
    (Nat.add_left_cancel (congrArg skipped h)) (List.append_cancel_left (congrArg missingRoots h))

theorem sum_written (gains : List Summary) : gains.sum.written = (gains.map written).sum := by
  induction gains with
  | nil => rfl
  | cons gain gains ih =>
      rw [List.sum_cons, List.map_cons, List.sum_cons, ← ih]
      rfl

theorem sum_skipped (gains : List Summary) : gains.sum.skipped = (gains.map skipped).sum := by
  induction gains with
  | nil => rfl
  | cons gain gains ih =>
      rw [List.sum_cons, List.map_cons, List.sum_cons, ← ih]
      rfl

end Summary

namespace FileTree

/-- At each place a tree holds what the first one holds there or what the last one does. -/
def Between (first last tree : FileTree) : Prop :=
  ∀ place, tree.get? place = first.get? place ∨ tree.get? place = last.get? place

variable {first last tree after : FileTree} {place : Location} {entry : Entry}

/-- Trees that hold the same have the same links. -/
theorem LinkFree.of_same (h : first.LinkFree)
    (hsame : ∀ place, tree.get? place = first.get? place) : tree.LinkFree :=
  fun place target hlink => h place target ((hsame place).symm.trans hlink)

theorem Between.refl (first last : FileTree) : first.Between last first :=
  fun _ => .inl rfl

/-- What is put in its place leads towards the last tree. -/
theorem Between.put (h : first.Between last tree) (hput : tree.Put after place entry)
    (hlast : last.get? place = some entry) : first.Between last after := by
  intro other
  by_cases hplace : other = place
  · rw [hplace, hput.put, hlast]
    exact .inr rfl
  · rcases same_or_new (fun _ => hput.keeps hplace) fun _ => hput.adds hplace with
      hsame | ⟨-, hdirectory, habove⟩
    · rw [hsame]
      exact h other
    · rw [hdirectory, get?_eq_directory hlast habove hplace]
      exact .inr rfl

end FileTree

namespace Export

/-- An export whose destination is apart from all that it reads. -/
structure Separate (job : Export) : Prop where
  base : job.base.IsPlain
  target : job.target.IsPlain
  roots : ∀ root ∈ job.config.roots, job.Carried root

/-- A tree whose destination is there, and that is as before outside of it. -/
structure Inside (job : Export) (before after : FileTree) : Prop where
  outside : ∀ place, ¬job.target <+: place → after.get? place = before.get? place
  stands : after.get? job.target = some .directory

/-- A session in which the export of the roots can begin. -/
structure Poised (job : Export) (session : Session) : Prop where
  linkFree : session.fileSystem.tree.LinkFree
  stands : session.fileSystem.tree.get? job.target = some .directory
  summary : session.summary = {}

/-- What an export leaves for good where it has put it: a directory, or a file with what is left of
the one in the project. -/
def Lasts (job : Export) (source : FileTree) (place : Location) (entry : Entry) : Prop :=
  entry = .directory ∨
    ∃ below out, place = job.target ++ below ∧ entry = .file out ∧ job.Yields source below out

/-- A session from which an export does not get to a given end: something lasts in it that is not
there in the end. -/
structure Strayed (job : Export) (begun ended : FileSystem) (session : Session) : Prop where
  linkFree : session.fileSystem.tree.LinkFree
  inside : job.Inside begun.tree session.fileSystem.tree
  strays : ∃ place entry, job.Lasts begun.tree place entry ∧
    session.fileSystem.tree.get? place = some entry ∧ ended.tree.get? place ≠ some entry

/-- The start and the end of an export of the roots. -/
structure Spans (job : Export) (begun ended : FileSystem) : Prop where
  linkFree : begun.tree.LinkFree
  stands : begun.tree.get? job.target = some .directory
  inside : job.Inside begun.tree ended.tree
  retains : ended.Retains begun

/-- Two exports that have counted the same since they were at the given counts: one on its way to
the end, and one between the start and the end. -/
structure Amid (job : Export) (begun ended : FileSystem) (first second : Summary)
    (session other : Session) : Prop where
  inside : job.Inside begun.tree session.fileSystem.tree
  retains : session.fileSystem.Retains begun
  between : begun.tree.Between ended.tree other.fileSystem.tree
  counts : ∃ more, session.summary = first + more ∧ other.summary = second + more

variable {job : Export} {begun ended fs after : FileSystem} {before next source : FileTree}
  {path root : Path} {place start : Location} {entry : Entry} {session other done : Session}
  {first second : Summary} {content out : List UInt8}

/-! ## What is as before -/

section Separated

variable (hseparate : job.Separate)

include hseparate

theorem Separate.apart (hpath : job.Visits path) :
    Location.Apart job.target (job.base ++ path.names) := by
  obtain ⟨-, root, hroot, below, hbelow⟩ := hpath
  rw [← hbelow, ← List.append_assoc]
  exact (hseparate.roots root hroot).apart.append below

/-- No root is the destination itself. -/
theorem Separate.placeOf_ne (hpath : job.Visits path) : job.placeOf path ≠ job.target := by
  obtain ⟨-, root, hroot, below, hbelow⟩ := hpath
  obtain ⟨name, hlast⟩ := (hseparate.roots root hroot).ends
  obtain ⟨front, hhops⟩ := List.getLast?_eq_some_iff.1 hlast
  have hnames := FileSystem.names_eq_concat hhops
  rw [placeOf, ← hbelow, hnames]
  simp

/-- Nothing changes outside the destination when something is put at a visited place. -/
theorem Inside.step (h : job.Inside source before) (hpath : job.Visits path)
    (hchanged : ∀ place, place ≠ job.placeOf path → next.get? place = before.get? place ∨
      before.get? place = none ∧ next.get? place = some .directory ∧ place <+: job.placeOf path) :
    job.Inside source next where
  outside place hplace := by
    have hbelow : job.target <+: job.placeOf path := List.prefix_append _ _
    rcases hchanged place fun heq => hplace (heq ▸ hbelow) with hsame | ⟨hnone, -, habove⟩
    · rw [hsame, h.outside place hplace]
    · -- everything on the way to the destination is there
      have hway := (List.prefix_or_prefix_of_prefix habove hbelow).resolve_right hplace
      obtain ⟨entry, hentry⟩ := exists_get?_of_prefix hway h.stands
      rw [hnone] at hentry
      cases hentry
  stands := by
    rcases hchanged job.target (hseparate.placeOf_ne hpath).symm with hsame | ⟨hnone, -⟩
    · rw [hsame, h.stands]
    · rw [h.stands] at hnone
      cases hnone

theorem Inside.of_directoriesAdded (h : job.Inside source before) (hpath : job.Visits path)
    (hadded : before.DirectoriesAdded next (· <+: job.placeOf path)) : job.Inside source next :=
  h.step hseparate hpath fun place _ => hadded.changed place

theorem Inside.of_fileWritten (h : job.Inside source before) (hpath : job.Visits path)
    (hwritten : before.FileWritten next (job.placeOf path) content) : job.Inside source next :=
  h.step hseparate hpath fun _ hplace =>
    same_or_new (fun _ => hwritten.keeps hplace) fun _ => hwritten.adds hplace

theorem Inside.of_copied (h : job.Inside source fs.tree) (hpath : job.Visits path)
    (hcopied : job.Copied start path fs after content out) : job.Inside source after.tree := by
  by_cases hout : out = []
  · rw [hcopied.unchanged hout]
    exact h
  · exact h.of_fileWritten hseparate hpath (hcopied.written hout)

/-- The project yields what it did at the start. -/
theorem Inside.yields_iff (h : job.Inside source before) (hpath : job.Visits path) :
    job.Yields before path.names out ↔ job.Yields source path.names out :=
  yields_congr (h.outside _ (hseparate.apart hpath).not_below)

/-- What lasts is still there after any file is copied. -/
theorem Lasts.of_copied (h : job.Lasts source place entry) (hlinks : fs.tree.LinkFree)
    (hinside : job.Inside source fs.tree) (hpath : job.Visits path)
    (hcopied : job.Copied start path fs after content out) (hretains : after.Retains fs)
    (hentry : fs.tree.get? place = some entry) : after.tree.get? place = some entry := by
  rcases h with rfl | ⟨below, last, rfl, rfl, hlast⟩
  · exact hretains.directories hentry
  · by_cases hout : out = []
    · rw [hcopied.unchanged hout, hentry]
    · have hwritten := hcopied.written hout
      by_cases hplace : job.target ++ below = job.placeOf path
      · -- the same file of the project, of which the same is left
        have hyields : job.Yields fs.tree path.names out :=
          yields_of_open? hlinks hseparate.base hpath.1 hcopied.opened hcopied.filtered
        rw [hinside.yields_iff hseparate hpath] at hyields
        obtain rfl : below = path.names := List.append_cancel_left hplace
        rw [hplace, hwritten.written (by simp [← hplace, hentry]), hlast.unique hyields]
      · exact hwritten.keeps hplace hentry

theorem keeps_inside (source : FileTree) (start : Location) :
    job.Keeps job.Visits (Settled start (job.Inside source)) fun _ _ => True :=
  (keeps_settled hseparate.target
    (fun _ _ _ hpath hadded h => h.of_directoriesAdded hseparate hpath hadded)
    fun _ _ _ _ _ _ hpath hcopied h => h.of_copied hseparate hpath hcopied).anyhow

theorem keeps_strayed (begun ended : FileSystem) :
    job.Keeps job.Visits (job.Strayed begun ended) fun _ _ => True where
  of_kept _ _ _ := trivial
  of_status _ _ h := ⟨h.linkFree, h.inside, h.strays⟩
  of_missing _ _ _ _ h := ⟨h.linkFree, h.inside, h.strays⟩
  failed_of_status _ _ _ _ := trivial
  visited_join _ _ hpath hname := hpath.join hname
  createTarget path hpath := by
    refine ensures_of_at fun session hsession => ?_
    have hstep : Ensures (At session.fileSystem session.summary) (job.createTarget path) _ _ :=
      createTarget_ensures hsession.linkFree.straight
        session.fileSystem.current.isLeftOf_append_replicate hseparate.target hpath.1
    refine (hstep.mono_after ?_).anyhow
    intro _ done hdone
    obtain ⟨hadded, -⟩ := hdone
    obtain ⟨place, entry, hlasts, hentry, hended⟩ := hsession.strays
    exact ⟨hadded.linkFree hsession.linkFree,
      hsession.inside.of_directoriesAdded hseparate hpath hadded,
      place, entry, hlasts, hadded.keeps hentry, hended⟩
  exportFile path hpath := by
    refine ensures_of_at fun session hsession => ?_
    have hcopies : Ensures (At session.fileSystem session.summary) (job.exportFile path) _ _ :=
      exportFile_ensures hsession.linkFree.straight
        session.fileSystem.current.isLeftOf_append_replicate hseparate.target hpath.1
    have hretains : Ensures (At session.fileSystem session.summary) (job.exportFile path) _ _ :=
      (exportFile_retains session.fileSystem).mono_before fun same hsame => hsame.1 ▸ .refl _
    refine ((hcopies.and hretains).mono_after ?_).anyhow
    intro _ done hdone
    obtain ⟨⟨content, out, hcopied, -⟩, hretains⟩ := hdone
    obtain ⟨place, entry, hlasts, hentry, hended⟩ := hsession.strays
    exact ⟨hcopied.linkFree hsession.linkFree,
      hsession.inside.of_copied hseparate hpath hcopied, place, entry, hlasts,
      hlasts.of_copied hseparate hsession.linkFree hsession.inside hpath hcopied hretains hentry,
      hended⟩

end Separated

/-! ## Towards the end -/

namespace Spans

variable (h : job.Spans begun ended)

include h

/-- What is there before the end can turn into what is there in the end. -/
theorem canBecome {found : Entry} (hbetween : begun.tree.Between ended.tree fs.tree)
    (hentry : fs.tree.get? place = some entry) (hended : ended.tree.get? place = some found) :
    entry.canBecome found := by
  rcases hbetween place with hbegun | hsame
  · obtain ⟨last, hlast, hbecomes⟩ := h.retains.keeps (hbegun.symm.trans hentry)
    obtain rfl := Option.some.inj (hlast.symm.trans hended)
    exact hbecomes
  · obtain rfl := Option.some.inj ((hentry.symm.trans hsame).trans hended)
    exact Entry.canBecome_self entry

/-- Where a directory is in the end, nothing else is before it. -/
theorem none_or_directory (hbetween : begun.tree.Between ended.tree fs.tree)
    (hended : ended.tree.get? place = some .directory) :
    fs.tree.get? place = none ∨ fs.tree.get? place = some .directory := by
  cases hentry : fs.tree.get? place with
  | none => exact .inl rfl
  | some entry =>
      rcases Entry.canBecome_iff.1 (h.canBecome hbetween hentry hended) with rfl | ⟨_, _, _, hfile⟩
      · exact .inr rfl
      · cases hfile

/-- Where a file is in the end, nothing else than a file is before it. -/
theorem exists_file (hbetween : begun.tree.Between ended.tree fs.tree)
    (hended : ended.tree.get? place = some (.file content))
    (hentry : fs.tree.get? place = some entry) : ∃ old, entry = .file old := by
  rcases Entry.canBecome_iff.1 (h.canBecome hbetween hentry hended) with rfl | ⟨old, _, rfl, _⟩
  · exact ⟨content, rfl⟩
  · exact ⟨old, rfl⟩

/-- A sink stays where it is. -/
theorem get?_sink (hsink : session.fileSystem.tree.get? place = some .sink)
    (hretains : session.fileSystem.Retains begun)
    (hbetween : begun.tree.Between ended.tree fs.tree) :
    ended.tree.get? place = some .sink ∧ fs.tree.get? place = some .sink := by
  have hbegun := hretains.old hsink (by simp) (by simp)
  have hended := h.retains.get?_eq hbegun (by simp)
  exact ⟨hended, (hbetween place).elim (·.trans hbegun) (·.trans hended)⟩

theorem linkFree_between (hbetween : begun.tree.Between ended.tree fs.tree) :
    fs.tree.LinkFree := by
  intro place target hlink
  rcases hbetween place with hbegun | hended
  · exact h.linkFree place target (hbegun.symm.trans hlink)
  · exact h.retains.linkFree h.linkFree place target (hended.symm.trans hlink)

end Spans

/-- What lasts is there in the end, if the end is reached. -/
theorem get?_ended_of_not_strayed (hstrayed : ¬job.Strayed begun ended session)
    (hlinks : session.fileSystem.tree.LinkFree)
    (hinside : job.Inside begun.tree session.fileSystem.tree)
    (hlasts : job.Lasts begun.tree place entry)
    (hentry : session.fileSystem.tree.get? place = some entry) :
    ended.tree.get? place = some entry := by
  by_contra hended
  exact hstrayed ⟨hlinks, hinside, place, entry, hlasts, hentry, hended⟩

section Amid

variable (hseparate : job.Separate) (hspans : job.Spans begun ended)

include hspans

theorem Amid.sameOutside (h : job.Amid begun ended first second session other) :
    job.SameOutside session.fileSystem other.fileSystem where
  linkFree := h.retains.linkFree hspans.linkFree
  linkFree_other := hspans.linkFree_between h.between
  outside place hplace := by
    rw [h.inside.outside place hplace]
    exact (h.between place).elim id (·.trans (hspans.inside.outside place hplace))

include hseparate

theorem amid_creates (hpath : job.Carried path)
    (h : job.Amid begun ended first second session other)
    (hfirst : session.fileSystem.createDirectories (job.targetOf path) = (after, .ok ()))
    (hstrayed : ¬job.Strayed begun ended { session with fileSystem := after }) :
    ∃ after', other.fileSystem.createDirectories (job.targetOf path) = (after', .ok ()) ∧
      job.Amid begun ended first second { session with fileSystem := after }
        { other with fileSystem := after' } := by
  have hlinks := (h.sameOutside hspans).linkFree
  have hput := hpath.put_of_createTarget hseparate.target hlinks hfirst
  have hretains : after.Retains session.fileSystem := by
    have hcreated := FileSystem.Retains.createDirectories session.fileSystem (job.targetOf path)
    rwa [hfirst] at hcreated
  have hinside : job.Inside begun.tree after.tree :=
    h.inside.step hseparate hpath.visits fun _ hplace =>
      same_or_new (fun _ => hput.keeps hplace) fun _ => hput.adds hplace
  have hended (way : Location) (hway : way <+: job.placeOf path) :
      ended.tree.get? way = some .directory := by
    apply get?_ended_of_not_strayed hstrayed (hretains.linkFree hlinks) hinside (.inl rfl)
    by_cases heq : way = job.placeOf path
    · rw [heq, hput.put]
    · exact get?_eq_directory hput.put hway heq
  obtain ⟨after', hsecond⟩ := hpath.exists_createTarget hseparate.target hlinks
    (h.sameOutside hspans).linkFree_other hfirst
    fun _ way hway => hspans.none_or_directory h.between (hended way hway)
  have hput' := hpath.put_of_createTarget hseparate.target
    (h.sameOutside hspans).linkFree_other hsecond
  exact ⟨after', hsecond, hinside, hretains.trans h.retains,
    h.between.put hput' (hended _ List.prefix_rfl), h.counts⟩

/-- A file that has been written is there in the end, unless it went into a sink. -/
theorem Amid.ended_of_written (hpath : job.Carried path)
    (h : job.Amid begun ended first second session other)
    (hyields : job.Yields session.fileSystem.tree path.names content)
    (hwritten : session.fileSystem.tree.FileWritten after.tree (job.placeOf path) content)
    (hretains : after.Retains session.fileSystem)
    (hstrayed : ¬job.Strayed begun ended { session with fileSystem := after }) :
    (ended.tree.get? (job.placeOf path) = some .sink ∧
        other.fileSystem.tree.get? (job.placeOf path) = some .sink) ∨
      (ended.tree.get? (job.placeOf path) = some (.file content) ∧
        other.fileSystem.tree.get? (job.placeOf path) ≠ some .sink) := by
  by_cases hsink : session.fileSystem.tree.get? (job.placeOf path) = some .sink
  · exact .inl (hspans.get?_sink hsink h.retains h.between)
  · have hlinks := (h.sameOutside hspans).linkFree
    have hended : ended.tree.get? (job.placeOf path) = some (.file content) := by
      apply get?_ended_of_not_strayed hstrayed (hretains.linkFree hlinks)
        (h.inside.of_fileWritten hseparate hpath.visits hwritten) _ (hwritten.written hsink)
      exact .inr ⟨_, _, rfl, rfl, (h.inside.yields_iff hseparate hpath.visits).1 hyields⟩
    refine .inr ⟨hended, fun hswallows => ?_⟩
    obtain ⟨old, hold⟩ := hspans.exists_file h.between hended hswallows
    cases hold

theorem amid_writes {copy : FileCopy} (hpath : job.Carried path)
    (h : job.Amid begun ended first second session other)
    (hleft : job.LeftOf path copy session.fileSystem)
    (hfirst : copy.finish session.fileSystem = (after, .ok true))
    (hstrayed : ¬job.Strayed begun ended { session with fileSystem := after }) :
    ∃ after', copy.finish other.fileSystem = (after', .ok true) ∧
      job.Amid begun ended first second { session with fileSystem := after }
        { other with fileSystem := after' } := by
  obtain ⟨hlinks, hlinks', -⟩ := h.sameOutside hspans
  obtain ⟨houtput, content, hopen, hfiltered⟩ := hleft
  have hyields := yields_of_open? hlinks hseparate.base hpath.visits.1 hopen hfiltered
  have hwritten := hpath.written_of_finish hseparate.target hlinks houtput hfirst
  have hretains := FileCopy.retains_of_finish hfirst
  have hinside := h.inside.of_fileWritten hseparate hpath.visits hwritten
  have hplace := h.ended_of_written hseparate hspans hpath hyields hwritten hretains hstrayed
  obtain ⟨after', hsecond⟩ : ∃ after', copy.finish other.fileSystem = (after', .ok true) := by
    apply hpath.exists_finish hseparate.target hlinks hlinks' houtput hfirst
    · intro names habove hne _ way hway
      -- what is above the file lasts, and so it is there in the end
      have hthere : ∃ entry, after.tree.get? (job.placeOf path) = some entry := by
        by_cases hsink : session.fileSystem.tree.get? (job.placeOf path) = some .sink
        · exact ⟨_, hwritten.swallowed hsink⟩
        · exact ⟨_, hwritten.written hsink⟩
      obtain ⟨entry, hentry⟩ := hthere
      have hdirectory : after.tree.get? way = some .directory :=
        get?_eq_directory hentry (hway.trans habove) fun heq =>
          hne (habove.eq_of_length_le (heq ▸ hway.length_le))
      exact hspans.none_or_directory h.between (get?_ended_of_not_strayed hstrayed
        (hretains.linkFree hlinks) hinside (.inl rfl) hdirectory)
    · intro entry hentry
      rcases hplace with ⟨-, hsink⟩ | ⟨hended, -⟩
      · exact .inl (Option.some.inj (hentry.symm.trans hsink))
      · exact .inr (hspans.exists_file h.between hended hentry)
  have hwritten' := hpath.written_of_finish hseparate.target hlinks' houtput hsecond
  have hbetween : begun.tree.Between ended.tree after'.tree := by
    rcases hplace with ⟨hended, hsink⟩ | ⟨hended, hsink⟩
    · exact h.between.put ⟨hwritten'.swallowed hsink, hwritten'.keeps, hwritten'.adds⟩ hended
    · exact h.between.put (hwritten'.put hsink) hended
  exact ⟨after', hsecond, hinside, hretains.trans h.retains, hbetween, h.counts⟩

/-- Between the start and the end, what goes well on the way to the end goes well, too. -/
theorem simulates_amid (first second : Summary) :
    job.Simulates (job.Strayed begun ended) (job.Amid begun ended first second) where
  keeps_lost := keeps_strayed hseparate begun ended
  ofFiles_lost _ _ hsame _ h := ⟨hsame ▸ h.linkFree, hsame ▸ h.inside, hsame ▸ h.strays⟩
  outside h := h.sameOutside hspans
  of_eq h hsession hother hsummary hsummary' :=
    ⟨hsession ▸ h.inside, hsession ▸ h.retains, hother ▸ h.between,
      hsummary ▸ hsummary' ▸ h.counts⟩
  count more h := by
    obtain ⟨counted, hfirst, hsecond⟩ := h.counts
    refine ⟨h.inside, h.retains, h.between, counted + more, ?_, ?_⟩
    · rw [hfirst, add_assoc]
    · rw [hsecond, add_assoc]
  creates hpath h hfirst hstrayed := amid_creates hseparate hspans hpath h hfirst hstrayed
  writes hpath h hleft hfirst hstrayed := amid_writes hseparate hspans hpath h hleft hfirst hstrayed

/-! ## Roots at any time -/

/-- What exporting a root adds to the counts at any time between the start and the end. -/
def Gains (job : Export) (begun ended : FileSystem) (root : Path) (gain : Summary) : Prop :=
  ∀ other, begun.tree.Between ended.tree other.fileSystem.tree →
    ∃ also, job.exportRoot root other = .ok () also ∧
      begun.tree.Between ended.tree also.fileSystem.tree ∧ also.summary = other.summary + gain

/-- A root that has been exported on the way to the end can be exported at any time, and always adds
the same to the counts. -/
theorem exists_gains (hroot : root ∈ job.config.roots)
    (hinside : job.Inside begun.tree session.fileSystem.tree)
    (hretains : session.fileSystem.Retains begun)
    (hexported : job.exportRoot root session = .ok () done)
    (hstrayed : ¬job.Strayed begun ended done) : ∃ gain, job.Gains begun ended root gain := by
  have hfollows (other : Session)
      (hbetween : begun.tree.Between ended.tree other.fileSystem.tree) :
      ∃ also more, job.exportRoot root other = .ok () also ∧
        begun.tree.Between ended.tree also.fileSystem.tree ∧
        done.summary = session.summary + more ∧ also.summary = other.summary + more := by
    have hstart : job.Amid begun ended session.summary other.summary session other :=
      ⟨hinside, hretains, hbetween, 0, (add_zero _).symm, (add_zero _).symm⟩
    obtain ⟨also, hsecond, hend⟩ :=
      (simulates_amid hseparate hspans session.summary other.summary).exportRoot hseparate.base
        (hseparate.roots root hroot) session other hstart () done hexported hstrayed
    obtain ⟨more, hmore, halso⟩ := hend.counts
    exact ⟨also, more, hsecond, hend.between, hmore, halso⟩
  obtain ⟨_, gain, -, -, hgain, -⟩ := hfollows { fileSystem := begun } (.refl _ _)
  refine ⟨gain, fun other hbetween => ?_⟩
  obtain ⟨also, more, hsecond, hbetween, hmore, halso⟩ := hfollows other hbetween
  obtain rfl : more = gain := Summary.add_left_cancel (hmore.symm.trans hgain)
  exact ⟨also, hsecond, hbetween, halso⟩

theorem exists_gains_of_mem {roots : List Path} (hroots : ∀ root ∈ roots, root ∈ job.config.roots)
    (hinside : job.Inside begun.tree session.fileSystem.tree)
    (hretains : session.fileSystem.Retains begun)
    (hexported : roots.forM job.exportRoot session = .ok () done)
    (hstrayed : ¬job.Strayed begun ended done) :
    ∀ root ∈ roots, ∃ gain, job.Gains begun ended root gain := by
  induction roots generalizing session with
  | nil => simp
  | cons root roots ih =>
      rw [List.forM] at hexported
      obtain ⟨⟨⟩, middle, hfirst, hrest⟩ := bind_eq_ok.1 hexported
      have hroot := hroots root List.mem_cons_self
      have hlater : ∀ root ∈ roots, root ∈ job.config.roots :=
        fun other hmem => hroots other (List.mem_cons_of_mem _ hmem)
      have hmiddle : ¬job.Strayed begun ended middle := by
        intro hstrays
        have hend := (keeps_strayed hseparate begun ended).exportRoots
          (fun root hmem => (hseparate.roots root (hlater root hmem)).visits) middle hstrays
        rw [hrest] at hend
        exact hstrayed hend
      have hkept := (keeps_inside hseparate begun.tree _).exportRoot
        (hseparate.roots root hroot).visits session
          ⟨hretains.linkFree hspans.linkFree, Place.isLeftOf_append_replicate _, hinside⟩
      have hretained := (job.keeps_retains begun).exportRoot
        (hseparate.roots root hroot).visits session hretains
      rw [hfirst] at hkept hretained
      intro other hother
      rcases List.mem_cons.1 hother with rfl | hother
      · exact exists_gains hseparate hspans hroot hinside hretains hfirst hmiddle
      · exact ih hlater hkept.holds hretained hrest other hother

end Amid

/-- Roots that can be exported at any time can be exported one after the other. -/
theorem exportRoots_of_gains {roots : List Path} {gain : Path → Summary}
    (hgains : ∀ root ∈ roots, job.Gains begun ended root (gain root))
    (hbetween : begun.tree.Between ended.tree other.fileSystem.tree) :
    ∃ also, roots.forM job.exportRoot other = .ok () also ∧
      begun.tree.Between ended.tree also.fileSystem.tree ∧
      also.summary = other.summary + (roots.map gain).sum := by
  induction roots generalizing other with
  | nil => exact ⟨other, rfl, hbetween, (add_zero _).symm⟩
  | cons root roots ih =>
      obtain ⟨middle, hfirst, hmiddle, hgained⟩ := hgains root List.mem_cons_self other hbetween
      obtain ⟨also, hrest, halso, hsummary⟩ :=
        ih (fun other hmem => hgains other (List.mem_cons_of_mem _ hmem)) hmiddle
      refine ⟨also, ?_, halso, ?_⟩
      · rw [List.forM]
        exact bind_eq_ok.2 ⟨(), middle, hfirst, hrest⟩
      · rw [hsummary, hgained, List.map_cons, List.sum_cons, add_assoc]

section Orders

variable (hseparate : job.Separate) (hstart : job.Poised session)

include hseparate hstart

theorem spans_of_exportRoots
    (hexported : job.config.roots.forM job.exportRoot session = .ok () done) :
    job.Spans session.fileSystem done.fileSystem := by
  have hvisits (root : Path) (hroot : root ∈ job.config.roots) : job.Visits root :=
    (hseparate.roots root hroot).visits
  have hinside := (keeps_inside hseparate session.fileSystem.tree _).exportRoots hvisits session
    ⟨hstart.linkFree, Place.isLeftOf_append_replicate _, fun _ _ => rfl, hstart.stands⟩
  have hretains := (job.keeps_retains session.fileSystem).exportRoots hvisits session (.refl _)
  rw [hexported] at hinside hretains
  exact ⟨hstart.linkFree, hstart.stands, hinside.holds, hretains⟩

theorem exists_gains_of_exportRoots
    (hexported : job.config.roots.forM job.exportRoot session = .ok () done) :
    ∃ gain : Path → Summary, ∀ root ∈ job.config.roots,
      job.Gains session.fileSystem done.fileSystem root (gain root) := by
  have hstrayed : ¬job.Strayed session.fileSystem done.fileSystem done := by
    intro hstrays
    obtain ⟨place, entry, -, hentry, hended⟩ := hstrays.strays
    exact hended hentry
  have hgains := exists_gains_of_mem hseparate (spans_of_exportRoots hseparate hstart hexported)
    (fun _ => id) ⟨fun _ _ => rfl, hstart.stands⟩ (.refl _) hexported hstrayed
  choose! gain hgain using hgains
  exact ⟨gain, hgain⟩

/-- In another order the roots can be exported, too, and the counts of files are the same. -/
theorem exportRoots_between {roots : List Path} (hperm : roots.Perm job.config.roots)
    (hother : job.Poised other)
    (hsame : ∀ place, other.fileSystem.tree.get? place = session.fileSystem.tree.get? place)
    (hexported : job.config.roots.forM job.exportRoot session = .ok () done) :
    ∃ also, roots.forM job.exportRoot other = .ok () also ∧
      session.fileSystem.tree.Between done.fileSystem.tree also.fileSystem.tree ∧
      also.summary.written = done.summary.written ∧
      also.summary.skipped = done.summary.skipped := by
  obtain ⟨gain, hgain⟩ := exists_gains_of_exportRoots hseparate hstart hexported
  obtain ⟨also, halso, hbetween, hsum⟩ :=
    exportRoots_of_gains (fun root hroot => hgain root (hperm.mem_iff.1 hroot))
      (fun place => .inl (hsame place))
  -- what the roots add in their own order they add in the export itself
  obtain ⟨same, hagain, -, hdone⟩ := exportRoots_of_gains hgain (.refl _ _)
  rw [hexported] at hagain
  cases hagain
  have hsum' : also.summary = (roots.map gain).sum := by
    rw [hsum, hother.summary]
    exact zero_add _
  have hdone' : done.summary = (job.config.roots.map gain).sum := by
    rw [hdone, hstart.summary]
    exact zero_add _
  have hgains := hperm.map gain
  refine ⟨also, halso, hbetween, ?_, ?_⟩
  · rw [hsum', hdone', Summary.sum_written, Summary.sum_written, (hgains.map _).sum_eq]
  · rw [hsum', hdone', Summary.sum_skipped, Summary.sum_skipped, (hgains.map _).sum_eq]

end Orders

end Export

end Snapshot
