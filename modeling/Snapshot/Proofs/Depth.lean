import Snapshot.Proofs.Clearing
import Snapshot.Proofs.Walks

/-!
# How deep an export goes

An export enters directory after directory, and nothing in its definition but a limit keeps it from
entering them without end: the project can hold links to directories above them, and what is written
to the destination may be read again. `Export.walkDown` has any other action in the place of the
limit. A rank for the paths that are visited, which falls with every level, shows that this action
is never come to; then the limit does not matter, and every walk that enters directories and does
the same in each is the one that is exported by. The length of the paths is such a rank, whatever
the file system is like.
-/

namespace Snapshot

/-! ## Parts that do the same -/

namespace ExportM

variable {α β : Type}

/-- From the sessions that are considered the two parts end alike. -/
def Agrees (before : Session → Prop) (first second : ExportM α) : Prop :=
  ∀ session, before session → first session = second session

namespace Agrees

variable {before before' : Session → Prop} {first second : ExportM α}

theorem refl : Agrees before first first :=
  fun _ _ => rfl

theorem mono_before (h : Agrees before first second)
    (hbefore : ∀ session, before' session → before session) : Agrees before' first second :=
  fun session hsession => h session (hbefore session hsession)

theorem of_start
    (h : ∀ start, before start → Agrees (fun session => session = start) first second) :
    Agrees before first second :=
  fun session hsession => h session hsession session rfl

theorem bind {middle : α → Session → Prop} {next next' : α → ExportM β}
    (hpart : Agrees before first second)
    (hreaches : Ensures before second middle fun _ _ => True)
    (hnext : ∀ a, Agrees (middle a) (next a) (next' a)) :
    Agrees before (first >>= next) (second >>= next') := by
  intro session hsession
  have hend := hreaches session hsession
  change EStateM.bind first next session = EStateM.bind second next' session
  unfold EStateM.bind
  rw [hpart session hsession]
  split at hend
  · next a state heq =>
      rw [heq]
      exact hnext a state hend
  · next report state heq => rw [heq]

theorem get_bind {next next' : Session → ExportM α}
    (h : ∀ state, before state →
      Agrees (fun session => session = state) (next state) (next' state)) :
    Agrees before (MonadState.get >>= next) (MonadState.get >>= next') :=
  fun session hsession => h session hsession session rfl

/-- What every element keeps up, both loops keep up. -/
theorem forM {list : List β} {body body' : β → ExportM Unit}
    (h : ∀ b ∈ list, Agrees before (body b) (body' b))
    (hkeeps : ∀ b ∈ list, Ensures before (body' b) (fun _ => before) fun _ _ => True) :
    Agrees before (list.forM body) (list.forM body') := by
  induction list with
  | nil => exact refl
  | cons b list ih =>
      rw [List.forM, List.forM]
      refine (h b List.mem_cons_self).bind (hkeeps b List.mem_cons_self) fun _ => ih ?_ ?_
      · exact fun other hother => h other (List.mem_cons_of_mem _ hother)
      · exact fun other hother => hkeeps other (List.mem_cons_of_mem _ hother)

end Agrees

/-- What holds of an end for one reason after the other. -/
theorem Ensures.forall {ι : Sort*} {part : ExportM α} {before : ι → Session → Prop}
    {after : ι → α → Session → Prop} {failed : ι → Report → Session → Prop}
    (h : ∀ i, Ensures (before i) part (after i) (failed i)) :
    Ensures (fun session => ∀ i, before i session) part (fun a session => ∀ i, after i a session)
      fun report session => ∀ i, failed i report session := by
  intro session hsession
  have hend (i : ι) := h i session (hsession i)
  cases hpart : part session with
  | ok a last => exact fun i => by simpa [hpart] using hend i
  | error report last => exact fun i => by simpa [hpart] using hend i

/-- What does not depend on the session stays. -/
theorem Ensures.of_const {part : ExportM α} {P : Prop} :
    Ensures (fun _ => P) part (fun _ _ => P) fun _ _ => True := by
  intro session h
  split
  · exact h
  · trivial

end ExportM

open ExportM

namespace Export

/-! ## Walks with and without a limit -/

section Definitions

variable (job : Export)

/-- What an export does with a directory, if it does `next` with the directories in it. -/
def enterDirectory (next : Path → ExportM Unit) (path : Path) : ExportM Unit := do
  ExportM.say job.config (.creatingDirectory path)
  job.createTarget path
  let listing ← job.sayingFailure <| ExportM.query fun fs =>
    (Listing.read job.toProject job.target fs path).mapError fun report =>
      (report.within .exporting).noting .directoryNotScanned
  listing.files.forM job.exportFile
  listing.subdirectories.forM next

/-- Enters so many levels of directories, and does something else with the directories beyond. -/
def walkDown (beyond : Path → ExportM Unit) : (depth : Nat) → Path → ExportM Unit
  | 0 => beyond
  | depth + 1 => job.enterDirectory (walkDown beyond depth)

/-- Exports a root, with `walk` for a directory. -/
def exportRootBy (walk : Path → ExportM Unit) (root : Path) : ExportM Unit := do
  let fs := (← get).fileSystem
  let place := job.pathOf root
  if !fs.pathExists place then
    ExportM.say job.config (.missingRoot root)
    ExportM.count fun summary =>
      { summary with missingRoots := summary.missingRoots ++ [root] }
  else if root.fileName?.any job.config.isIgnored then
    return
  else if fs.isDirectory place then
    walk root
  else
    job.exportFile root

def exportRootsBy (walk : Path → ExportM Unit) : ExportM Summary := do
  job.config.roots.forM (job.exportRootBy walk)
  job.writeVersion
  let summary := (← get).summary
  ExportM.say job.config (.done summary.written summary.skipped)
  return summary

end Definitions

def performBy (walk : Export → Path → ExportM Unit) (config : Config) (confirm : Path → Bool) :
    ExportM Summary := do
  ExportM.query fun _ => config.validate.mapError fun report =>
    (report.within .exporting).noting .invalidRoots
  let base ← ExportM.query fun fs =>
    (fs.resolveExisting config.baseDirectory).mapError fun report =>
      (report.within .exporting).noting .unresolvedProject
  ExportM.say config (.usingVersion config.version)
  let project : Project := { config, base }
  let target ← project.prepareDestination confirm
  exportRootsBy { project with target } (walk { project with target })

/-- Runs an export that goes through the directories of the project by the given walk. -/
def runExportBy (walk : Export → Path → ExportM Unit) (config : Config) (confirm : Path → Bool)
    (fs : FileSystem) : Outcome :=
  match performBy walk config confirm { fileSystem := fs } with
  | .ok summary session => { result := .ok summary, session }
  | .error report session => { result := .error report, session }

variable {job : Export} {beyond : Path → ExportM Unit} {path : Path}

/-- A walk that has no limit does beyond any depth what it does anyway. -/
theorem walkDown_eq_of_unlimited {walk : Path → ExportM Unit}
    (hwalk : walk = job.enterDirectory walk) (depth : Nat) : job.walkDown walk depth = walk := by
  induction depth with
  | zero => rfl
  | succ depth ih => rw [walkDown, ih, ← hwalk]

/-! ## Ranks -/

/-- A rank of the paths that are visited. It stays, whatever is exported meanwhile, and it is higher
than the ranks of the directories that a listing shows. -/
structure Ranks (job : Export) (rank : Nat → Path → Session → Prop) : Prop where
  keeps : ∀ level path, job.Keeps job.Visits (rank level path) fun _ _ => True
  falls : ∀ {level path session listing}, job.Visits path → rank level path session →
    Listing.read job.toProject job.target session.fileSystem path = .ok listing →
      ∀ next ∈ listing.subdirectories, ∃ lower < level, rank lower next session

variable {rank : Nat → Path → Session → Prop} {level depth limit : Nat}

theorem Keeps.forall {ι : Sort*} {kept : ι → Session → Prop}
    (h : ∀ i, job.Keeps job.Visits (kept i) fun _ _ => True) :
    job.Keeps job.Visits (fun session => ∀ i, kept i session) fun _ _ => True where
  of_kept _ _ _ := trivial
  of_status session status hkept i := (h i).of_status session status (hkept i)
  of_missing root session hroot hmissing hkept i :=
    (h i).of_missing root session hroot hmissing (hkept i)
  failed_of_status _ _ _ _ := trivial
  visited_join _ _ hpath hname := hpath.join hname
  createTarget path hpath := (Ensures.forall fun i => (h i).createTarget path hpath).anyhow
  exportFile path hpath := (Ensures.forall fun i => (h i).exportFile path hpath).anyhow

/-- A walk down from a ranked path never comes to what is beyond its depth. -/
theorem Ranks.walkDown_agrees (h : job.Ranks rank) (hpath : job.Visits path)
    (hdepth : level < depth) (hlimit : level < limit) :
    Agrees (rank level path) (job.walkDown beyond depth path) (job.exportDirectory limit path) := by
  induction depth generalizing level path limit with
  | zero => exact absurd hdepth (Nat.not_lt_zero _)
  | succ depth ih =>
      obtain ⟨limit, rfl⟩ := Nat.exists_eq_add_one.2 (Nat.zero_lt_of_lt hlimit)
      have hkeeps := h.keeps level path
      refine Agrees.bind .refl (ensures_say hkeeps.of_status) fun _ => ?_
      refine Agrees.bind .refl (hkeeps.createTarget path hpath) fun _ => ?_
      refine Agrees.bind .refl (scan_ensures hkeeps.of_kept hkeeps.failed_of_status)
        fun listing => ?_
      apply Agrees.of_start
      intro session hsession
      obtain ⟨hrank, hread⟩ := hsession
      -- every directory in the listing has a rank of its own, which is kept until its turn comes
      choose lower hlower hranked using h.falls hpath hrank hread
      have hvisits (next : Path) (hnext : next ∈ listing.files ∨ next ∈ listing.subdirectories) :
          job.Visits next := by
        obtain ⟨name, hname, rfl⟩ := Listing.exists_isName_of_mem hread hnext
        exact hpath.join hname
      have hall : job.Keeps job.Visits
          (fun session => ∀ next hnext, rank (lower next hnext) next session) fun _ _ => True :=
        .forall fun next => .forall fun hnext => h.keeps (lower next hnext) next
      refine Agrees.mono_before ?_ fun _ heq => heq ▸ hranked
      refine Agrees.bind .refl
        (Ensures.forM fun file hmem => hall.exportFile file (hvisits file (.inl hmem)))
        fun _ => Agrees.forM ?_ ?_
      · intro next hmem
        have hnext := hlower next hmem
        refine (ih (hvisits next (.inr hmem)) (Nat.lt_of_lt_of_le hnext (Nat.le_of_lt_succ hdepth))
          (Nat.lt_of_lt_of_le hnext (Nat.le_of_lt_succ hlimit))).mono_before ?_
        exact fun session hsession => hsession next hmem
      · exact fun next hmem => hall.exportDirectory limit (hvisits next (.inr hmem))

section Roots

variable {begins : Session → Prop} {bound : Nat} (h : job.Ranks rank)
  (hbegins : job.Keeps job.Visits begins fun _ _ => True)
  (hstarts : ∀ root ∈ job.config.roots, ∀ session, begins session →
    session.fileSystem.isDirectory (job.pathOf root) = true → ∃ level < bound,
      rank level root session)
  (hdepth : bound ≤ depth) (hlimit : bound ≤ depthLimit)

include h hstarts hdepth hlimit

theorem Ranks.exportRootBy_agrees {root : Path} (hroot : root ∈ job.config.roots)
    (hvisits : job.Visits root) :
    Agrees begins (job.exportRootBy (job.walkDown beyond depth) root) (job.exportRoot root) := by
  apply Agrees.get_bind
  intro state hstate
  dsimp only
  split
  · exact .refl
  · split
    · exact .refl
    · split
      · next hdirectory =>
          obtain ⟨level, hlevel, hrank⟩ := hstarts root hroot state hstate hdirectory
          have hwalk : Agrees (rank level root) (job.walkDown beyond depth root)
              (job.exportDirectory depthLimit root) :=
            h.walkDown_agrees hvisits (Nat.lt_of_lt_of_le hlevel hdepth)
              (Nat.lt_of_lt_of_le hlevel hlimit)
          exact hwalk.mono_before fun _ heq => heq ▸ hrank
      · exact .refl

include hbegins

theorem Ranks.exportRootsBy_agrees (hvisits : ∀ root ∈ job.config.roots, job.Visits root) :
    Agrees begins (job.exportRootsBy (job.walkDown beyond depth)) job.exportRoots := by
  have hroots : Agrees begins (job.config.roots.forM (job.exportRootBy (job.walkDown beyond depth)))
      (job.config.roots.forM job.exportRoot) := by
    apply Agrees.forM
    · exact fun root hroot => h.exportRootBy_agrees hstarts hdepth hlimit hroot (hvisits root hroot)
    · exact fun root hroot => hbegins.exportRoot (hvisits root hroot)
  exact hroots.bind (hbegins.exportRoots hvisits) fun _ => .refl

end Roots

/-! ## Whole exports -/

/-- Up to the export of the roots there is no walk. -/
theorem performBy_agrees {walk : Export → Path → ExportM Unit} {config : Config}
    {confirm : Path → Bool} {begun : Session}
    (hroots : ∀ base target, (∀ root ∈ config.roots, root.IsDescent) →
      begun.fileSystem.resolveExisting config.baseDirectory = .ok base →
        Agrees (({ config, base } : Project).IsReady confirm begun target)
          (exportRootsBy { config, base, target } (walk { config, base, target }))
          (exportRoots { config, base, target })) :
    Agrees (fun session => session = begun) (performBy walk config confirm)
      (perform config confirm) := by
  have hvalidate : Ensures (fun session => session = begun)
      (query fun _ => config.validate.mapError fun report =>
        (report.within .exporting).noting .invalidRoots)
      (fun _ session => session = begun ∧ ∀ root ∈ config.roots, root.IsDescent)
      fun _ _ => True :=
    ensures_query (fun _ _ heq hvalid =>
      ⟨heq, Config.isDescent_of_validate (mapError_eq_ok.1 hvalid)⟩) fun _ _ _ _ => trivial
  refine Agrees.bind .refl hvalidate fun _ => ?_
  apply Agrees.of_start
  rintro session ⟨rfl, hdescent⟩
  have hbase : Ensures (fun same => same = session)
      (query fun fs => (fs.resolveExisting config.baseDirectory).mapError fun report =>
        (report.within .exporting).noting .unresolvedProject)
      (fun base same => same = session ∧
        session.fileSystem.resolveExisting config.baseDirectory = .ok base)
      fun _ _ => True :=
    ensures_query (fun _ _ heq hresolved => ⟨heq, heq ▸ mapError_eq_ok.1 hresolved⟩)
      fun _ _ _ _ => trivial
  refine Agrees.bind .refl hbase fun base => ?_
  apply Agrees.of_start
  rintro same ⟨rfl, hresolved⟩
  refine Agrees.bind .refl ensures_say_eq fun _ => ?_
  have hprepare : Ensures (fun session => ∃ lines, session = { same with status := lines })
      (({ config, base } : Project).prepareDestination confirm)
      (({ config, base } : Project).IsReady confirm same) fun _ _ => True :=
    (Project.prepareDestination_readies_said hdescent).anyhow
  exact Agrees.bind .refl hprepare fun target => hroots base target hdescent hresolved

theorem runExportBy_eq {walk : Export → Path → ExportM Unit} {config : Config}
    {confirm : Path → Bool} {fs : FileSystem}
    (h : Agrees (fun session => session = { fileSystem := fs }) (performBy walk config confirm)
      (perform config confirm)) :
    runExportBy walk config confirm fs = runExport config confirm fs := by
  have hsame := h { fileSystem := fs } rfl
  unfold runExportBy runExport
  cases hperform : perform config confirm { fileSystem := fs } with
  | ok summary session => simp only [hsame.trans hperform]
  | error report session => simp only [hsame.trans hperform]

/-! ## The length of the paths -/

theorem keeps_const (job : Export) (P : Prop) :
    job.Keeps job.Visits (fun _ => P) fun _ _ => True where
  of_kept _ _ _ := trivial
  of_status _ _ h := h
  of_missing _ _ _ _ h := h
  failed_of_status _ _ _ _ := trivial
  visited_join _ _ hpath hname := hpath.join hname
  createTarget _ _ := .of_const
  exportFile _ _ := .of_const

/-- A path has at most so many levels below it as there are bytes left for its names. -/
def HasRoom (job : Export) (level : Nat) (path : Path) (_ : Session) : Prop :=
  Path.maxSize ≤ (job.pathOf path).size + level

/-- What is found in the project is found under a path that is not too long. -/
theorem size_pathOf_le {fs : FileSystem} (h : fs.isDirectory (job.pathOf path) = true) :
    (job.pathOf path).size ≤ Path.maxSize := by
  obtain ⟨location, hfind⟩ :=
    FileSystem.find_of_isDirectory (by rw [job.isAbsolute_pathOf, Bool.true_or]) h
  have haccepted := FileSystem.acceptable_of_reach (FileSystem.find_eq_ok_iff.1 hfind)
  exact haccepted.size_le.resolve_left (by simp)

theorem ranks_hasRoom (job : Export) : job.Ranks job.HasRoom where
  keeps _ _ := job.keeps_const _
  falls := by
    intro level path session listing hpath hroom hread next hnext
    obtain ⟨name, hname, rfl, hdirectory, -⟩ :=
      Listing.exists_of_mem_subdirectories hpath.1 hread hnext
    have hfits := size_pathOf_le hdirectory
    have hlonger : (job.pathOf path).size < (job.pathOf (path.join (.ofSegment name))).size := by
      rw [← Project.pathOf_join hpath.1]
      exact Nat.lt_of_lt_of_le (Nat.lt_add_of_pos_right hname.size_pos)
        Path.size_add_le_size_join_ofSegment
    unfold HasRoom at hroom
    exact ⟨Path.maxSize - (job.pathOf (path.join (.ofSegment name))).size, by omega,
      Nat.le_of_eq (Nat.add_sub_cancel' hfits).symm⟩

theorem exists_hasRoom_of_isDirectory {root : Path} {session : Session}
    (h : session.fileSystem.isDirectory (job.pathOf root) = true) :
    ∃ level < Path.maxSize, job.HasRoom level root session := by
  have hfits := size_pathOf_le h
  have hpositive := Path.size_pos_of_isAbsolute (job.isAbsolute_pathOf root)
  exact ⟨Path.maxSize - (job.pathOf root).size, by omega,
    Nat.le_of_eq (Nat.add_sub_cancel' hfits).symm⟩

/-- A walk that does something else beyond a depth does not come to it, if no path is longer. -/
theorem runExportBy_walkDown_eq {config : Config} {confirm : Path → Bool} {fs : FileSystem}
    (beyond : Export → Path → ExportM Unit) {depth : Nat} (hdepth : Path.maxSize ≤ depth) :
    runExportBy (fun job => job.walkDown (beyond job) depth) config confirm fs =
      runExport config confirm fs := by
  apply runExportBy_eq
  apply performBy_agrees
  intro base target hdescent _
  let job : Export := { config, base, target }
  have hvisits := visits_root job hdescent
  have hagrees : Agrees (fun _ => True) (job.exportRootsBy (job.walkDown (beyond job) depth))
      job.exportRoots :=
    job.ranks_hasRoom.exportRootsBy_agrees (job.keeps_const True)
      (fun root _ session _ => exists_hasRoom_of_isDirectory) hdepth
      (Nat.le_refl _) hvisits
  exact hagrees.mono_before fun _ _ => trivial

end Export

end Snapshot
