import Snapshot.Export.Run

/-!
# What verbosity decides

An export does the same at every verbosity and says the same lines, of which some are not shown.
`ExportM.Presents verbosity full part` relates a part of a verbose export to the same part at
another verbosity: started in the session of which only the lines that are shown there are left, the
part ends as the verbose one does, and of the lines said there are again those that are shown. The
rules follow the ways in which parts are put together. Nothing is assumed of the file system or of
the settings.
-/

namespace Snapshot

@[simp] theorem Verbosity.shows_verbose (status : Status) : Verbosity.verbose.shows status :=
  rfl

/-- A session of a verbose export as it would be at another verbosity. -/
def Session.shownAt (verbosity : Verbosity) (session : Session) : Session :=
  { session with status := session.status.filter verbosity.shows }

namespace ExportM

variable {α β : Type} {verbosity : Verbosity} {full part : ExportM α}

/-- How a verbose part ends, as it would end at another verbosity. -/
def endShownAt (verbosity : Verbosity) :
    EStateM.Result Report Session α → EStateM.Result Report Session α
  | .ok a session => .ok a (session.shownAt verbosity)
  | .error report session => .error report (session.shownAt verbosity)

def Presents (verbosity : Verbosity) (full part : ExportM α) : Prop :=
  ∀ session, part (session.shownAt verbosity) = endShownAt verbosity (full session)

namespace Presents

theorem pure (a : α) : Presents verbosity (Pure.pure a) (Pure.pure a) :=
  fun _ => rfl

theorem throw (report : Report) :
    Presents verbosity (MonadExcept.throw report : ExportM α) (MonadExcept.throw report) :=
  fun _ => rfl

theorem bind {next next' : α → ExportM β} (hpart : Presents verbosity full part)
    (hnext : ∀ a, Presents verbosity (next a) (next' a)) :
    Presents verbosity (full >>= next) (part >>= next') := by
  intro session
  change EStateM.bind part next' _ = endShownAt verbosity (EStateM.bind full next session)
  unfold EStateM.bind
  rw [hpart session]
  cases full session with
  | ok a middle => exact hnext a middle
  | error report middle => rfl

/-- What goes on with the session may not look at the lines that have been said. -/
theorem get_bind {next next' : Session → ExportM α}
    (h : ∀ session, Presents verbosity (next session) (next' (session.shownAt verbosity))) :
    Presents verbosity (MonadState.get >>= next) (MonadState.get >>= next') :=
  fun session => h session session

theorem tryCatch {handler handler' : Report → ExportM α} (hpart : Presents verbosity full part)
    (hhandler : ∀ report, Presents verbosity (handler report) (handler' report)) :
    Presents verbosity (MonadExcept.tryCatch full handler)
      (MonadExcept.tryCatch part handler') := by
  intro session
  change EStateM.tryCatch part handler' _ =
    endShownAt verbosity (EStateM.tryCatch full handler session)
  unfold EStateM.tryCatch
  rw [hpart session]
  cases full session with
  | ok a middle => rfl
  | error report middle => exact hhandler report middle

theorem ite {condition condition' : Prop} [Decidable condition] [Decidable condition']
    {other other' : ExportM α} (hcondition : condition ↔ condition')
    (hpart : Presents verbosity full part) (hother : Presents verbosity other other') :
    Presents verbosity (if condition then full else other)
      (if condition' then part else other') := by
  by_cases h : condition
  · simpa only [if_pos h, if_pos (hcondition.1 h)] using hpart
  · simpa only [if_neg h, if_neg (mt hcondition.2 h)] using hother

theorem forM {list : List β} {body body' : β → ExportM Unit}
    (h : ∀ b, Presents verbosity (body b) (body' b)) :
    Presents verbosity (list.forM body) (list.forM body') := by
  induction list with
  | nil => exact pure ()
  | cons b list ih => exact (h b).bind fun _ => ih

/-! ## Requests -/

theorem modify {update : Session → Session}
    (h : ∀ session : Session,
      update (session.shownAt verbosity) = (update session).shownAt verbosity) :
    Presents verbosity (modify update) (modify update) :=
  fun session => congrArg (EStateM.Result.ok ()) (h session)

theorem count (update : Summary → Summary) :
    Presents verbosity (ExportM.count update) (ExportM.count update) :=
  modify fun _ => rfl

theorem query (answer : FileSystem → Except Report α) :
    Presents verbosity (ExportM.query answer) (ExportM.query answer) := by
  intro session
  unfold ExportM.query Session.shownAt
  cases answer session.fileSystem with
  | ok a => rfl
  | error report => rfl

theorem change (request : FileSystem → FileSystem × Except Report α) :
    Presents verbosity (ExportM.change request) (ExportM.change request) := by
  intro session
  unfold ExportM.change Session.shownAt
  rcases request session.fileSystem with ⟨fs, report | a⟩
  · rfl
  · rfl

/-- A verbose export adds every line, another one those that it shows. -/
theorem say (config : Config) (status : Status) :
    Presents verbosity (ExportM.say { config with verbosity := .verbose } status)
      (ExportM.say { config with verbosity } status) := by
  intro session
  apply congrArg (EStateM.Result.ok ())
  cases hshows : verbosity.shows status with
  | true => simp [Session.shownAt, hshows]
  | false => simp [Session.shownAt, hshows]

end Presents

end ExportM

open ExportM

variable {verbosity : Verbosity}

/-! ## The destination -/

namespace Project

variable (project : Project)

def spokenAt (verbosity : Verbosity) : Project :=
  { project with config := { project.config with verbosity } }

theorem removeExisting_presents (path : Path) :
    Presents verbosity ((project.spokenAt .verbose).removeExisting path)
      ((project.spokenAt verbosity).removeExisting path) := by
  apply Presents.get_bind
  intro session
  unfold Session.shownAt
  cases session.fileSystem.entryAt .keep path with
  | error fault => exact .pure ()
  | ok entry => exact (Presents.say project.config _).bind fun _ => .change _

theorem askConsent_presents (confirm : Path → Bool) :
    Presents verbosity ((project.spokenAt .verbose).askConsent confirm)
      ((project.spokenAt verbosity).askConsent confirm) := by
  apply Presents.bind
  · exact .modify fun _ => rfl
  · intro _
    exact .ite Iff.rfl (.pure ()) (.throw _)

theorem prepareDestination_presents (confirm : Path → Bool) :
    Presents verbosity ((project.spokenAt .verbose).prepareDestination confirm)
      ((project.spokenAt verbosity).prepareDestination confirm) := by
  have hresolved : Presents verbosity _ _ := .query fun fs =>
    (fs.resolveExisting project.config.destination).mapError fun report =>
      (report.within .exporting).noting .unresolvedDestination
  apply Presents.bind
  · exact .query project.checkDestination
  intro _
  apply Presents.get_bind
  intro session
  apply Presents.ite Iff.rfl
  · apply Presents.ite Iff.rfl
    · apply (project.askConsent_presents confirm).bind
      intro _
      apply Presents.bind
      · exact .forM fun root => project.removeExisting_presents _
      · exact fun _ => hresolved
    · exact .throw _
  · apply (Presents.say project.config _).bind
    intro _
    apply Presents.bind
    · exact .change _
    · exact fun _ => hresolved

end Project

/-! ## The walk -/

namespace Export

variable (job : Export)

def spokenAt (verbosity : Verbosity) : Export :=
  { job with toProject := job.toProject.spokenAt verbosity }

theorem sayingFailure_presents {α : Type} {full part : ExportM α}
    (hpart : Presents verbosity full part) :
    Presents verbosity ((job.spokenAt .verbose).sayingFailure full)
      ((job.spokenAt verbosity).sayingFailure part) := by
  apply hpart.tryCatch
  intro report
  exact (Presents.say job.config .failed).bind fun _ => .throw report

theorem copyFile_presents (path : Path) :
    Presents verbosity ((job.spokenAt .verbose).copyFile path)
      ((job.spokenAt verbosity).copyFile path) := by
  apply (Presents.query _).bind
  intro copy
  apply Presents.bind
  · exact .modify fun _ => rfl
  intro _
  apply (Presents.query _).bind
  intro copy
  exact .change _

theorem exportFile_presents (path : Path) :
    Presents verbosity ((job.spokenAt .verbose).exportFile path)
      ((job.spokenAt verbosity).exportFile path) := by
  apply (Presents.say job.config _).bind
  intro _
  apply Presents.bind
  · apply job.sayingFailure_presents
    exact (job.copyFile_presents path).tryCatch fun report => .throw _
  intro written
  apply Presents.ite Iff.rfl
  · exact .count _
  · exact (Presents.count _).bind fun _ => .say job.config _

theorem exportDirectory_presents (depth : Nat) (path : Path) :
    Presents verbosity ((job.spokenAt .verbose).exportDirectory depth path)
      ((job.spokenAt verbosity).exportDirectory depth path) := by
  induction depth generalizing path with
  | zero => exact .throw _
  | succ depth ih =>
      apply (Presents.say job.config _).bind
      intro _
      apply Presents.bind
      · exact .change _
      intro _
      apply Presents.bind
      · apply job.sayingFailure_presents
        exact .query fun fs =>
          (Listing.read job.toProject job.target fs path).mapError fun report =>
            (report.within .exporting).noting .directoryNotScanned
      intro listing
      apply Presents.bind
      · exact .forM job.exportFile_presents
      · exact fun _ => .forM ih

theorem exportRoot_presents (root : Path) :
    Presents verbosity ((job.spokenAt .verbose).exportRoot root)
      ((job.spokenAt verbosity).exportRoot root) := by
  apply Presents.get_bind
  intro session
  apply Presents.ite Iff.rfl
  · exact (Presents.say job.config _).bind fun _ => .count _
  apply Presents.ite Iff.rfl
  · exact .pure ()
  apply Presents.ite Iff.rfl
  · exact job.exportDirectory_presents depthLimit root
  · exact job.exportFile_presents root

theorem writeVersion_presents :
    Presents verbosity (job.spokenAt .verbose).writeVersion
      (job.spokenAt verbosity).writeVersion := by
  change Presents verbosity job.writeVersion job.writeVersion
  unfold writeVersion
  exact .change _

theorem exportRoots_presents :
    Presents verbosity (job.spokenAt .verbose).exportRoots
      (job.spokenAt verbosity).exportRoots := by
  apply Presents.bind
  · exact .forM job.exportRoot_presents
  intro _
  apply job.writeVersion_presents.bind
  intro _
  apply Presents.get_bind
  intro session
  exact (Presents.say job.config _).bind fun _ => .pure _

theorem perform_presents (config : Config) (confirm : Path → Bool) :
    Presents verbosity (perform { config with verbosity := .verbose } confirm)
      (perform { config with verbosity } confirm) := by
  apply Presents.bind
  · exact .query _
  intro _
  apply (Presents.query _).bind
  intro base
  apply (Presents.say config _).bind
  intro _
  apply (Project.prepareDestination_presents { config, base } confirm).bind
  intro target
  exact exportRoots_presents { config, base, target }

end Export

/-! ## Whole exports -/

variable (config : Config) (confirm : Path → Bool) (fs : FileSystem)

theorem runExport_shownAt (verbosity : Verbosity) :
    runExport { config with verbosity } confirm fs =
      let verbose := runExport { config with verbosity := .verbose } confirm fs
      { verbose with session := verbose.session.shownAt verbosity } := by
  have hperform : Export.perform { config with verbosity } confirm { fileSystem := fs } = _ :=
    Export.perform_presents config confirm { fileSystem := fs }
  unfold runExport
  rw [hperform]
  cases Export.perform { config with verbosity := .verbose } confirm { fileSystem := fs } with
  | ok summary session => rfl
  | error report session => rfl

/-- Exports whose settings differ only in their verbosity have the same result, ask the same
questions in the same file systems, read the same files and leave the same behind. A quiet export
says nothing, and a normal one says what a verbose one says except for the details. -/
theorem verbosity_only_presents :
    let run (verbosity : Verbosity) := runExport { config with verbosity } confirm fs
    (∀ first second,
      (run first).result = (run second).result ∧
      (run first).session.questions = (run second).session.questions ∧
      (run first).session.inputs = (run second).session.inputs ∧
      (run first).session.summary = (run second).session.summary ∧
      (run first).session.fileSystem = (run second).session.fileSystem) ∧
    (run .quiet).session.status = [] ∧
    (run .normal).session.status =
      (run .verbose).session.status.filter fun status => !status.isDetail := by
  intro run
  have hshown (verbosity : Verbosity) : run verbosity =
      { run .verbose with session := (run .verbose).session.shownAt verbosity } :=
    runExport_shownAt config confirm fs verbosity
  refine ⟨fun first second => ?_, ?_, ?_⟩
  · rw [hshown first, hshown second]
    exact ⟨rfl, rfl, rfl, rfl, rfl⟩
  · rw [hshown .quiet]
    exact List.filter_eq_nil_iff.2 fun _ _ => Bool.false_ne_true
  · rw [hshown .normal]
    rfl

end Snapshot
