import Snapshot.Proofs.JobSteps

/-!
# How the parts of an export fail

Every exit of an export puts its own contexts around what went wrong there. What they come to is
said here once for each exit: below the context of the export stands a path, alone or with the fault
that was met at it, the destination if overwriting it was declined, or a file at one of its stages.
Statements about failures refer to these shapes, and need not look at the exits again.
-/

namespace Snapshot

open ExportM

/-! ## Contexts -/

namespace Report

variable {report : Report} {context : Context} {note : Note} {fault : Fault}

@[simp] theorem contexts_of : (of context).contexts = [context] := rfl

@[simp] theorem contexts_ofFault : (ofFault fault).contexts = [.system fault] := rfl

@[simp] theorem contexts_within :
    (report.within context).contexts = context :: report.contexts := rfl

@[simp] theorem contexts_noting : (report.noting note).contexts = report.contexts := rfl

theorem mem_contexts_iff : context ∈ report.contexts ↔ .context context ∈ report.frames := by
  rw [contexts, List.mem_filterMap]
  constructor
  · rintro ⟨frame, hmem, hframe⟩
    cases frame with
    | context other =>
        obtain rfl := Option.some.inj hframe
        exact hmem
    | note added => cases hframe
  · exact fun hmem => ⟨_, hmem, rfl⟩

/-- Below its cause, a report only says that the system refused something. -/
theorem cause?_eq_of_contexts (above : List Context) {below : List Context}
    (hcontexts : report.contexts = above ++ context :: below) (hcontext : context.isSystem = false)
    (hbelow : ∀ lower ∈ below, lower.isSystem = true) : report.cause? = some context := by
  have hnone : below.filter (fun context => !context.isSystem) = [] :=
    List.filter_eq_nil_iff.2 fun lower hmem => by simp [hbelow lower hmem]
  rw [cause?, hcontexts, List.filter_append, List.filter_cons_of_pos (by simp [hcontext]), hnone,
    List.getLast?_concat]

end Report

/-- A path, and the fault that was met at it, if the system has refused something. -/
def Context.OfPath (contexts : List Context) : Prop :=
  ∃ path, contexts = [.path path] ∨ ∃ fault, contexts = [.path path, .system fault]

/-- A file at one of the stages at which the system can refuse something, and the fault. -/
def Context.OfFile (contexts : List Context) : Prop :=
  ∃ stage name line fault, stage ≠ .filtering ∧ contexts = [.file stage name line, .system fault]

/-- What stands below the context of the export is of a certain kind. -/
def Report.Exporting (kind : List Context → Prop) (report : Report) : Prop :=
  ∃ below, report.contexts = .exporting :: below ∧ kind below

namespace Context

theorem ofPath_alone (path : Path) : OfPath [.path path] :=
  ⟨path, .inl rfl⟩

theorem ofPath_fault (path : Path) (fault : Fault) : OfPath [.path path, .system fault] :=
  ⟨path, .inr ⟨fault, rfl⟩⟩

end Context

open Context

/-- The export has met a path with which it cannot go on. -/
def Report.BlamesPath (report : Report) : Prop :=
  report.Exporting OfPath

/-- The system has refused something that copying a file needs. -/
def Report.BlamesFile (report : Report) : Prop :=
  report.Exporting OfFile

/-! ## Checks -/

/-- Checks that are made one after the other fail as one of them does. -/
theorem exists_of_forM_eq_error {ε α : Type} {check : α → Except ε Unit} {list : List α} {error : ε}
    (h : list.forM check = .error error) : ∃ a, check a = .error error := by
  induction list with
  | nil => cases h
  | cons first rest ih =>
      rw [List.forM] at h
      cases hfirst : check first with
      | error refused =>
          rw [hfirst] at h
          cases h
          exact ⟨first, hfirst⟩
      | ok _ =>
          rw [hfirst] at h
          exact ih h

theorem mapError_eq_error {ε ε' α : Type} {result : Except ε α} {wrap : ε → ε'} {error : ε'}
    (h : result.mapError wrap = .error error) : ∃ inner, result = .error inner ∧
      wrap inner = error := by
  cases result with
  | error inner => exact ⟨inner, rfl, Except.error.inj h⟩
  | ok a =>
      change Except.ok a = Except.error error at h
      cases h

section Checks

variable {config : Config} {project : Project} {fs : FileSystem} {path root : Path}
  {resolved : Location} {report : Report}

theorem Config.ofPath_validate (h : config.validate = .error report) :
    OfPath report.contexts := by
  unfold validate at h
  split at h
  · cases h
    exact ofPath_alone _
  · cases h

theorem FileSystem.ofPath_resolveExisting (h : fs.resolveExisting path = .error report) :
    OfPath report.contexts := by
  unfold resolveExisting at h
  split at h
  · split at h
    · cases h
    · cases h
      exact ofPath_fault _ _
  · cases h
    exact ofPath_alone _

theorem FileSystem.ofPath_resolveLenient (h : fs.resolveLenient path = .error report) :
    OfPath report.contexts := by
  unfold resolveLenient at h
  split at h
  · cases h
    exact ofPath_fault _ _
  · dsimp only at h
    split at h
    · cases h
    · cases h
      exact ofPath_alone _

theorem Listing.ofPath_read {destination : Location}
    (h : read project destination fs path = .error report) : OfPath report.contexts := by
  unfold read at h
  split at h
  · cases h
  · cases h
    exact ofPath_fault _ _

namespace Project

theorem blamesPath_refusal (note : Note) : (project.refusal note).BlamesPath :=
  ⟨_, rfl, ofPath_alone _⟩

theorem blamesPath_checkTarget
    (h : checkRoot.checkTarget project fs resolved root = .error report) :
    report.BlamesPath := by
  unfold checkRoot.checkTarget at h
  split at h
  · next refused hresolve =>
      cases h
      exact ⟨_, rfl, FileSystem.ofPath_resolveLenient hresolve⟩
  · split at h
    · cases h
      exact blamesPath_refusal _
    · cases h

theorem blamesPath_checkRoot (h : project.checkRoot fs resolved root = .error report) :
    report.BlamesPath := by
  unfold checkRoot at h
  split at h
  · split at h
    · cases h
      exact blamesPath_refusal _
    · exact blamesPath_checkTarget h
  · exact blamesPath_checkTarget h

theorem blamesPath_checkDestination (h : project.checkDestination fs = .error report) :
    report.BlamesPath := by
  unfold checkDestination at h
  split at h
  · next refused hresolve =>
      cases h
      exact ⟨_, rfl, FileSystem.ofPath_resolveLenient hresolve⟩
  · split at h
    · cases h
      exact blamesPath_refusal _
    · obtain ⟨root, hroot⟩ := exists_of_forM_eq_error h
      exact blamesPath_checkRoot hroot

end Project

end Checks

/-! ## Parts of an export -/

/-- Wherever a part of an export starts, it fails in one of some ways or not at all. -/
def ExportM.FailsWith {α : Type} (failed : Report → Session → Prop) (part : ExportM α) : Prop :=
  Ensures (fun _ => True) part (fun _ _ => True) failed

namespace ExportM.FailsWith

variable {α β : Type} {part : ExportM α} {failed other : Report → Session → Prop}

theorem imp (h : FailsWith failed part)
    (himp : ∀ report session, failed report session → other report session) :
    FailsWith other part :=
  Ensures.imp h (fun _ h => h) (fun _ _ h => h) himp

theorem bind {next : α → ExportM β} (hpart : FailsWith failed part)
    (hnext : ∀ a, FailsWith failed (next a)) : FailsWith failed (part >>= next) :=
  Ensures.bind hpart hnext

theorem pure (a : α) : FailsWith failed (Pure.pure a : ExportM α) :=
  Ensures.pure fun _ _ => trivial

theorem throw_bind {report : Report} {next : β → ExportM α} (h : ∀ session, failed report session) :
    FailsWith failed ((MonadExcept.throw report : ExportM β) >>= next) :=
  Ensures.throw_bind fun session _ => h session

theorem get_bind {next : Session → ExportM α} (h : ∀ session, FailsWith failed (next session)) :
    FailsWith failed (MonadState.get >>= next) :=
  Ensures.get_bind fun session _ => h session

theorem say (config : Config) (status : Status) : FailsWith failed (ExportM.say config status) :=
  ensures_say fun _ _ _ => trivial

theorem count (update : Summary → Summary) : FailsWith failed (ExportM.count update) :=
  ensures_count fun _ _ => trivial

theorem query {answer : FileSystem → Except Report α}
    (h : ∀ (session : Session) report, answer session.fileSystem = .error report →
      failed report session) :
    FailsWith failed (ExportM.query answer) :=
  ensures_query (fun _ _ _ _ => trivial) fun session report _ => h session report

theorem change {request : FileSystem → FileSystem × Except Report α}
    (h : ∀ (session : Session) after report,
      request session.fileSystem = (after, .error report) →
        failed report { session with fileSystem := after }) :
    FailsWith failed (ExportM.change request) :=
  ensures_change (fun _ _ _ _ _ => trivial) fun session after report _ => h session after report

theorem forM {body : β → ExportM Unit} {list : List β} (h : ∀ b ∈ list, FailsWith failed (body b)) :
    FailsWith failed (list.forM body) :=
  Ensures.forM h

end ExportM.FailsWith

namespace Project

variable {project : Project} {confirm : Path → Bool}

/-- Overwriting the destination was declined, in the answer to a question that was asked. -/
def Declined (project : Project) (confirm : Path → Bool) (report : Report) (session : Session) :
    Prop :=
  report = (Report.of (.declined project.config.destination)).within .exporting ∧
    ∃ question ∈ session.questions, confirm question.destination = false

theorem askConsent_fails :
    FailsWith (project.Declined confirm) (project.askConsent confirm) := by
  have hasked : Ensures (fun _ => True)
      (modify fun session => { session with questions := session.questions ++
        [{ destination := project.config.destination, fileSystem := session.fileSystem }] })
      (fun _ session => ∃ question ∈ session.questions,
        question.destination = project.config.destination)
      (project.Declined confirm) :=
    ensures_modify fun _ _ => ⟨_, List.mem_append_right _ (List.mem_singleton_self _), rfl⟩
  unfold askConsent
  refine Ensures.bind hasked fun _ => ?_
  split
  · exact .pure fun _ _ => trivial
  · next hdeclined =>
      refine .throw fun session ⟨question, hmem, hquestion⟩ => ⟨rfl, question, hmem, ?_⟩
      rw [hquestion]
      simpa using hdeclined

theorem removeExisting_fails (path : Path) :
    FailsWith (fun report _ => report.BlamesPath) (project.removeExisting path) := by
  unfold removeExisting
  refine .get_bind fun session => ?_
  dsimp only
  split
  · exact .pure _
  · refine .bind (.say _ _) fun _ => .change fun session after report hreport => ?_
    obtain ⟨fault, -, rfl⟩ := mapError_eq_error (congrArg Prod.snd hreport)
    exact ⟨_, rfl, ofPath_fault _ _⟩

/-- Making a destination ready fails at a path, or because it was declined. -/
theorem prepareDestination_fails :
    FailsWith (fun report session => report.BlamesPath ∨
      project.Declined confirm report session) (project.prepareDestination confirm) := by
  have hresolve : FailsWith (fun report _ => report.BlamesPath) (query fun fs =>
      (fs.resolveExisting project.config.destination).mapError fun report =>
        (report.within .exporting).noting .unresolvedDestination) := by
    refine .query fun session report hreport => ?_
    obtain ⟨inner, hinner, rfl⟩ := mapError_eq_error hreport
    exact ⟨_, rfl, FileSystem.ofPath_resolveExisting hinner⟩
  unfold prepareDestination
  refine .bind (.query fun _ _ h => .inl (blamesPath_checkDestination h)) fun _ =>
    .get_bind fun session => ?_
  dsimp only
  split
  · split
    · refine (askConsent_fails.imp fun _ _ => .inr).bind fun _ => ?_
      refine .bind (.forM fun root _ => (removeExisting_fails _).imp fun _ _ => .inl) fun _ => ?_
      exact hresolve.imp fun _ _ => .inl
    · exact .throw_bind fun _ => .inl (blamesPath_refusal _)
  · refine .bind (.say _ _) fun _ => .bind (.change fun session after report hreport => ?_) fun _ =>
      hresolve.imp fun _ _ => .inl
    obtain ⟨fault, -, rfl⟩ := mapError_eq_error (congrArg Prod.snd hreport)
    exact .inl ⟨_, rfl, ofPath_fault _ _⟩

end Project

namespace FileCopy

variable {copy : FileCopy} {report : Report}

theorem ofFile_open? {fs : FileSystem} {input output : Path} {name : String}
    (h : open? fs input output name = .error report) : OfFile report.contexts := by
  unfold open? at h
  split at h
  · cases h
  · cases h
    exact ⟨.opening, name, 0, _, by decide, rfl⟩

theorem ofFile_readFailure (copy : FileCopy) (fault : Fault) :
    OfFile (copy.readFailure fault).contexts :=
  ⟨.reading, copy.name, copy.line, fault, by decide, rfl⟩

theorem contexts_of_finish {fs after : FileSystem} (h : copy.finish fs = (after, .error report)) :
    ∃ fault, report.contexts = [copy.context .writing, .system fault] := by
  unfold finish at h
  dsimp only at h
  split at h
  · cases h
  · split at h
    · cases h
      exact ⟨_, rfl⟩
    · split at h
      · cases h
      · cases h
        exact ⟨_, rfl⟩

theorem ofFile_finish {fs after : FileSystem} (h : copy.finish fs = (after, .error report)) :
    OfFile report.contexts := by
  obtain ⟨fault, hcontexts⟩ := contexts_of_finish h
  exact ⟨.writing, copy.name, copy.line, fault, by decide, hcontexts⟩

end FileCopy

namespace Export

variable {job : Export}

theorem blamesPath_creationFailure (path : Path) (fault : Fault) :
    (job.creationFailure path fault).BlamesPath :=
  ⟨_, rfl, ofPath_fault _ _⟩

theorem createTarget_fails (path : Path) :
    FailsWith (fun report _ => report.BlamesPath) (job.createTarget path) := by
  refine .change fun session after report hreport => ?_
  obtain ⟨fault, -, rfl⟩ := mapError_eq_error (congrArg Prod.snd hreport)
  exact blamesPath_creationFailure path fault

theorem scan_fails (path : Path) :
    FailsWith (fun report _ => report.BlamesPath) (job.sayingFailure <| query fun fs =>
      (Listing.read job.toProject job.target fs path).mapError fun report =>
        (report.within .exporting).noting .directoryNotScanned) := by
  refine sayingFailure_ensures (fun _ _ _ h => h) (FailsWith.query fun session report hreport => ?_)
  obtain ⟨inner, hinner, rfl⟩ := mapError_eq_error hreport
  exact ⟨_, rfl, Listing.ofPath_read hinner⟩

theorem writeVersion_fails : FailsWith (fun report _ => report.BlamesPath) job.writeVersion := by
  unfold writeVersion
  refine .change fun session after report hreport => ?_
  split at hreport
  · cases hreport
  · cases hreport
    exact ⟨_, rfl, ofPath_fault _ _⟩

end Export

end Snapshot
