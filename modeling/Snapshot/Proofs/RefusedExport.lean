import Snapshot.Proofs.Agreement
import Snapshot.Proofs.Walks

/-!
# Refused exports

Before an export changes anything it can be refused: because of its roots, its project, where its
destination is, what stands there, or the answer to the question about it. These reasons are stated
here as conditions on the settings and on the file system at the beginning. An export to which one
of them applies fails with the report of that reason, and leaves the file system as it was. The
question is asked at that point or never, so at most once, and before anything has changed. Links
may stand anywhere.
-/

namespace Snapshot

open ExportM

/-! ## The reasons -/

/-- The checks that come before the question have nothing against an export. -/
structure Config.Passes (config : Config) (fs : FileSystem) (base : Location) : Prop where
  valid : config.validate = .ok ()
  resolved : fs.resolveExisting config.baseDirectory = .ok base
  accepted : ({ config, base } : Project).checkDestination fs = .ok ()

/-- Whether an export asks if it may use its destination. -/
def Config.Asks (config : Config) (fs : FileSystem) : Prop :=
  (∃ base, config.Passes fs base) ∧ fs.isDirectory config.destination = true

/-- An export is refused with the given report. -/
inductive Config.Refused (config : Config) (confirm : Path → Bool) (fs : FileSystem) : Report → Prop
  | roots {report : Report} : config.validate = .error report →
      Refused config confirm fs ((report.within .exporting).noting .invalidRoots)
  | project {report : Report} : config.validate = .ok () →
      fs.resolveExisting config.baseDirectory = .error report →
      Refused config confirm fs ((report.within .exporting).noting .unresolvedProject)
  | destination {base : Location} {report : Report} : config.validate = .ok () →
      fs.resolveExisting config.baseDirectory = .ok base →
      ({ config, base } : Project).checkDestination fs = .error report →
      Refused config confirm fs report
  | occupied {base : Location} : config.Passes fs base →
      fs.pathExists config.destination = true → fs.isDirectory config.destination = false →
      Refused config confirm fs
        (({ config, base } : Project).refusal .destinationNotDirectory)
  | declined {base : Location} : config.Passes fs base →
      fs.isDirectory config.destination = true → confirm config.destination = false →
      Refused config confirm fs ((Report.of (.declined config.destination)).within .exporting)

variable {config : Config} {confirm : Path → Bool} {fs : FileSystem} {base : Location}

namespace Config

/-- Where the project is depends on nothing but the file system. -/
theorem Passes.eq_base {other : Location} (h : config.Passes fs other)
    (hresolved : fs.resolveExisting config.baseDirectory = .ok base) : other = base :=
  Except.ok.inj (h.resolved.symm.trans hresolved)

/-- What has been asked by an export that is refused, or has got beyond the question. -/
structure Answered (config : Config) (fs : FileSystem) (session : Session) : Prop where
  asked : config.Asks fs → session.questions = [⟨config.destination, fs⟩]
  silent : ¬config.Asks fs → session.questions = []

/-- How an export ends that goes on to change something, if it does. -/
structure Admitted (config : Config) (confirm : Path → Bool) (fs : FileSystem) (session : Session) :
    Prop where
  answered : config.Answered fs session
  not_refused : ∀ report, ¬config.Refused confirm fs report

/-- How an export ends that fails, for a reason of these or another. -/
structure Ended (config : Config) (confirm : Path → Bool) (fs : FileSystem) (report : Report)
    (session : Session) : Prop where
  answered : config.Answered fs session
  refused : ∀ other, config.Refused confirm fs other →
    other = report ∧ session.fileSystem = fs

theorem Admitted.ended {report : Report} {session : Session}
    (h : config.Admitted confirm fs session) : config.Ended confirm fs report session :=
  ⟨h.answered, fun _ hrefused => absurd hrefused (h.not_refused _)⟩

end Config

/-! ## Nothing is asked later -/

/-- A part of an export that asks nothing: what holds of the questions goes on to hold. -/
def ExportM.AsksNothing {α : Type} (part : ExportM α) : Prop :=
  ∀ asked : List Question → Prop,
    Ensures (fun session => asked session.questions) part
      (fun _ session => asked session.questions) fun _ session => asked session.questions

theorem ExportM.asksNothing_query {α : Type} (answer : FileSystem → Except Report α) :
    AsksNothing (query answer) :=
  fun _ => ensures_query (fun _ _ h _ => h) fun _ _ h _ => h

theorem ExportM.asksNothing_change {α : Type}
    (request : FileSystem → FileSystem × Except Report α) : AsksNothing (change request) :=
  fun _ => ensures_change (fun _ _ _ h _ => h) fun _ _ _ h _ => h

theorem ExportM.asksNothing_say (config : Config) (status : Status) :
    AsksNothing (say config status) :=
  fun _ => ensures_say fun _ _ h => h

theorem Project.removeExisting_asksNothing (project : Project) (path : Path) :
    AsksNothing (project.removeExisting path) := by
  intro asked
  unfold Project.removeExisting
  apply Ensures.get_bind
  intro state _
  split
  · exact .pure fun _ h => h
  · apply (asksNothing_say _ _ asked).bind
    exact fun _ => asksNothing_change _ asked

namespace Export

variable (job : Export)

theorem exportFile_asksNothing (path : Path) : AsksNothing (job.exportFile path) :=
  fun _ => exportFile_changes (fun _ _ _ hsame h => hsame ▸ h) (fun _ _ _ hsame h => hsame ▸ h)
    (fun _ h => h) fun _ _ _ _ _ h _ => h

theorem keeps_questions (asked : List Question → Prop) :
    job.Keeps (fun _ => True) (fun session => asked session.questions)
      fun _ session => asked session.questions where
  of_kept _ _ h := h
  of_status _ _ h := h
  of_missing _ _ _ _ h := h
  failed_of_status _ _ _ h := h
  visited_join _ _ _ _ := trivial
  createTarget _ _ := asksNothing_change _ asked
  exportFile path _ := job.exportFile_asksNothing path asked

theorem writeVersion_asksNothing : AsksNothing job.writeVersion := by
  unfold writeVersion
  exact asksNothing_change _

theorem exportRoots_asksNothing : AsksNothing job.exportRoots := by
  intro asked
  have hroots : Ensures (fun session => asked session.questions)
      (job.config.roots.forM job.exportRoot) _ _ :=
    (job.keeps_questions asked).exportRoots fun _ _ => trivial
  have hstatus (session : Session) (lines : List Status) (h : asked session.questions) :
      asked { session with status := lines }.questions := h
  have hexport := exportRoots_ensures hroots (job.writeVersion_asksNothing asked) hstatus
  exact hexport.mono_after fun _ _ h => h.1

end Export

/-! ## Up to the question -/

namespace Config

/-- The reasons that are left when the roots and the project are right. -/
theorem Refused.of_resolved {report : Report} (h : config.Refused confirm fs report)
    (hvalid : config.validate = .ok ())
    (hresolved : fs.resolveExisting config.baseDirectory = .ok base) :
    ({ config, base } : Project).checkDestination fs = .error report ∨
      config.Passes fs base ∧
        (fs.pathExists config.destination = true ∧ fs.isDirectory config.destination = false ∧
            report = ({ config, base } : Project).refusal .destinationNotDirectory ∨
          fs.isDirectory config.destination = true ∧ confirm config.destination = false ∧
            report = (Report.of (.declined config.destination)).within .exporting) := by
  cases h with
  | roots hroots =>
      rw [hvalid] at hroots
      cases hroots
  | project _ hproject =>
      rw [hresolved] at hproject
      cases hproject
  | destination _ hbase hcheck =>
      rw [hresolved] at hbase
      cases hbase
      exact .inl hcheck
  | occupied hpasses hexists hdirectory =>
      obtain rfl := hpasses.eq_base hresolved
      exact .inr ⟨hpasses, .inl ⟨hexists, hdirectory, rfl⟩⟩
  | declined hpasses hdirectory hdeclined =>
      obtain rfl := hpasses.eq_base hresolved
      exact .inr ⟨hpasses, .inr ⟨hdirectory, hdeclined, rfl⟩⟩

/-- A session in which nothing has happened yet, apart from lines that were said. -/
def Intact (fs : FileSystem) (session : Session) : Prop :=
  session.fileSystem = fs ∧ session.questions = []

theorem Answered.of_intact {session : Session} (h : Intact fs session)
    (hasks : ¬config.Asks fs) : config.Answered fs session :=
  ⟨fun hask => absurd hask hasks, fun _ => h.2⟩

section Checked

variable (hpasses : config.Passes fs base)

include hpasses

theorem Passes.not_unchecked {report : Report} :
    ({ config, base } : Project).checkDestination fs ≠ .error report := by
  rw [hpasses.accepted]
  exact nofun

/-- Where the destination is a directory, the answer decides. -/
theorem Passes.askConsent_admits (hdirectory : fs.isDirectory config.destination = true) :
    Ensures (Intact fs) (({ config, base } : Project).askConsent confirm)
      (fun _ => config.Admitted confirm fs) (config.Ended confirm fs) := by
  have hasked : Ensures (Intact fs)
      (modify fun session => { session with questions := session.questions ++
        [{ destination := config.destination, fileSystem := session.fileSystem }] })
      (fun _ session => session.fileSystem = fs ∧
        session.questions = [⟨config.destination, fs⟩])
      (config.Ended confirm fs) := by
    apply ensures_modify
    intro session hsession
    refine ⟨hsession.1, ?_⟩
    rw [hsession.2, hsession.1]
    rfl
  have hanswered {session : Session} (h : session.questions = [⟨config.destination, fs⟩]) :
      config.Answered fs session :=
    ⟨fun _ => h, fun hnot => absurd ⟨⟨base, hpasses⟩, hdirectory⟩ hnot⟩
  unfold Project.askConsent
  apply hasked.bind
  intro _
  dsimp only
  split
  · next hconfirm =>
      apply Ensures.pure
      intro session hsession
      refine ⟨hanswered hsession.2, fun report hrefused => ?_⟩
      rcases hrefused.of_resolved hpasses.valid hpasses.resolved with
        hcheck | ⟨-, ⟨-, hnot, -⟩ | ⟨-, hdeclined, -⟩⟩
      · exact hpasses.not_unchecked hcheck
      · simp [hdirectory] at hnot
      · simp [hconfirm] at hdeclined
  · apply Ensures.throw
    intro session hsession
    refine ⟨hanswered hsession.2, fun report hrefused => ⟨?_, hsession.1⟩⟩
    rcases hrefused.of_resolved hpasses.valid hpasses.resolved with
      hcheck | ⟨-, ⟨-, hnot, -⟩ | ⟨-, -, heq⟩⟩
    · exact absurd hcheck hpasses.not_unchecked
    · simp [hdirectory] at hnot
    · exact heq

theorem Passes.not_refused_of_missing (hmissing : fs.pathExists config.destination = false)
    (report : Report) : ¬config.Refused confirm fs report := by
  intro hrefused
  rcases hrefused.of_resolved hpasses.valid hpasses.resolved with
    hcheck | ⟨-, ⟨hexists, -⟩ | ⟨hdirectory, -⟩⟩
  · exact hpasses.not_unchecked hcheck
  · simp [hmissing] at hexists
  · simp [FileSystem.pathExists_of_isDirectory hdirectory] at hmissing

theorem Passes.ended_of_occupied (hdirectory : fs.isDirectory config.destination = false)
    {session : Session} (hsession : Intact fs session) :
    config.Ended confirm fs (({ config, base } : Project).refusal .destinationNotDirectory)
      session := by
  have hasks : ¬config.Asks fs := by
    intro hask
    simp [Asks, hdirectory] at hask
  refine ⟨.of_intact hsession hasks, fun other hrefused => ⟨?_, hsession.1⟩⟩
  rcases hrefused.of_resolved hpasses.valid hpasses.resolved with
    hcheck | ⟨-, ⟨-, -, heq⟩ | ⟨hnot, -⟩⟩
  · exact absurd hcheck hpasses.not_unchecked
  · exact heq
  · simp [hdirectory] at hnot

end Checked

/-- Before the destination has been checked nothing is asked, and nothing is changed. -/
theorem checkDestination_admits (hvalid : config.validate = .ok ())
    (hresolved : fs.resolveExisting config.baseDirectory = .ok base) :
    Ensures (Intact fs) (query ({ config, base } : Project).checkDestination)
      (fun _ session => Intact fs session ∧ config.Passes fs base)
      (config.Ended confirm fs) := by
  apply ensures_query
  · intro session _ hsession hok
    exact ⟨hsession, hvalid, hresolved, hsession.1 ▸ hok⟩
  · intro session report hsession herror
    rw [hsession.1] at herror
    have hnot : ¬config.Passes fs base := fun hpasses => hpasses.not_unchecked herror
    refine ⟨.of_intact hsession fun hask => ?_, fun other hrefused => ⟨?_, hsession.1⟩⟩
    · obtain ⟨⟨other, hpasses⟩, -⟩ := hask
      obtain rfl := hpasses.eq_base hresolved
      exact hnot hpasses
    · rcases hrefused.of_resolved hvalid hresolved with hcheck | ⟨hpasses, -⟩
      · exact Except.error.inj (hcheck.symm.trans herror)
      · exact absurd hpasses hnot

/-- An export that is not refused has asked already, if it asks. -/
theorem admitted_of_asksNothing {α : Type} {part : ExportM α} (hpart : AsksNothing part) :
    Ensures (config.Admitted confirm fs) part (fun _ => config.Admitted confirm fs)
      (config.Ended confirm fs) := by
  apply Ensures.of_start
  intro session hsession
  -- only the questions of the session are looked at
  have hanswered : Ensures (fun session => (config.Asks fs →
        session.questions = [⟨config.destination, fs⟩]) ∧
        (¬config.Asks fs → session.questions = [])) part _ _ :=
    hpart fun questions => (config.Asks fs → questions = [⟨config.destination, fs⟩]) ∧
      (¬config.Asks fs → questions = [])
  have hstart := hanswered.from_session ⟨hsession.answered.asked, hsession.answered.silent⟩
  refine hstart.imp (fun _ h => h) ?_ ?_
  · exact fun _ last h => ⟨⟨h.1, h.2⟩, hsession.not_refused⟩
  · exact fun _ last h => Admitted.ended ⟨⟨h.1, h.2⟩, hsession.not_refused⟩

/-- Making the destination ready asks, unless something is in the way, and changes nothing before
the answer. -/
theorem prepareDestination_admits (hvalid : config.validate = .ok ())
    (hresolved : fs.resolveExisting config.baseDirectory = .ok base) :
    Ensures (Intact fs) (({ config, base } : Project).prepareDestination confirm)
      (fun _ => config.Admitted confirm fs) (config.Ended confirm fs) := by
  have hresolve : Ensures (config.Admitted confirm fs) _ _ (config.Ended confirm fs) :=
    admitted_of_asksNothing (asksNothing_query fun fs =>
      (fs.resolveExisting config.destination).mapError fun report =>
        (report.within .exporting).noting .unresolvedDestination)
  unfold Project.prepareDestination
  apply (checkDestination_admits hvalid hresolved).bind
  intro _
  apply Ensures.get_bind
  intro state hstate
  obtain ⟨⟨hfs, -⟩, hpasses⟩ := hstate
  have hpassed (session : Session) (h : Intact fs session ∧ config.Passes fs base) :
      Intact fs session := h.1
  dsimp only
  rw [hfs]
  split
  · split
    · next hdirectory =>
        apply ((hpasses.askConsent_admits hdirectory).mono_before hpassed).bind
        intro _
        apply (Ensures.forM fun root _ => admitted_of_asksNothing
          (Project.removeExisting_asksNothing _ (config.destination.join root))).bind
        exact fun _ => hresolve
    · next hdirectory =>
        apply Ensures.throw_bind
        intro session hsession
        exact hpasses.ended_of_occupied (by simpa using hdirectory) hsession.1
  · next hmissing =>
      rw [Bool.not_eq_true] at hmissing
      have hdirectory : ¬config.Asks fs := by
        intro hask
        simp [FileSystem.pathExists_of_isDirectory hask.2] at hmissing
      have hadmitted (session : Session) (h : Intact fs session ∧ config.Passes fs base) :
          config.Admitted confirm fs session :=
        ⟨.of_intact h.1 hdirectory, hpasses.not_refused_of_missing hmissing⟩
      apply ((admitted_of_asksNothing (asksNothing_say _ _)).mono_before hadmitted).bind
      intro _
      apply (admitted_of_asksNothing (asksNothing_change _)).bind
      exact fun _ => hresolve

theorem validate_admits :
    Ensures (Intact fs)
      (query fun _ => config.validate.mapError fun report =>
        (report.within .exporting).noting .invalidRoots)
      (fun _ session => Intact fs session ∧ config.validate = .ok ())
      (config.Ended confirm fs) := by
  apply ensures_query
  · exact fun session _ hsession hok => ⟨hsession, mapError_eq_ok.1 hok⟩
  · intro session report hsession herror
    obtain ⟨inner, hinner, rfl⟩ := mapError_eq_error herror
    refine ⟨.of_intact hsession fun hask => ?_, fun other hrefused => ⟨?_, hsession.1⟩⟩
    · obtain ⟨⟨_, hpasses⟩, -⟩ := hask
      cases hpasses.valid.symm.trans hinner
    · cases hrefused with
      | roots hroots => rw [Except.error.inj (hroots.symm.trans hinner)]
      | project hvalid => cases hvalid.symm.trans hinner
      | destination hvalid => cases hvalid.symm.trans hinner
      | occupied hpasses => cases hpasses.valid.symm.trans hinner
      | declined hpasses => cases hpasses.valid.symm.trans hinner

theorem resolveBase_admits :
    Ensures (fun session => Intact fs session ∧ config.validate = .ok ())
      (query fun fs => (fs.resolveExisting config.baseDirectory).mapError fun report =>
        (report.within .exporting).noting .unresolvedProject)
      (fun base session => Intact fs session ∧ config.validate = .ok () ∧
        fs.resolveExisting config.baseDirectory = .ok base)
      (config.Ended confirm fs) := by
  apply ensures_query
  · intro session base hsession hok
    exact ⟨hsession.1, hsession.2, hsession.1.1 ▸ mapError_eq_ok.1 hok⟩
  · intro session report hsession herror
    obtain ⟨hintact, hvalid⟩ := hsession
    obtain ⟨inner, hinner, rfl⟩ := mapError_eq_error herror
    rw [hintact.1] at hinner
    refine ⟨.of_intact hintact fun hask => ?_, fun other hrefused => ⟨?_, hintact.1⟩⟩
    · obtain ⟨⟨_, hpasses⟩, -⟩ := hask
      cases hpasses.resolved.symm.trans hinner
    · cases hrefused with
      | roots hroots => cases hroots.symm.trans hvalid
      | project _ hproject => rw [Except.error.inj (hproject.symm.trans hinner)]
      | destination _ hresolved => cases hresolved.symm.trans hinner
      | occupied hpasses => cases hpasses.resolved.symm.trans hinner
      | declined hpasses => cases hpasses.resolved.symm.trans hinner

/-- An export that is refused has changed nothing, and one that asks does so at the beginning. -/
theorem perform_admits :
    Ensures (Intact fs) (Export.perform config confirm)
      (fun _ => config.Admitted confirm fs) (config.Ended confirm fs) := by
  unfold Export.perform
  apply validate_admits.bind
  intro _
  apply resolveBase_admits.bind
  intro base
  apply (ensures_say fun _ _ h => h).bind
  intro _
  apply Ensures.of_start
  intro session hsession
  obtain ⟨hintact, hvalid, hresolved⟩ := hsession
  refine Ensures.from_session ?_ hintact
  apply (prepareDestination_admits hvalid hresolved).bind
  exact fun target => admitted_of_asksNothing (Export.exportRoots_asksNothing _)

end Config

/-! ## Whole exports -/

/-- An export asks at most once, about its destination, and only if nothing is wrong with the
settings and the destination is a directory; at that point nothing has changed. An export that is
refused fails with the report of the reason and changes nothing. -/
theorem refused_export_changes_nothing (config : Config) (confirm : Path → Bool)
    (fs : FileSystem) :
    ((runExport config confirm fs).session.questions = [] ∧ ¬config.Asks fs ∨
      (runExport config confirm fs).session.questions = [⟨config.destination, fs⟩] ∧
        config.Asks fs) ∧
    ∀ report, config.Refused confirm fs report →
      (runExport config confirm fs).result = .error report ∧
        (runExport config confirm fs).session.fileSystem = fs := by
  have hanswered {session : Session} (h : config.Answered fs session) :
      session.questions = [] ∧ ¬config.Asks fs ∨
        session.questions = [⟨config.destination, fs⟩] ∧ config.Asks fs := by
    by_cases hasks : config.Asks fs
    · exact .inr ⟨h.asked hasks, hasks⟩
    · exact .inl ⟨h.silent hasks, hasks⟩
  have hperform : Ensures (Config.Intact fs) (Export.perform config confirm)
      (fun _ => config.Admitted confirm fs) (config.Ended confirm fs) := Config.perform_admits
  have hrun := Export.runExport_from hperform ⟨rfl, rfl⟩
  cases hresult : (runExport config confirm fs).result with
  | ok summary =>
      rw [hresult] at hrun
      exact ⟨hanswered hrun.answered, fun report h => absurd h (hrun.not_refused report)⟩
  | error report =>
      rw [hresult] at hrun
      refine ⟨hanswered hrun.answered, fun other hrefused => ?_⟩
      obtain ⟨rfl, hunchanged⟩ := hrun.refused other hrefused
      exact ⟨rfl, hunchanged⟩

/-- A declined destination stays as it is. -/
theorem refused_export_changes_nothing_oldExport :
    let outcome := runExport (Project.exportTo "out" ["src"]).config (fun _ => false)
      Project.oldExport
    (Project.exportTo "out" ["src"]).config.Refused (fun _ => false) Project.oldExport
      ((Report.of (.declined (Path.ofString "out"))).within .exporting) ∧
    outcome.result = .error ((Report.of (.declined (Path.ofString "out"))).within .exporting) ∧
    outcome.session.fileSystem = Project.oldExport ∧
    outcome.session.questions = [⟨Path.ofString "out", Project.oldExport⟩] := by
  intro outcome
  have hpasses : (Project.exportTo "out" ["src"]).config.Passes Project.oldExport
      [{ text := "p" }] :=
    ⟨eq_ok_of_toOption (by decide +kernel), eq_ok_of_toOption (by decide +kernel),
      eq_ok_of_toOption (by decide +kernel)⟩
  have hdirectory : Project.oldExport.isDirectory (Path.ofString "out") = true := by
    decide +kernel
  have hrefused : (Project.exportTo "out" ["src"]).config.Refused (fun _ => false) _ _ :=
    .declined hpasses hdirectory rfl
  obtain ⟨hquestions, hunchanged⟩ := refused_export_changes_nothing
    (Project.exportTo "out" ["src"]).config (fun _ => false) Project.oldExport
  obtain ⟨hresult, hfs⟩ := hunchanged _ hrefused
  have hasked := hquestions.resolve_left fun h => h.2 ⟨⟨_, hpasses⟩, hdirectory⟩
  exact ⟨hrefused, hresult, hfs, hasked.1⟩

end Snapshot
