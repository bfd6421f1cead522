import Snapshot.Proofs.Failures

/-!
# Which failures are about guards

A report tells of guards only if some file cannot be filtered. Every other failure comes from the
settings or from a request that the system refuses, wherever in the export it happens. So if a
report does tell of guards, copying a file has failed, and has left the file system as it was.
-/

namespace Snapshot

open ExportM

namespace Report

/-- Whether a report tells of the guards of a file. -/
def TellsOfGuards (report : Report) : Prop :=
  ∃ error, .context (.filter error) ∈ report.frames

/-- The report of an export that a file stops whose guards are not balanced. -/
def ofGuards (path : Path) (line : Nat) (error : FilterError) : Report :=
  ((of (.filter error)).within (.file .filtering path.text line)).within .exporting

variable {report : Report} {context : Context}

@[simp] theorem tellsOfGuards_of :
    (of context).TellsOfGuards ↔ ∃ error, context = .filter error := by
  simp [TellsOfGuards, of, eq_comm]

@[simp] theorem tellsOfGuards_within :
    (report.within context).TellsOfGuards ↔
      (∃ error, context = .filter error) ∨ report.TellsOfGuards := by
  simp [TellsOfGuards, within, eq_comm, exists_or]

theorem tellsOfGuards_iff :
    report.TellsOfGuards ↔ ∃ error, .filter error ∈ report.contexts := by
  simp [TellsOfGuards, mem_contexts_iff]

theorem not_tellsOfGuards_of_ofFile (h : Context.OfFile report.contexts) :
    ¬report.TellsOfGuards := by
  rw [tellsOfGuards_iff]
  obtain ⟨stage, name, line, fault, -, h⟩ := h
  simp [h]

theorem BlamesPath.not_tellsOfGuards (h : report.BlamesPath) : ¬report.TellsOfGuards := by
  rw [tellsOfGuards_iff]
  obtain ⟨below, h, path, rfl | ⟨fault, rfl⟩⟩ := h <;> simp [h]

end Report

open Report

/-! ## Parts of an export -/

/-- A part of an export that does not fail because of guards. -/
def ExportM.IgnoresGuards {α : Type} (part : ExportM α) : Prop :=
  Ensures (fun _ => True) part (fun _ _ => True) fun report _ => ¬report.TellsOfGuards

namespace ExportM.IgnoresGuards

variable {α : Type} {part : ExportM α}

theorem of_blamesPath (h : FailsWith (fun report _ => report.BlamesPath) part) :
    IgnoresGuards part :=
  h.imp fun _ _ => BlamesPath.not_tellsOfGuards

/-- Where such a part fails, only reports that do not tell of guards need be looked at. -/
theorem ensures {before : Session → Prop} {after : α → Session → Prop}
    {failed failed' : Report → Session → Prop} (h : IgnoresGuards part)
    (hpart : Ensures before part after failed)
    (hfailed : ∀ report session, ¬report.TellsOfGuards → failed report session →
      failed' report session) :
    Ensures before part after failed' :=
  (hpart.and (Ensures.mono_before h fun _ _ => trivial)).imp (fun _ h => h) (fun _ _ h => h.1)
    fun report session h => hfailed report session h.2 h.1

end ExportM.IgnoresGuards

/-- Making a destination ready does not fail because of guards. -/
theorem Project.ignoresGuards_prepareDestination {project : Project} {confirm : Path → Bool} :
    IgnoresGuards (project.prepareDestination confirm) := by
  refine prepareDestination_fails.imp fun report session h => ?_
  rcases h with hpath | ⟨rfl, -⟩
  · exact hpath.not_tellsOfGuards
  · simp

namespace FileCopy

variable {copy : FileCopy} {version : Int64} {report : Report}

/-- Reading lines fails only because of guards, and then their filter does. -/
theorem filterLines_eq_error {filter : LineFilter} {lines : List (List UInt8)}
    (h : copy.filterLines filter lines = .error report) :
    ∃ error line, filter.emittedLines lines = .error error ∧
      report = (Report.of (.filter error)).within (.file .filtering copy.name line) := by
  induction lines generalizing copy filter with
  | nil =>
      unfold filterLines at h
      split at h
      · cases h
      · next error hfinish =>
          cases h
          refine ⟨error, copy.line, ?_, rfl⟩
          rw [LineFilter.emittedLines, hfinish]
          rfl
  | cons line rest ih =>
      unfold filterLines at h
      dsimp only at h
      split at h
      · next next error hfeed =>
          -- this line is refused
          cases h
          exact ⟨error, copy.line + 1, by rw [LineFilter.emittedLines, hfeed], rfl⟩
      · next next hfeed =>
          -- a later one is, after this one has been kept
          obtain ⟨error, count, herror, hreport⟩ := ih h
          refine ⟨error, count, ?_, hreport⟩
          rw [LineFilter.emittedLines, hfeed]
          dsimp only
          rw [herror]
          rfl
      · next next action hne hfeed =>
          obtain ⟨error, count, herror, hreport⟩ := ih h
          refine ⟨error, count, ?_, hreport⟩
          cases action with
          | emit => exact absurd rfl hne
          | drop => simp [LineFilter.emittedLines, hfeed, herror]
          | marker => simp [LineFilter.emittedLines, hfeed, herror]

theorem filtered_eq_error {unread : Except Fault (List UInt8)}
    (hunread : copy.unread = unread.map (Text.lines 0x0A))
    (h : copy.filtered version = .error report) (htells : report.TellsOfGuards) :
    ∃ content error line, unread = .ok content ∧ filterBytes version content = .error error ∧
      report = (Report.of (.filter error)).within (.file .filtering copy.name line) := by
  unfold filtered at h
  cases unread with
  | error fault =>
      -- that the file could not be read is reported without guards
      rw [hunread] at h
      obtain rfl : copy.readFailure fault = report := Except.error.inj h
      exact absurd htells (not_tellsOfGuards_of_ofFile (copy.ofFile_readFailure fault))
  | ok content =>
      rw [hunread] at h
      obtain ⟨error, line, herror, hreport⟩ := filterLines_eq_error h
      refine ⟨content, error, line, rfl, ?_, hreport⟩
      rw [filterBytes, herror]
      rfl

theorem name_of_open? {fs : FileSystem} {input output : Path} {name : String}
    (h : open? fs input output name = .ok copy) : copy.name = name := by
  unfold open? at h
  split at h
  · cases h
    rfl
  · cases h

end FileCopy

namespace Export

variable {job : Export} {path : Path} {fs : FileSystem} {summary : Summary}

/-- A file of which the guards are not balanced, as it is read and reported. -/
def Unbalanced (job : Export) (fs : FileSystem) (path : Path) (report : Report) : Prop :=
  ∃ content error line, fs.open? (job.pathOf path) = .ok (.ok content) ∧
    filterBytes job.config.version content = .error error ∧ report = .ofGuards path line error

/-- A session in which a file is open, under the name by which reports call it. -/
def Reading (job : Export) (path : Path) (fs : FileSystem) (summary : Summary) (copy : FileCopy)
    (session : Session) : Prop :=
  At fs summary session ∧ copy.name = path.text ∧
    ∃ unread, fs.open? (job.pathOf path) = .ok unread ∧
      copy.unread = unread.map (Text.lines 0x0A)

/-- An end of a part of an export that, if guards are its reason, comes from a file and has changed
nothing. -/
def Halted (job : Export) (path : Path) (fs : FileSystem) (summary : Summary) (report : Report)
    (session : Session) : Prop :=
  report.TellsOfGuards → At fs summary session ∧ job.Unbalanced fs path report

theorem copyFile_halts :
    Ensures (At fs summary) (job.copyFile path) (fun _ _ => True)
      fun report => job.Halted path fs summary (report.within .exporting) := by
  have hopen : Ensures (At fs summary)
      (query fun fs => FileCopy.open? fs (job.pathOf path) (job.targetOf path) path.text)
      (job.Reading path fs summary)
      fun report => job.Halted path fs summary (report.within .exporting) := by
    refine ensures_query (fun session copy hat hcopy => ?_) fun _ _ _ hreport htells => ?_
    · rw [hat.1] at hcopy
      exact ⟨hat, FileCopy.name_of_open? hcopy, (FileCopy.open?_eq_ok hcopy).2.2⟩
    · have hguards := not_tellsOfGuards_of_ofFile (FileCopy.ofFile_open? hreport)
      exact absurd htells (by simpa using hguards)
  have hread (copy : FileCopy) : Ensures (job.Reading path fs summary copy)
      (modify fun session => { session with
        inputs := session.inputs ++ [{ path, content := copy.unread.map List.flatten }] })
      (fun _ => job.Reading path fs summary copy)
      fun report => job.Halted path fs summary (report.within .exporting) :=
    ensures_modify fun _ h => h
  have hfilter (copy : FileCopy) : Ensures (job.Reading path fs summary copy)
      (query fun _ => copy.filtered job.config.version) (fun _ _ => True)
      fun report => job.Halted path fs summary (report.within .exporting) := by
    refine ensures_query (fun _ _ _ _ => trivial) ?_
    rintro session report ⟨hat, hname, unread, hopened, hunread⟩ hreport htells
    obtain ⟨content, error, line, rfl, herror, rfl⟩ :=
      FileCopy.filtered_eq_error hunread hreport (by simpa using htells)
    exact ⟨hat, content, error, line, hopened, herror, by rw [hname]; rfl⟩
  refine hopen.bind fun copy => (hread copy).bind fun _ => (hfilter copy).bind fun done => ?_
  refine ensures_change (fun _ _ _ _ _ => trivial) fun _ _ _ _ hreport htells => ?_
  have hguards := not_tellsOfGuards_of_ofFile (FileCopy.ofFile_finish hreport)
  exact absurd htells (by simpa using hguards)

/-- A file that stops the export because of its guards leaves the file system and the counts as they
were. -/
theorem exportFile_halts :
    Ensures (At fs summary) (job.exportFile path) (fun _ _ => True)
      (job.Halted path fs summary) := by
  have hcopy : Ensures (At fs summary)
      (job.sayingFailure <| tryCatch (job.copyFile path) fun report =>
        throw (report.within .exporting))
      (fun _ _ => True) (job.Halted path fs summary) :=
    sayingFailure_ensures (fun _ _ _ h => h)
      (copyFile_halts.tryCatch fun _ => .throw fun _ h => h)
  refine (ensures_say fun _ _ h => h).bind fun _ => hcopy.bind fun written => ?_
  split
  · exact ensures_count fun _ _ => trivial
  · exact (ensures_count fun _ _ => trivial).bind fun _ => ensures_say fun _ _ h => h

theorem ignoresGuards_createTarget : IgnoresGuards (job.createTarget path) :=
  .of_blamesPath (createTarget_fails path)

theorem ignoresGuards_scan :
    IgnoresGuards (job.sayingFailure <| query fun fs =>
      (Listing.read job.toProject job.target fs path).mapError fun report =>
        (report.within .exporting).noting .directoryNotScanned) :=
  .of_blamesPath (scan_fails path)

theorem ignoresGuards_writeVersion : IgnoresGuards job.writeVersion :=
  .of_blamesPath writeVersion_fails

end Export

end Snapshot
