import Snapshot.Proofs.Filtering
import Snapshot.Proofs.Imbalance
import Snapshot.Proofs.Inputs
import Snapshot.Proofs.RefusedExport

/-!
# What the report of a failed export says

The report of a failed export is about one thing: a path, a destination that was declined, or a
file. Which of them it is tells what has happened, so a caller can rely on it: the destination was
declined exactly if the question about it was answered with no, and guards are to blame exactly if
the file was being filtered. Then the file is the one that was read last, its markers do not pair
up, and the line that had been reached is not before the one that the filter names.

What a report names as its cause is the filter error in that case, and otherwise what the report is
about.
-/

namespace Snapshot

open ExportM

/-! ## Files that are refused -/

/-- The markers do not pair up, in the way that the filter names. -/
def Marker.Unbalanced (markers : List Marker) : FilterError → Prop
  | .unbalancedEndif n => OverclosedFirst 0 markers n
  | .unclosedEndif n => (∀ count, ¬Overclosed 0 (markers.take count)) ∧
      closings markers < openings markers ∧ ∃ first, LastUnmatched markers first ∧ n = first + 1

/-- The markers of the lines of a file. A line is judged by its text. -/
def Marker.ofFile (content : List UInt8) : List Marker :=
  ((Text.lines 0x0A content).map Utf8.lossyText).map ofLine

theorem LineFilter.actions_eq_error_iff {filter : LineFilter} {lines : List (List Char)}
    {error : FilterError} :
    filter.actions lines = .error error ↔ filter.check lines = .error error := by
  rw [check, emitted_eq_select]
  cases filter.actions lines <;> simp [Except.map]

theorem fileActions_eq_error_iff {version : Int64} {content : List UInt8} {error : FilterError} :
    fileActions version content = .error error ↔
      Marker.Unbalanced (Marker.ofFile content) error := by
  rw [fileActions, LineFilter.actions_eq_error_iff, LineFilter.start_eq_reading]
  cases error with
  | unbalancedEndif n =>
      rw [LineFilter.check_eq_unbalanced_iff]
      simp [Marker.Unbalanced, Marker.ofFile]
  | unclosedEndif n =>
      rw [LineFilter.check_eq_unclosed_iff]
      rfl

/-- The line that the filter names has been reached when it does so. -/
theorem Marker.Unbalanced.line_le {content : List UInt8} {error : FilterError}
    (h : Unbalanced (ofFile content) error) :
    error.line ≤ error.noticedAt (Text.lines 0x0A content).length := by
  cases error with
  | unbalancedEndif n => exact Nat.le_refl n
  | unclosedEndif n =>
      obtain ⟨-, -, first, hlast, rfl⟩ := h
      obtain ⟨guard, hguard, -⟩ := hlast.unmatched
      obtain ⟨hfirst, -⟩ := List.getElem?_eq_some_iff.1 hguard
      have hcount : (ofFile content).length = (Text.lines 0x0A content).length := by simp [ofFile]
      exact hcount ▸ hfirst

/-! ## Exports of files -/

namespace FileCopy

variable {fs : FileSystem} {input output : Path} {name : String} {copy : FileCopy}

theorem exists_of_open? (h : open? fs input output name = .ok copy) :
    ∃ unread, fs.open? input = .ok unread ∧
      copy = { name, output, unread := unread.map (Text.lines 0x0A) } := by
  unfold open? at h
  split at h
  · next unread hopen =>
      cases h
      exact ⟨unread, hopen, rfl⟩
  · cases h

/-- A file that was opened fails to be read, or its guards are refused. -/
theorem filtered_opened_fails {content : List UInt8} {version : Int64} {report : Report}
    (h : (opened output name content).filtered version = .error report) :
    ∃ error, fileActions version content = .error error ∧
      report = (Report.of (.filter error)).within
        (.file .filtering name (error.noticedAt (Text.lines 0x0A content).length)) := by
  have hfiltered : (opened output name content).filterLines (.start version)
      (Text.lines 0x0A content) = .error report := h
  cases hactions : fileActions version content with
  | error error =>
      rw [filterLines_of_actions_eq_error rfl hactions] at hfiltered
      refine ⟨error, rfl, ?_⟩
      rw [← Except.error.inj hfiltered]
      simp [opened]
  | ok actions =>
      obtain ⟨done, hdone, -⟩ := filterLines_of_actions_eq_ok (opened output name content) hactions
      rw [hdone] at hfiltered
      cases hfiltered

end FileCopy

namespace Export

variable {job : Export} {config : Config} {confirm : Path → Bool} {fs : FileSystem} {path : Path}

/-- The guards of a file are to blame, the last one that was read. -/
def BlamesGuards (job : Export) (report : Report) (session : Session) : Prop :=
  ∃ path content error, session.inputs.getLast? = some ⟨path, .ok content⟩ ∧
    session.fileSystem.open? (job.pathOf path) = .ok (.ok content) ∧
    fileActions job.config.version content = .error error ∧
    report = .ofGuards path (error.noticedAt (Text.lines 0x0A content).length) error

/-- How an export fails once its destination is ready. -/
def Fails (job : Export) (report : Report) (session : Session) : Prop :=
  report.BlamesPath ∨ report.BlamesFile ∨ job.BlamesGuards report session

/-- A file is open, and none of it has been read. -/
def JustOpened (job : Export) (path : Path) (copy : FileCopy)
    (unread : Except Fault (List UInt8)) (session : Session) : Prop :=
  session.fileSystem.open? (job.pathOf path) = .ok unread ∧
    copy = { name := path.text, output := job.targetOf path,
             unread := unread.map (Text.lines 0x0A) }

theorem copyFile_fails (path : Path) :
    FailsWith (fun report session => job.Fails (report.within .exporting) session)
      (job.copyFile path) := by
  have hfile {report : Report} {session : Session} (h : Context.OfFile report.contexts) :
      job.Fails (report.within .exporting) session :=
    .inr (.inl ⟨_, rfl, h⟩)
  have hopen : Ensures (fun _ => True)
      (query fun fs => FileCopy.open? fs (job.pathOf path) (job.targetOf path) path.text)
      (fun copy session => ∃ unread, job.JustOpened path copy unread session)
      fun report session => job.Fails (report.within .exporting) session :=
    ensures_query (fun session copy _ hcopy => FileCopy.exists_of_open? hcopy)
      fun session report _ hreport => hfile (FileCopy.ofFile_open? hreport)
  have hread (copy : FileCopy) : Ensures
      (fun session => ∃ unread, job.JustOpened path copy unread session)
      (modify fun session => { session with
        inputs := session.inputs ++ [{ path, content := copy.unread.map List.flatten }] })
      (fun _ session => ∃ unread, job.JustOpened path copy unread session ∧
        session.inputs.getLast? = some ⟨path, unread⟩)
      fun report session => job.Fails (report.within .exporting) session := by
    apply ensures_modify
    rintro session ⟨unread, hunread, rfl⟩
    refine ⟨unread, ⟨hunread, rfl⟩, ?_⟩
    rw [List.getLast?_concat]
    cases unread <;> simp [Except.map]
  have hfilter (copy : FileCopy) : Ensures
      (fun session => ∃ unread, job.JustOpened path copy unread session ∧
        session.inputs.getLast? = some ⟨path, unread⟩)
      (query fun _ => copy.filtered job.config.version) (fun _ _ => True)
      fun report session => job.Fails (report.within .exporting) session := by
    apply ensures_query
    · exact fun _ _ _ _ => trivial
    rintro session report ⟨unread, ⟨hunread, rfl⟩, hlast⟩ hreport
    cases unread with
    | error fault =>
        obtain rfl := Except.error.inj hreport
        exact hfile (FileCopy.ofFile_readFailure _ fault)
    | ok content =>
        obtain ⟨error, herror, rfl⟩ := FileCopy.filtered_opened_fails hreport
        exact .inr (.inr ⟨path, content, error, hlast, hunread, herror, rfl⟩)
  refine hopen.bind fun copy => (hread copy).bind fun _ => (hfilter copy).bind fun done => ?_
  exact FailsWith.change fun _ _ _ hreport => hfile (FileCopy.ofFile_finish hreport)

theorem exportFile_fails (path : Path) : FailsWith job.Fails (job.exportFile path) := by
  have hcopy : FailsWith job.Fails (job.sayingFailure <|
      tryCatch (job.copyFile path) fun report => throw (report.within .exporting)) :=
    sayingFailure_ensures (fun _ _ _ h => h)
      (Ensures.tryCatch (copyFile_fails path) fun _ => .throw fun _ h => h)
  refine .bind (.say _ _) fun _ => hcopy.bind fun written => ?_
  split
  · exact .count _
  · exact .bind (.count _) fun _ => .say _ _

/-- At every depth an export of directories fails in the ways in which its steps do. -/
theorem exportDirectory_fails (depth : Nat) (path : Path) :
    FailsWith job.Fails (job.exportDirectory depth path) := by
  induction depth generalizing path with
  | zero => exact .throw fun _ _ => .inl (blamesPath_creationFailure path _)
  | succ depth ih =>
      unfold exportDirectory
      refine .bind (.say _ _) fun _ => ?_
      refine ((createTarget_fails path).imp fun _ _ => .inl).bind fun _ => ?_
      refine ((scan_fails path).imp fun _ _ => .inl).bind fun listing => ?_
      exact .bind (.forM fun file _ => exportFile_fails file) fun _ => .forM fun below _ => ih below

theorem exportRoot_fails (root : Path) : FailsWith job.Fails (job.exportRoot root) := by
  unfold exportRoot
  refine .get_bind fun session => ?_
  dsimp only
  split
  · exact .bind (.say _ _) fun _ => .count _
  · split
    · exact .pure _
    · split
      · exact exportDirectory_fails _ root
      · exact exportFile_fails root

theorem exportRoots_fails : FailsWith job.Fails job.exportRoots := by
  unfold exportRoots
  refine .bind (.forM fun root _ => exportRoot_fails root) fun _ => ?_
  refine (writeVersion_fails.imp fun _ _ => .inl).bind fun _ => .get_bind fun session => ?_
  exact .bind (.say _ _) fun _ => .pure _

/-- What every file that was read is: one that the walk visits. -/
def ReadsVisited (job : Export) (session : Session) : Prop :=
  ∀ input ∈ session.inputs, job.Visits input.path

theorem Logs.readsVisited {start session : Session} (h : job.Logs path start session)
    (hpath : job.Visits path) (hstart : job.ReadsVisited start) : job.ReadsVisited session := by
  intro input hinput
  rcases h.inputs with hsame | ⟨content, -, hmore⟩
  · exact hstart input (hsame ▸ hinput)
  · rw [hmore] at hinput
    rcases List.mem_append.1 hinput with hold | hnew
    · exact hstart input hold
    · rw [List.mem_singleton.1 hnew]
      exact hpath

theorem keeps_readsVisited (job : Export) :
    job.Keeps job.Visits job.ReadsVisited fun _ => job.ReadsVisited where
  of_kept _ _ h := h
  of_status _ _ h := h
  of_missing _ _ _ _ h := h
  failed_of_status _ _ _ h := h
  visited_join _ _ hpath hname := hpath.join hname
  createTarget path hpath := by
    apply Ensures.of_start
    intro start hstart
    exact createTarget_logs.imp (fun _ h => h) (fun _ _ h => h.readsVisited hpath hstart)
      fun _ _ h => h.readsVisited hpath hstart
  exportFile path hpath := by
    apply Ensures.of_start
    intro start hstart
    exact exportFile_logs.imp (fun _ h => h) (fun _ _ h => h.readsVisited hpath hstart)
      fun _ _ h => h.readsVisited hpath hstart

theorem exportRoots_readsVisited (hdescent : ∀ root ∈ job.config.roots, root.IsDescent) :
    Ensures job.ReadsVisited job.exportRoots (fun _ => job.ReadsVisited)
      fun _ => job.ReadsVisited := by
  have hversion : Ensures job.ReadsVisited job.writeVersion (fun _ => job.ReadsVisited)
      fun _ => job.ReadsVisited := by
    unfold writeVersion
    exact ensures_change (fun _ _ _ h _ => h) fun _ _ _ h _ => h
  have hroots : Ensures job.ReadsVisited (job.config.roots.forM job.exportRoot) _ _ :=
    job.keeps_readsVisited.exportRoots (visits_root job hdescent)
  exact (exportRoots_ensures hroots hversion fun _ _ h => h).mono_after fun _ _ h => h.1

end Export

/-! ## Whole exports -/

namespace Config

/-- How an export fails. -/
inductive Fails (config : Config) (confirm : Path → Bool) (fs : FileSystem) (report : Report)
    (session : Session) : Prop
  | path : report.BlamesPath → Fails config confirm fs report session
  | declined (project : Project) : project.Declined confirm report session →
      Fails config confirm fs report session
  | file : report.BlamesFile → Fails config confirm fs report session
  | guards (job : Export) : job.config = config →
      fs.resolveExisting config.baseDirectory = .ok job.base → job.BlamesGuards report session →
      Fails config confirm fs report session

variable {config : Config} {confirm : Path → Bool} {fs : FileSystem} {report : Report}
  {session : Session}

theorem perform_fails :
    Ensures (fun session => session.fileSystem = fs) (Export.perform config confirm)
      (fun _ _ => True) (config.Fails confirm fs) := by
  apply Export.perform_checked
  · exact fun _ _ hpath _ => .path hpath
  rintro base session rfl - hbase
  have hprepare : FailsWith (config.Fails confirm session.fileSystem)
      (({ config, base } : Project).prepareDestination confirm) := by
    refine Project.prepareDestination_fails.imp fun report last h => ?_
    exact h.elim .path (.declined _)
  have hexport (target : Location) : FailsWith (config.Fails confirm session.fileSystem)
      (Export.exportRoots { config, base, target }) := by
    refine Export.exportRoots_fails.imp fun report last h => ?_
    rcases h with hpath | hfile | hguards
    · exact .path hpath
    · exact .file hfile
    · exact .guards _ rfl hbase hguards
  have hgoes := FailsWith.bind (.say config (.usingVersion config.version)) fun _ =>
    hprepare.bind hexport
  exact Ensures.mono_before hgoes fun _ _ => trivial

/-- Whatever is read lies at or below a root. -/
theorem perform_readsVisited :
    Ensures (fun session => session = { fileSystem := fs }) (Export.perform config confirm)
      (fun _ _ => True)
      fun _ session => ∀ job : Export, job.config = config → job.ReadsVisited session := by
  apply Export.perform_readies
  · intro report job _ input hinput
    cases hinput
  · intro base report session _ _ hstopped job _ input hinput
    rw [hstopped.1.inputs] at hinput
    cases hinput
  · intro base target hdescent _
    let job : Export := { config, base, target }
    have hroots : Ensures job.ReadsVisited job.exportRoots _ _ :=
      Export.exportRoots_readsVisited hdescent
    refine hroots.imp ?_ (fun _ _ _ => trivial) ?_
    · intro session hready input hinput
      rw [hready.alike.inputs] at hinput
      cases hinput
    · intro report session hvisited other hother input hinput
      obtain ⟨hdown, root, hroot, habove⟩ := hvisited input hinput
      exact ⟨hdown, root, hother ▸ hroot, habove⟩

/-- Where a question was answered with no, that is what the report says. -/
theorem Ended.eq_declined (h : config.Ended confirm fs report session)
    (hno : ∃ question ∈ session.questions, confirm question.destination = false) :
    report = (Report.of (.declined config.destination)).within .exporting := by
  obtain ⟨question, hmem, hdeclined⟩ := hno
  by_cases hasks : config.Asks fs
  · rw [h.answered.asked hasks] at hmem
    obtain rfl := List.mem_singleton.1 hmem
    obtain ⟨⟨base, hpasses⟩, hdirectory⟩ := hasks
    exact (h.refused _ (.declined hpasses hdirectory hdeclined)).1.symm
  · rw [h.answered.silent hasks] at hmem
    cases hmem

end Config

/-- A path, a destination that was declined or a file: what a failed export is about. -/
def Context.isSubject : Context → Bool
  | .path _ | .declined _ | .file .. => true
  | _ => false

/-- The report has a cause: the error of the filter if guards are to blame, and otherwise the path,
the destination or the file that it is about. -/
def Report.NamesCause (report : Report) : Prop :=
  ∃ cause, report.cause? = some cause ∧
    ((∃ error, cause = .filter error) ∨ cause.isSubject = true ∧ ¬report.TellsOfGuards)

/-- At most the fault that was met stands below what a report is about, unless guards are to blame.
-/
theorem Report.namesCause_of_contexts {report : Report} {subject : Context} {below : List Context}
    (hcontexts : report.contexts = .exporting :: subject :: below)
    (hsubject : subject.isSubject = true)
    (hbelow : below = [] ∨ ∃ fault, below = [.system fault]) : report.NamesCause := by
  have hsystem (lower : Context) (hmem : lower ∈ below) : ∃ fault, lower = .system fault := by
    rcases hbelow with rfl | ⟨fault, rfl⟩
    · cases hmem
    · exact ⟨fault, List.mem_singleton.1 hmem⟩
  refine ⟨subject, cause?_eq_of_contexts [.exporting] hcontexts ?_ ?_, .inr ⟨hsubject, ?_⟩⟩
  · cases subject with
    | system fault => cases hsubject
    | _ => rfl
  · intro lower hmem
    obtain ⟨fault, rfl⟩ := hsystem lower hmem
    rfl
  · rintro ⟨error, herror⟩
    rw [← mem_contexts_iff, hcontexts, List.mem_cons, List.mem_cons] at herror
    rcases herror with heq | rfl | hmem
    · cases heq
    · cases hsubject
    · obtain ⟨fault, heq⟩ := hsystem _ hmem
      cases heq

/-- What a caller can take from the report of a failed export. -/
structure Classified (config : Config) (confirm : Path → Bool) (fs : FileSystem) (report : Report)
    (session : Session) : Prop where
  exporting : report.contexts.count .exporting = 1
  subject : report.contexts.countP Context.isSubject = 1
  declined_iff : (∃ destination, .declined destination ∈ report.contexts) ↔
    ∃ question ∈ session.questions, confirm question.destination = false
  filter_iff : (∃ error, .filter error ∈ report.contexts) ↔
    ∃ name line, .file .filtering name line ∈ report.contexts
  guards : ∀ error name line, .filter error ∈ report.contexts →
    .file .filtering name line ∈ report.contexts →
      (∃ (job : Export) (path : Path) (content : List UInt8), job.config = config ∧
        fs.resolveExisting config.baseDirectory = .ok job.base ∧ job.Visits path ∧
        name = path.text ∧ session.inputs.getLast? = some ⟨path, .ok content⟩ ∧
        session.fileSystem.open? (job.pathOf path) = .ok (.ok content) ∧
        Marker.Unbalanced (Marker.ofFile content) error) ∧
      error.line ≤ line ∧ ∀ n, error = .unbalancedEndif n → line = n

namespace Config

variable {config : Config} {confirm : Path → Bool} {fs : FileSystem} {report : Report}
  {session : Session}

theorem Ended.not_declined (h : config.Ended confirm fs report session)
    (hnone : .declined config.destination ∉ report.contexts) :
    ¬∃ question ∈ session.questions, confirm question.destination = false := by
  intro hno
  rw [h.eq_declined hno] at hnone
  simp at hnone

/-- Where the system has refused something, or a path is not acceptable, nothing but that is in the
report. -/
theorem Ended.classified (h : config.Ended confirm fs report session) {subject : Context}
    {below : List Context} (hcontexts : report.contexts = .exporting :: subject :: below)
    (hsubject : subject.isSubject = true)
    (hdeclined : ∀ destination, subject ≠ .declined destination)
    (hfiltering : ∀ name line, subject ≠ .file .filtering name line)
    (hbelow : below = [] ∨ ∃ fault, below = [.system fault]) :
    Classified config confirm fs report session := by
  have hshown {context : Context} (hmem : context ∈ report.contexts) :
      context = .exporting ∨ context = subject ∨ ∃ fault, context = .system fault := by
    rw [hcontexts] at hmem
    rcases hbelow with rfl | ⟨fault, rfl⟩
    · rw [List.mem_cons, List.mem_singleton] at hmem
      exact hmem.imp_right .inl
    · rw [List.mem_cons, List.mem_cons, List.mem_singleton] at hmem
      exact hmem.imp_right fun h => h.imp_right fun h => ⟨fault, h⟩
  have hnotDeclined (destination : Path) : .declined destination ∉ report.contexts := by
    intro hmem
    obtain heq | heq | ⟨fault, heq⟩ := hshown hmem
    · cases heq
    · exact hdeclined destination heq.symm
    · cases heq
  have hnotFilter (error : FilterError) : .filter error ∉ report.contexts := by
    intro hmem
    obtain heq | rfl | ⟨fault, heq⟩ := hshown hmem
    · cases heq
    · cases hsubject
    · cases heq
  have hnotFiltering (name : String) (line : Nat) :
      .file .filtering name line ∉ report.contexts := by
    intro hmem
    obtain heq | heq | ⟨fault, heq⟩ := hshown hmem
    · cases heq
    · exact hfiltering name line heq.symm
    · cases heq
  have hone : subject ≠ .exporting := by
    rintro rfl
    cases hsubject
  refine ⟨?_, ?_, ?_, ?_, fun error _ _ herror => absurd herror (hnotFilter error)⟩
  · rcases hbelow with rfl | ⟨fault, rfl⟩ <;> simp [hcontexts, hone]
  · rw [hcontexts, List.countP_cons_of_neg (by simp [Context.isSubject]),
      List.countP_cons_of_pos hsubject]
    rcases hbelow with rfl | ⟨fault, rfl⟩ <;> rfl
  · exact iff_of_false (fun ⟨destination, hmem⟩ => hnotDeclined destination hmem)
      (h.not_declined (hnotDeclined _))
  · exact iff_of_false (fun ⟨error, hmem⟩ => hnotFilter error hmem)
      fun ⟨name, line, hmem⟩ => hnotFiltering name line hmem

theorem Fails.classified (h : config.Fails confirm fs report session)
    (hended : config.Ended confirm fs report session)
    (hvisited : ∀ job : Export, job.config = config → job.ReadsVisited session) :
    Classified config confirm fs report session := by
  cases h with
  | path hpath =>
      obtain ⟨below, hcontexts, path, rfl | ⟨fault, rfl⟩⟩ := hpath
      · exact hended.classified hcontexts rfl (by simp) (by simp) (.inl rfl)
      · exact hended.classified hcontexts rfl (by simp) (by simp) (.inr ⟨fault, rfl⟩)
  | file hfile =>
      obtain ⟨below, hcontexts, stage, name, line, fault, hstage, rfl⟩ := hfile
      exact hended.classified hcontexts rfl (by simp) (by simp [hstage]) (.inr ⟨fault, rfl⟩)
  | declined project hdeclined =>
      obtain ⟨rfl, hno⟩ := hdeclined
      refine ⟨by simp, rfl, ?_, by simp, by simp⟩
      exact iff_of_true ⟨project.config.destination, by simp⟩ hno
  | guards job hconfig hbase hguards =>
      obtain ⟨path, content, error, hlast, hopen, herror, rfl⟩ := hguards
      have hunbalanced := fileActions_eq_error_iff.1 herror
      have hread : ⟨path, .ok content⟩ ∈ session.inputs := List.mem_of_getLast? hlast
      refine ⟨by simp [Report.ofGuards], rfl, ?_, by simp [Report.ofGuards], ?_⟩
      · exact iff_of_false (by simp [Report.ofGuards])
          (hended.not_declined (by simp [Report.ofGuards]))
      · intro other name line hother hfile
        obtain rfl : other = error := by simpa [Report.ofGuards] using hother
        obtain ⟨rfl, rfl⟩ : name = path.text ∧ line = _ := by simpa [Report.ofGuards] using hfile
        refine ⟨⟨job, path, content, hconfig, hbase, hvisited job hconfig _ hread, rfl, hlast,
          hopen, hunbalanced⟩, hunbalanced.line_le, ?_⟩
        rintro n rfl
        rfl

theorem Fails.namesCause (h : config.Fails confirm fs report session) : report.NamesCause := by
  cases h with
  | path hpath =>
      obtain ⟨below, hcontexts, path, rfl | ⟨fault, rfl⟩⟩ := hpath
      · exact Report.namesCause_of_contexts hcontexts rfl (.inl rfl)
      · exact Report.namesCause_of_contexts hcontexts rfl (.inr ⟨fault, rfl⟩)
  | file hfile =>
      obtain ⟨below, hcontexts, stage, name, line, fault, -, rfl⟩ := hfile
      exact Report.namesCause_of_contexts hcontexts rfl (.inr ⟨fault, rfl⟩)
  | declined project hdeclined =>
      obtain ⟨rfl, -⟩ := hdeclined
      exact Report.namesCause_of_contexts rfl rfl (.inl rfl)
  | guards job _ _ hguards =>
      obtain ⟨path, content, error, -, -, -, rfl⟩ := hguards
      exact ⟨.filter error, rfl, .inl ⟨error, rfl⟩⟩

end Config

/-- The report of an export that fails is about the export once, and about one path, one declined
destination or one file. It says that the destination was declined exactly if the question about it
was answered with no, and names a filter error exactly if a file was being filtered. That file is
one that the walk visits, the last one that was read; its markers do not pair up, and the line that
had been reached is the one that the filter names, or a later one if a guard is left open. -/
theorem failure_classified {config : Config} {confirm : Path → Bool} {fs : FileSystem}
    {report : Report} (herror : (runExport config confirm fs).result = .error report) :
    Classified config confirm fs report (runExport config confirm fs).session := by
  have hperform : Ensures (fun session => session.fileSystem = fs)
      (Export.perform config confirm) _ (config.Fails confirm fs) := Config.perform_fails
  have hanswers : Ensures (Config.Intact fs) (Export.perform config confirm) _
      (config.Ended confirm fs) := Config.perform_admits
  have hreads : Ensures (fun session => session = { fileSystem := fs })
      (Export.perform config confirm) _ _ := Config.perform_readsVisited
  have hfails := Export.runExport_from hperform rfl
  have hended := Export.runExport_from hanswers ⟨rfl, rfl⟩
  have hvisited := Export.runExport_from hreads rfl
  rw [herror] at hfails hended hvisited
  exact hfails.classified hended hvisited

/-- A project with a file that opens a guard and leaves it open. -/
def unclosedProject : FileSystem :=
  .ofTree
    { entries :=
        [(.ofString "p/src/a.c", .file (Utf8.encode "#if VERSION>1\nx\n".toList)),
          (.ofString "p/src", .directory), (.ofString "p", .directory)]
      wellFormed := ⟨by decide +kernel, by decide +kernel, by decide +kernel, by decide +kernel⟩ }
    []

/-- The guard is opened in the first line, and missed after the second one. -/
theorem failure_classified_unclosedProject :
    let outcome := runExport Export.besideProject (fun _ => false) unclosedProject
    let report := Report.ofGuards (Path.ofString "src/a.c") 2 (.unclosedEndif 1)
    outcome.result = .error report ∧
      Classified Export.besideProject (fun _ => false) unclosedProject report outcome.session := by
  intro outcome report
  have herror : outcome.result = .error report := by decide +kernel
  exact ⟨herror, failure_classified herror⟩

theorem failure_namesCause {config : Config} {confirm : Path → Bool} {fs : FileSystem}
    {report : Report} (herror : (runExport config confirm fs).result = .error report) :
    report.NamesCause := by
  have hperform : Ensures (fun session => session.fileSystem = fs)
      (Export.perform config confirm) _ (config.Fails confirm fs) := Config.perform_fails
  have hfails := Export.runExport_from hperform rfl
  rw [herror] at hfails
  exact hfails.namesCause

end Snapshot
