import Snapshot.Proofs.FileCopies

/-!
# The steps of an export

What one step of an export does whose place in the destination is reached without links: making a
directory in the destination, copying one file, recording the version. Each of them is described
once, with the file system and the counts before and after it; longer parts of an export refer to
these descriptions only.
-/

namespace Snapshot

/-- The counts after a file of which something or nothing was left. -/
def Summary.counting (summary : Summary) (out : List UInt8) : Summary :=
  if out = [] then { summary with skipped := summary.skipped + 1 }
  else { summary with written := summary.written + 1 }

theorem FileCopy.open?_eq_ok {fs : FileSystem} {input output : Path} {name : String}
    {copy : FileCopy} (h : FileCopy.open? fs input output name = .ok copy) :
    copy.output = output ∧ copy.kept = [] ∧ ∃ unread, fs.open? input = .ok unread ∧
      copy.unread = unread.map (Text.lines 0x0A) := by
  unfold FileCopy.open? at h
  split at h
  · next unread hopen =>
      cases h
      exact ⟨rfl, rfl, unread, hopen, rfl⟩
  · cases h

namespace Export

open ExportM FileTree

variable {job : Export} {path : Path} {start : Location} {fs : FileSystem} {summary : Summary}

/-- The place in the destination that belongs to a path in the project. -/
def placeOf (job : Export) (path : Path) : Location :=
  job.target ++ path.names

/-- The bytes that record the version. -/
def versionBytes (job : Export) : List UInt8 :=
  Utf8.encode (toString job.config.version.toInt).toList

/-- A session whose file system and counts are known. -/
def At (fs : FileSystem) (summary : Summary) (session : Session) : Prop :=
  session.fileSystem = fs ∧ session.summary = summary

/-- What a step ensures can be said for each file system and counts that it starts with. -/
theorem ensures_of_at {α : Type} {before : Session → Prop} {part : ExportM α}
    {after : α → Session → Prop} {failed : Report → Session → Prop}
    (h : ∀ session, before session →
      Ensures (At session.fileSystem session.summary) part after failed) :
    Ensures before part after failed :=
  fun session hsession => h session hsession session ⟨rfl, rfl⟩

/-- What a step leaves behind that failed: at most some directories above its place. -/
def Failed (start : Location) (fs : FileSystem) (place : Location) (_ : Report)
    (session : Session) : Prop :=
  fs.tree.DirectoriesAdded session.fileSystem.tree (· <+: place) ∧
    session.fileSystem.current.IsLeftOf start

/-- A file of the project was copied: its bytes were read, and what is left of them was written,
unless that is nothing. -/
structure Copied (job : Export) (start : Location) (path : Path) (fs after : FileSystem)
    (content out : List UInt8) : Prop where
  opened : fs.open? (job.pathOf path) = .ok (.ok content)
  filtered : filterBytes job.config.version content = .ok out
  unchanged : out = [] → after = fs
  written : out ≠ [] → fs.tree.FileWritten after.tree (job.placeOf path) out
  current : after.current.IsLeftOf start

theorem Copied.linkFree {after : FileSystem} {content out : List UInt8}
    (h : job.Copied start path fs after content out) (hlinks : fs.tree.LinkFree) :
    after.tree.LinkFree := by
  by_cases hout : out = []
  · rw [h.unchanged hout]
    exact hlinks
  · exact (h.written hout).linkFree hlinks

/-- A session in which a file was opened, and none of it filtered. -/
def Opened (job : Export) (path : Path) (fs : FileSystem) (summary : Summary) (copy : FileCopy)
    (session : Session) : Prop :=
  At fs summary session ∧ copy.output = job.targetOf path ∧ copy.kept = [] ∧
    ∃ unread, fs.open? (job.pathOf path) = .ok unread ∧
      copy.unread = unread.map (Text.lines 0x0A)

/-- A session in which a file was read to its end, and what is left of it is still to be written. -/
def Filtered (job : Export) (path : Path) (fs : FileSystem) (summary : Summary) (done : FileCopy)
    (session : Session) : Prop :=
  At fs summary session ∧ done.output = job.targetOf path ∧
    ∃ content, fs.open? (job.pathOf path) = .ok (.ok content) ∧
      filterBytes job.config.version content = .ok done.content

theorem goesDown_versionFile : versionFile.GoesDown := ⟨by decide, by decide⟩

/-- Saying that a part failed changes nothing else. -/
theorem sayingFailure_ensures {α : Type} {before : Session → Prop} {part : ExportM α}
    {after : α → Session → Prop} {failed : Report → Session → Prop}
    (h : ∀ report session lines, failed report session →
      failed report { session with status := lines })
    (hpart : Ensures before part after failed) :
    Ensures before (job.sayingFailure part) after failed :=
  hpart.tryCatch fun report =>
    (ensures_say (h report)).bind fun _ => .throw fun _ hfailed => hfailed

/-- A property of the file system and of what has been asked, and of nothing else. -/
def OfFiles (property : Session → Prop) : Prop :=
  ∀ session other : Session, other.fileSystem = session.fileSystem →
    other.questions = session.questions → property session → property other

section Changes

variable {before after : Session → Prop}

theorem say_keeps {failed : Report → Session → Prop} {config : Config} {status : Status}
    (hbefore : OfFiles before) : Ensures before (say config status) (fun _ => before) failed :=
  ensures_say fun session _ h => hbefore session _ rfl rfl h

/-- Counting a file changes no file system. -/
theorem counted_keeps {failed : Report → Session → Prop} {written : Bool}
    (hafter : OfFiles after) :
    Ensures after
      (if written then
        count fun summary => { summary with written := summary.written + 1 }
      else do
        count fun summary => { summary with skipped := summary.skipped + 1 }
        say job.config (.skipped path))
      (fun _ => after) failed := by
  split
  · exact ensures_count fun session h => hafter session _ rfl rfl h
  · have hcount : Ensures after
        (count fun summary => { summary with skipped := summary.skipped + 1 }) (fun _ => after)
        failed := ensures_count fun session h => hafter session _ rfl rfl h
    exact hcount.bind fun _ => say_keeps hafter

/-- Copying a file changes the file system by writing what was kept of it, or not at all. -/
theorem exportFile_changes (hbefore : OfFiles before) (hafter : OfFiles after)
    (hstays : ∀ session, before session → after session)
    (hfinish : ∀ session fs (copy : FileCopy) outcome, copy.output = job.targetOf path →
      before session → copy.finish session.fileSystem = (fs, outcome) →
        after { session with fileSystem := fs }) :
    Ensures before (job.exportFile path) (fun _ => after) fun _ => after := by
  have hcopy : Ensures before (job.copyFile path) (fun _ => after) fun _ => after := by
    have hopen : Ensures before
        (query fun fs => FileCopy.open? fs (job.pathOf path) (job.targetOf path) path.text)
        (fun copy session => before session ∧ copy.output = job.targetOf path) fun _ => after :=
      ensures_query (fun _ _ h heq => ⟨h, (FileCopy.open?_eq_ok heq).1⟩)
        fun session _ h _ => hstays session h
    refine hopen.bind fun copy => ?_
    have hread : Ensures (fun session => before session ∧ copy.output = job.targetOf path)
        (modify fun session => { session with
          inputs := session.inputs ++ [{ path, content := copy.unread.map List.flatten }] })
        (fun _ session => before session ∧ copy.output = job.targetOf path) fun _ => after :=
      ensures_modify fun session h => ⟨hbefore session _ rfl rfl h.1, h.2⟩
    have hfilter : Ensures (fun session => before session ∧ copy.output = job.targetOf path)
        (query fun _ => copy.filtered job.config.version)
        (fun done session => before session ∧ done.output = job.targetOf path) fun _ => after :=
      ensures_query (fun _ _ h heq => ⟨h.1, (FileCopy.output_of_filtered heq).trans h.2⟩)
        fun session _ h _ => hstays session h.1
    refine hread.bind fun _ => hfilter.bind fun done => ensures_change ?_ ?_
    · exact fun session fs written h heq => hfinish session fs done _ h.2 h.1 heq
    · exact fun session fs report h heq => hfinish session fs done _ h.2 h.1 heq
  exact (say_keeps hbefore).bind fun _ => (sayingFailure_ensures
    (fun _ session _ h => hafter session _ rfl rfl h)
    (hcopy.tryCatch fun _ => .throw fun _ h => h)).bind fun _ => counted_keeps hafter

end Changes

/-! ### Nothing is taken away -/

theorem createTarget_retains (fs : FileSystem) :
    Ensures (fun session => session.fileSystem.Retains fs) (job.createTarget path)
      (fun _ session => session.fileSystem.Retains fs)
      fun _ session => session.fileSystem.Retains fs := by
  have hretains {session : Session} {after : FileSystem} (h : session.fileSystem.Retains fs)
      (hafter : (session.fileSystem.createDirectories (job.targetOf path)).1 = after) :
      after.Retains fs := by
    subst hafter
    exact (FileSystem.Retains.createDirectories _ _).trans h
  exact ensures_change (fun _ _ _ h hrequest => hretains h (congrArg Prod.fst hrequest))
    fun _ _ _ h hrequest => hretains h (congrArg Prod.fst hrequest)

theorem exportFile_retains (fs : FileSystem) :
    Ensures (fun session => session.fileSystem.Retains fs) (job.exportFile path)
      (fun _ session => session.fileSystem.Retains fs)
      fun _ session => session.fileSystem.Retains fs := by
  have hfiles : OfFiles fun session => session.fileSystem.Retains fs := by
    intro session other hsame _ h
    rwa [hsame]
  exact exportFile_changes hfiles hfiles (fun _ h => h) fun _ _ _ _ _ h hfinish =>
    (FileCopy.retains_of_finish hfinish).trans h

section Steps

variable (hstraight : fs.tree.Straight [] (job.targetOf path).hops)
  (hstart : fs.current.IsLeftOf start) (htarget : job.target.IsPlain) (hpath : path.GoesDown)

include hstraight hstart htarget hpath

theorem createTarget_ensures :
    Ensures (At fs summary) (job.createTarget path)
      (fun _ session =>
        fs.tree.DirectoriesAdded session.fileSystem.tree (· <+: job.placeOf path) ∧
          session.fileSystem.tree.get? (job.placeOf path) = some .directory ∧
          session.fileSystem.current.IsLeftOf start ∧ session.summary = summary)
      (Failed start fs (job.placeOf path)) := by
  have habsolute : (job.targetOf path).isAbsolute :=
    Path.isAbsolute_ofLocation_join
  have hup : Hop.up ∉ (job.targetOf path).hops := Path.up_not_mem_ofLocation_join htarget hpath
  have hnames : (job.targetOf path).names = job.placeOf path :=
    Path.names_ofLocation_join htarget hpath
  have hplace : (job.targetOf path).placeFrom start = job.placeOf path :=
    Path.placeFrom_ofLocation_join htarget hpath
  rw [← Path.startFrom_of_isAbsolute habsolute start] at hstraight
  have hadded := FileSystem.createDirectories_added_above hstraight hstart hup
  have hcurrent := (FileSystem.createDirectories_added _ hstraight hstart).2
  rw [hplace] at hadded
  refine ensures_change ?_ ?_
  · rintro session after ⟨⟩ ⟨rfl, rfl⟩ hcreate
    cases houtcome : session.fileSystem.createDirectories (job.targetOf path) with
    | mk created outcome =>
        rw [houtcome] at hadded hcurrent hcreate
        obtain ⟨rfl, hok⟩ := Prod.mk.inj hcreate
        rw [mapError_eq_ok.1 hok] at houtcome
        have hdirectory :=
          FileSystem.createDirectories_eq_ok hstraight hstart habsolute hup houtcome
        exact ⟨hadded, hnames ▸ hdirectory, hcurrent, rfl⟩
  · rintro session after report ⟨rfl, rfl⟩ hcreate
    have hafter : after = (session.fileSystem.createDirectories (job.targetOf path)).1 :=
      congrArg Prod.fst hcreate.symm
    rw [Failed, hafter]
    exact ⟨hadded, hcurrent⟩

omit hstraight hstart htarget hpath in
theorem opened_ensures {failed : Report → Session → Prop}
    (hfailed : ∀ report session, At fs summary session → failed report session) :
    Ensures (At fs summary)
      (query fun fs => FileCopy.open? fs (job.pathOf path) (job.targetOf path) path.text)
      (job.Opened path fs summary) failed :=
  ensures_query (fun _ _ hat hcopy => ⟨hat, hat.1 ▸ FileCopy.open?_eq_ok hcopy⟩)
    fun _ _ hat _ => hfailed _ _ hat

omit hstraight hstart htarget hpath in
theorem filtered_ensures {failed : Report → Session → Prop} (copy : FileCopy)
    (hfailed : ∀ report session, At fs summary session → failed report session) :
    Ensures (job.Opened path fs summary copy) (query fun _ => copy.filtered job.config.version)
      (job.Filtered path fs summary) failed := by
  refine ensures_query ?_ fun _ _ h _ => hfailed _ _ h.1
  intro session done hopened hdone
  obtain ⟨hat, houtput, hkept, unread, hunread, heq⟩ := hopened
  obtain ⟨content, rfl, hfiltered, hdoneOutput⟩ := FileCopy.filtered_eq_ok hkept heq hdone
  exact ⟨hat, hdoneOutput.trans houtput, content, hunread, hfiltered⟩

theorem finish_ensures (done : FileCopy) :
    Ensures (job.Filtered path fs summary done) (change done.finish)
      (fun written session => ∃ content out,
        job.Copied start path fs session.fileSystem content out ∧ (written = true ↔ out ≠ []) ∧
          session.summary = summary)
      (Failed start fs (job.placeOf path)) := by
  have hup : Hop.up ∉ (job.targetOf path).hops := Path.up_not_mem_ofLocation_join htarget hpath
  have hplace : (job.targetOf path).placeFrom start = job.placeOf path :=
    Path.placeFrom_ofLocation_join htarget hpath
  have habsolute : (job.targetOf path).isAbsolute :=
    Path.isAbsolute_ofLocation_join
  rw [← Path.startFrom_of_isAbsolute habsolute start] at hstraight
  refine ensures_change ?_ ?_
  · rintro session after written ⟨⟨rfl, rfl⟩, houtput, content, hopened, hfiltered⟩ hfinish
    refine ⟨content, done.content, ?_⟩
    rw [← houtput] at hstraight hup hplace
    rcases FileSystem.finish_cases hstraight hstart hup hfinish with
      ⟨hempty, hfalse, rfl⟩ | ⟨hcontent, hcurrent, ⟨htrue, hwritten⟩ | ⟨⟨report, herror⟩, -⟩⟩
    · cases hfalse
      exact ⟨⟨hopened, hfiltered, fun _ => rfl, fun hne => absurd hempty hne, hstart⟩,
        by simp [hempty], rfl⟩
    · cases htrue
      refine ⟨⟨hopened, hfiltered, fun hempty => absurd hempty hcontent, fun _ => ?_, hcurrent⟩,
        by simp [hcontent], rfl⟩
      exact hplace ▸ hwritten
    · cases herror
  · rintro session after report ⟨⟨rfl, rfl⟩, houtput, -⟩ hfinish
    rw [← houtput] at hstraight hup hplace
    rcases FileSystem.finish_cases hstraight hstart hup hfinish with
      ⟨-, hfalse, -⟩ | ⟨-, hcurrent, ⟨htrue, -⟩ | ⟨-, hadded⟩⟩
    · cases hfalse
    · cases htrue
    · exact ⟨hplace ▸ hadded, hcurrent⟩

theorem copyFile_ensures :
    Ensures (At fs summary) (job.copyFile path)
      (fun written session => ∃ content out,
        job.Copied start path fs session.fileSystem content out ∧ (written = true ↔ out ≠ []) ∧
          session.summary = summary)
      (Failed start fs (job.placeOf path)) := by
  have hfailed (report : Report) (session : Session) (h : At fs summary session) :
      Failed start fs (job.placeOf path) report session :=
    ⟨h.1 ▸ .refl _, h.1 ▸ hstart⟩
  refine (opened_ensures hfailed).bind fun copy => ?_
  have hread : Ensures (job.Opened path fs summary copy)
      (modify fun session => { session with
        inputs := session.inputs ++ [{ path, content := copy.unread.map List.flatten }] })
      (fun _ => job.Opened path fs summary copy) (Failed start fs (job.placeOf path)) :=
    ensures_modify fun _ h => h
  refine hread.bind fun _ => (filtered_ensures copy hfailed).bind fun done => ?_
  exact finish_ensures hstraight hstart htarget hpath done

theorem exportFile_ensures :
    Ensures (At fs summary) (job.exportFile path)
      (fun _ session => ∃ content out, job.Copied start path fs session.fileSystem content out ∧
        session.summary = summary.counting out)
      (Failed start fs (job.placeOf path)) := by
  refine (ensures_say fun _ _ h => h).bind fun _ => ?_
  have hcopy : Ensures (At fs summary)
      (job.sayingFailure <| tryCatch (job.copyFile path) fun report =>
        throw (report.within .exporting))
      (fun written session => ∃ content out,
        job.Copied start path fs session.fileSystem content out ∧ (written = true ↔ out ≠ []) ∧
          session.summary = summary)
      (Failed start fs (job.placeOf path)) := by
    refine sayingFailure_ensures (fun _ _ _ h => h) (Ensures.tryCatch
      (copyFile_ensures hstraight hstart htarget hpath) fun report => .throw fun _ h => h)
  refine hcopy.bind fun written => ?_
  cases written with
  | true =>
      rw [if_pos rfl]
      apply ensures_count
      intro session hsession
      obtain ⟨content, out, hcopied, hwritten, rfl⟩ := hsession
      exact ⟨content, out, hcopied, by simp [Summary.counting, hwritten.1 rfl]⟩
  | false =>
      rw [if_neg Bool.false_ne_true]
      have hcount : Ensures
          (fun session => ∃ content out, job.Copied start path fs session.fileSystem content out ∧
            (false = true ↔ out ≠ []) ∧ session.summary = summary)
          (count fun summary => { summary with skipped := summary.skipped + 1 })
          (fun _ session => ∃ content out,
            job.Copied start path fs session.fileSystem content out ∧
              session.summary = summary.counting out)
          (Failed start fs (job.placeOf path)) := by
        apply ensures_count
        intro session hsession
        obtain ⟨content, out, hcopied, hwritten, rfl⟩ := hsession
        have hempty : out = [] := by simpa using hwritten
        exact ⟨content, out, hcopied, by simp [Summary.counting, hempty]⟩
      exact hcount.bind fun _ => ensures_say fun _ _ h => h

end Steps

/-- Recording the version changes nothing but the record, which must not be a directory. -/
theorem writeVersion_ensures (hstraight : fs.tree.Straight [] (job.targetOf versionFile).hops)
    (hstart : fs.current.IsLeftOf start) (htarget : job.target.IsPlain) :
    Ensures (At fs summary) job.writeVersion
      (fun _ session =>
        fs.tree.get? (job.placeOf versionFile) ≠ some .directory ∧
          (∀ other, session.fileSystem.tree.get? other =
            if other = job.placeOf versionFile ∧ fs.tree.get? other ≠ some .sink then
              some (.file job.versionBytes)
            else fs.tree.get? other) ∧
          session.fileSystem.current.IsLeftOf start ∧ session.summary = summary)
      (fun _ => At fs summary) := by
  have hplace : (job.targetOf versionFile).placeFrom start = job.placeOf versionFile :=
    Path.placeFrom_ofLocation_join htarget goesDown_versionFile
  have habsolute : (job.targetOf versionFile).isAbsolute :=
    Path.isAbsolute_ofLocation_join
  rw [← Path.startFrom_of_isAbsolute habsolute start] at hstraight
  unfold writeVersion
  refine ensures_change ?_ ?_
  · rintro session after ⟨⟩ ⟨rfl, rfl⟩ hwrite
    split at hwrite
    · next written heq =>
        cases hwrite
        obtain ⟨hdirectory, hafter, hcurrent⟩ := FileSystem.write_eq_ok hstraight hstart heq
        rw [hplace] at hdirectory hafter
        exact ⟨hdirectory, hafter, hcurrent, rfl⟩
    · cases hwrite
  · rintro session after report ⟨rfl, rfl⟩ hwrite
    split at hwrite
    · cases hwrite
    · cases hwrite
      exact ⟨rfl, rfl⟩

end Export

end Snapshot
