import Snapshot.Proofs.Acceptance
import Snapshot.Proofs.Refusals
import Snapshot.Proofs.Removals
import Snapshot.Proofs.Resolution

/-!
# Making a destination ready

Whatever links there are, an existing destination loses only what its paths of the roots name, and
none of these paths leads anywhere afterwards; a missing one gains directories that its path leads
to. It is said here for every outcome what is left of the tree, who was asked, and that nothing else
in the session changes but the lines it has said. An export as a whole is a check of its settings,
such a preparation, and the export of the roots.
-/

namespace Snapshot

open ExportM FileTree Export

namespace Project

/-- Whether a place is at or below one that the destination's path of a root names. -/
def Names (project : Project) (fs : FileSystem) (place : Location) : Prop :=
  ∃ root ∈ project.config.roots, ∃ location entry,
    fs.find .keep (project.config.destination.join root) = .ok (location, entry) ∧
      location <+: place

/-- What removing under the names of roots leaves. -/
structure Losing (project : Project) (fs after : FileSystem) : Prop where
  old : ∀ {place entry}, after.tree.get? place = some entry → fs.tree.get? place = some entry
  keeps : ∀ {place}, after.tree.get? place = fs.tree.get? place ∨ project.Names fs place
  current : ∀ {start}, fs.current.IsLeftOf start → after.current.IsLeftOf start
  lost_le : fs.current.lost ≤ after.current.lost

/-- No path of these roots in the destination leads anywhere. A relative path of which not even the
start is left need not be considered. -/
def Unfound (project : Project) (roots : List Path) (fs : FileSystem) : Prop :=
  ∀ root ∈ roots, (project.config.destination.isAbsolute || fs.hasCurrent) = true →
    ∀ place entry,
      fs.find .keep (project.config.destination.join root) ≠ .ok (place, entry)

/-- What making a destination ready comes to in the tree. -/
inductive Readies (project : Project) (confirm : Path → Bool) (fs after : FileSystem) : Prop
  | unchanged : after = fs → Readies project confirm fs after
  | cleared {target : Location} : project.checkDestination fs = .ok () →
      fs.find .follow project.config.destination = .ok (target, .directory) →
      confirm project.config.destination = true → project.Losing fs after →
      Readies project confirm fs after
  | created : project.checkDestination fs = .ok () →
      fs.pathExists project.config.destination = false →
      after = (fs.createDirectories project.config.destination).1 →
      Readies project confirm fs after

/-- A session that has changed in nothing but its file system, its lines and its questions. -/
structure Alike (begun session : Session) : Prop where
  summary : session.summary = begun.summary
  inputs : session.inputs = begun.inputs

/-- A session whose destination is ready. -/
structure IsReady (project : Project) (confirm : Path → Bool) (begun : Session) (target : Location)
    (session : Session) : Prop where
  alike : Alike begun session
  accepted : project.checkDestination begun.fileSystem = .ok ()
  resolved : session.fileSystem.resolveExisting project.config.destination = .ok target
  way : (∃ location,
        begun.fileSystem.find .follow project.config.destination = .ok (location, .directory)) ∧
      confirm project.config.destination = true ∧
      session.questions = begun.questions ++
        [⟨project.config.destination, begun.fileSystem⟩] ∧
      project.Losing begun.fileSystem session.fileSystem ∧
      project.Unfound project.config.roots session.fileSystem ∨
    begun.fileSystem.pathExists project.config.destination = false ∧
      begun.fileSystem.createDirectories project.config.destination =
        (session.fileSystem, .ok ())

variable {project : Project} {fs middle after : FileSystem} {place : Location} {root : Path}
  {confirm : Path → Bool} {begun : Session}

namespace Losing

theorem refl (fs : FileSystem) : project.Losing fs fs :=
  ⟨id, .inl rfl, id, Nat.le_refl _⟩

/-- What a path leads to after a loss, it led to before. -/
theorem find (h : project.Losing fs after) {ending : Ending} {path : Path} {location : Location}
    {entry : Entry} (hfind : after.find ending path = .ok (location, entry)) :
    fs.find ending path = .ok (location, entry) :=
  have hstart := fs.current.isLeftOf_append_replicate
  FileSystem.find_mono (fun _ _ => h.old) (h.current hstart) hstart h.lost_le hfind

theorem trans (hfirst : project.Losing fs middle) (hsecond : project.Losing middle after) :
    project.Losing fs after where
  old hentry := hfirst.old (hsecond.old hentry)
  keeps := by
    intro place
    rcases hsecond.keeps with hsame | ⟨root, hroot, location, entry, hfind, hplace⟩
    · rw [hsame]
      exact hfirst.keeps
    · exact .inr ⟨root, hroot, location, entry, hfirst.find hfind, hplace⟩
  current hstart := hsecond.current (hfirst.current hstart)
  lost_le := Nat.le_trans hfirst.lost_le hsecond.lost_le

theorem removeAll (fs : FileSystem) (hroot : root ∈ project.config.roots) :
    project.Losing fs (fs.removeAll (project.config.destination.join root)).1 := by
  cases hfind : fs.find .keep (project.config.destination.join root) with
  | error fault =>
      unfold FileSystem.removeAll
      rw [hfind]
      exact .refl fs
  | ok found =>
      obtain ⟨location, entry⟩ := found
      have hremoved {start : Location} (hstart : fs.current.IsLeftOf start) :=
        FileSystem.removeAll_removed hstart hfind
      have hstart := fs.current.isLeftOf_append_replicate
      refine ⟨(hremoved hstart).below.old, ?_, fun hstart => (hremoved hstart).current,
        (hremoved hstart).lost_le⟩
      intro place
      by_cases hplace : location <+: place
      · exact .inr ⟨root, hroot, location, entry, hfind, hplace⟩
      · exact .inl ((hremoved hstart).below.keeps hplace)

end Losing

theorem Unfound.losing {front : List Path} (h : project.Unfound front middle)
    (hlosing : project.Losing middle after) : project.Unfound front after := by
  intro root hroot hcurrent place entry hfind
  refine h root hroot ?_ place entry (hlosing.find hfind)
  have hlost := hlosing.lost_le
  simp only [Bool.or_eq_true, FileSystem.hasCurrent, decide_eq_true_eq] at hcurrent ⊢
  exact hcurrent.imp_right fun hzero => by omega

/-! ## The parts of making ready -/

/-- A session in which the paths of some roots have been removed from the destination, with consent.
-/
structure Clearing (project : Project) (begun : Session) (front : List Path) (session : Session) :
    Prop where
  alike : Alike begun session
  asked : session.questions =
    begun.questions ++ [⟨project.config.destination, begun.fileSystem⟩]
  losing : project.Losing begun.fileSystem session.fileSystem
  unfound : project.Unfound front session.fileSystem

/-- What is known of a session in which making the destination ready has failed. -/
def Stopped (project : Project) (confirm : Path → Bool) (begun : Session) (_ : Report)
    (session : Session) : Prop :=
  Alike begun session ∧ project.Readies confirm begun.fileSystem session.fileSystem

theorem alike_refl (session : Session) : Alike session session :=
  ⟨rfl, rfl⟩

theorem stopped_of_eq (report : Report) {session : Session}
    (h : Alike begun session ∧ session.fileSystem = begun.fileSystem) :
    project.Stopped confirm begun report session :=
  ⟨h.1, .unchanged h.2⟩

theorem leads_of_checkDestination (h : project.checkDestination fs = .ok ()) :
    (project.config.destination.isAbsolute || fs.hasCurrent) = true := by
  unfold checkDestination at h
  split at h
  · cases h
  · next resolved hresolved => exact FileSystem.leads_of_resolveLenient hresolved

section Existing

variable {target : Location} (haccepted : project.checkDestination begun.fileSystem = .ok ())
  (hexists : begun.fileSystem.find .follow project.config.destination = .ok (target, .directory))

include haccepted hexists

theorem removeExisting_clears {front : List Path} (hroot : root ∈ project.config.roots)
    (hdescent : root.IsDescent) (hconfirm : confirm project.config.destination = true) :
    Ensures (project.Clearing begun front)
      (project.removeExisting (project.config.destination.join root))
      (fun _ => project.Clearing begun (front ++ [root]))
      (project.Stopped confirm begun) := by
  have hnames : (project.config.destination.join root).names ≠ [] := by
    rw [Path.names_join hdescent.goesDown.1.relative]
    exact List.append_ne_nil_of_right_ne_nil _ hdescent.goesDown.2
  have hfront {session last : Session} (h : project.Clearing begun front session)
      (hlosing : project.Losing session.fileSystem last.fileSystem)
      (halike : Alike session last) (hasked : last.questions = session.questions)
      (hlast : project.Unfound [root] last.fileSystem) :
      project.Clearing begun (front ++ [root]) last := by
    refine ⟨⟨halike.1.trans h.alike.1, halike.2.trans h.alike.2⟩, hasked.trans h.asked,
      h.losing.trans hlosing, ?_⟩
    intro other hother
    rcases List.mem_append.1 hother with hother | hother
    · exact h.unfound.losing hlosing other hother
    · exact hlast other hother
  apply Ensures.of_start
  intro session hsession
  unfold removeExisting
  refine Ensures.get_bind fun state hstate => ?_
  rw [hstate]
  split
  · next fault hfind =>
      -- nothing is found, so nothing is removed
      refine .pure fun last hlast => ?_
      rw [hlast]
      apply hfront hsession (.refl _) (alike_refl _) rfl
      intro other hother _ place entry hfound
      rw [List.mem_singleton.1 hother] at hfound
      rw [FileSystem.entryAt, FileSystem.find_eq_ok_iff.1 hfound] at hfind
      cases hfind
  · refine ensures_say_eq.bind fun _ => ensures_change ?_ ?_
    · intro last fs done hlast hchange
      obtain ⟨lines, rfl⟩ := hlast
      have hlosing := Losing.removeAll session.fileSystem hroot
      cases hremove : session.fileSystem.removeAll (project.config.destination.join root) with
      | mk left outcome =>
          rw [hremove] at hchange hlosing
          obtain ⟨rfl, hok⟩ := Prod.mk.inj hchange
          rw [mapError_eq_ok.1 hok] at hremove
          refine hfront hsession hlosing ⟨rfl, rfl⟩ rfl ?_
          intro other hother hcurrent
          rw [List.mem_singleton.1 hother]
          apply FileSystem.find_ne_ok_of_removeAll hnames hremove
          rw [(Path.body_join _ hdescent.goesDown.1.relative).1]
          exact hcurrent
    · intro last fs report hlast hchange
      obtain ⟨lines, rfl⟩ := hlast
      have hlosing := Losing.removeAll session.fileSystem hroot
      obtain rfl := (Prod.mk.inj hchange).1
      exact ⟨⟨hsession.alike.1, hsession.alike.2⟩,
        .cleared haccepted hexists hconfirm (hsession.losing.trans hlosing)⟩

omit haccepted hexists in
/-- The existing destination is asked about once. -/
theorem askConsent_clears :
    Ensures (fun session => session = begun) (project.askConsent confirm)
      (fun _ session => confirm project.config.destination = true ∧
        project.Clearing begun [] session)
      (project.Stopped confirm begun) := by
  have hnote : Ensures (fun session => session = begun) (modify fun session =>
      { session with
        questions := session.questions ++ [⟨project.config.destination, session.fileSystem⟩] })
      (fun _ session => project.Clearing begun [] session ∧
        session.fileSystem = begun.fileSystem)
      (project.Stopped confirm begun) := by
    apply ensures_modify
    intro session hsession
    rw [hsession]
    exact ⟨⟨⟨rfl, rfl⟩, rfl, .refl _, by simp [Unfound]⟩, rfl⟩
  unfold askConsent
  refine hnote.bind fun _ => ?_
  split
  · next hconfirm => exact .pure fun _ h => ⟨hconfirm, h.1⟩
  · exact .throw fun session h => stopped_of_eq _ ⟨h.1.alike, h.2⟩

theorem removeRoots_clears (hdescent : ∀ root ∈ project.config.roots, root.IsDescent) :
    Ensures (fun session => confirm project.config.destination = true ∧
        project.Clearing begun [] session)
      (project.config.roots.forM fun root =>
        project.removeExisting (project.config.destination.join root))
      (fun _ session => confirm project.config.destination = true ∧
        project.Clearing begun project.config.roots session)
      (project.Stopped confirm begun) := by
  apply Ensures.of_start
  intro session hsession
  obtain ⟨hconfirm, hclearing⟩ := hsession
  have hloop : Ensures (project.Clearing begun [])
      (project.config.roots.forM fun root =>
        project.removeExisting (project.config.destination.join root))
      (fun _ => project.Clearing begun project.config.roots) (project.Stopped confirm begun) :=
    Ensures.forM_prefix _ fun front root rest heq => by
      have hroot : root ∈ project.config.roots := by simp [heq]
      exact removeExisting_clears haccepted hexists hroot (hdescent root hroot) hconfirm
  exact (hloop.mono_after fun _ _ h => ⟨hconfirm, h⟩).from_session hclearing

end Existing

theorem createMissing_ensures
    (haccepted : project.checkDestination begun.fileSystem = .ok ())
    (hmissing : begun.fileSystem.pathExists project.config.destination = false) :
    Ensures (fun session => ∃ lines, session = { begun with status := lines })
      (change fun fs =>
        let (fs, outcome) := fs.createDirectories project.config.destination
        (fs, outcome.mapError fun fault =>
          (((Report.ofFault fault).within (.path project.config.destination)).noting
            .destinationNotCreated).within .exporting))
      (fun _ session => Alike begun session ∧
        begun.fileSystem.createDirectories project.config.destination =
          (session.fileSystem, .ok ()))
      (project.Stopped confirm begun) := by
  refine ensures_change ?_ ?_
  · intro session fs done hsession hchange
    obtain ⟨lines, rfl⟩ := hsession
    cases hcreate : begun.fileSystem.createDirectories project.config.destination with
    | mk created outcome =>
        rw [hcreate] at hchange
        obtain ⟨rfl, hok⟩ := Prod.mk.inj hchange
        rw [mapError_eq_ok.1 hok]
        exact ⟨⟨rfl, rfl⟩, rfl⟩
  · intro session fs report hsession hchange
    obtain ⟨lines, rfl⟩ := hsession
    obtain rfl := (Prod.mk.inj hchange).1
    exact ⟨⟨rfl, rfl⟩, .created haccepted hmissing rfl⟩

theorem IsReady.readies {target : Location} {session : Session}
    (h : project.IsReady confirm begun target session) :
    project.Readies confirm begun.fileSystem session.fileSystem := by
  rcases h.way with ⟨⟨location, hexists⟩, hconfirm, -, hlosing, -⟩ | ⟨hmissing, hcreate⟩
  · exact .cleared h.accepted hexists hconfirm hlosing
  · exact .created h.accepted hmissing (by rw [hcreate])

theorem IsReady.leads {target : Location} {session : Session}
    (h : project.IsReady confirm begun target session) :
    (project.config.destination.isAbsolute || begun.fileSystem.hasCurrent) = true :=
  leads_of_checkDestination h.accepted

/-- What is left of the current directory is left of the one that it was at the beginning. -/
theorem IsReady.current {target start : Location} {session : Session}
    (h : project.IsReady confirm begun target session)
    (hstart : begun.fileSystem.current.IsLeftOf start) :
    session.fileSystem.current.IsLeftOf start := by
  rcases h.way with ⟨-, -, -, hlosing, -⟩ | ⟨-, hcreate⟩
  · exact hlosing.current hstart
  · obtain ⟨-, hcurrent⟩ :=
      FileSystem.createDirectories_leads begun.fileSystem project.config.destination
    rw [hcreate] at hcurrent
    rwa [hcurrent]

/-- A destination that is ready is a directory. -/
theorem IsReady.directory {target : Location} {session : Session}
    (h : project.IsReady confirm begun target session) :
    session.fileSystem.find .follow project.config.destination = .ok (target, .directory) := by
  obtain ⟨hleads, entry, hfind⟩ := FileSystem.find_of_resolveExisting h.resolved
  rcases h.way with ⟨⟨place, hplace⟩, -, -, hlosing, -⟩ | ⟨-, hcreate⟩
  · have hbefore := hlosing.find hfind
    obtain ⟨rfl, rfl⟩ : place = target ∧ Entry.directory = entry := by simpa [hplace] using hbefore
    exact hfind
  · have hnonempty := (FileSystem.acceptable_of_reach (FileSystem.find_eq_ok_iff.1 hfind)).nonempty
    have hdirectory := FileSystem.isDirectory_of_createDirectories hnonempty hcreate
    obtain ⟨place, hplace⟩ := FileSystem.find_of_isDirectory hleads hdirectory
    obtain ⟨rfl, rfl⟩ : target = place ∧ entry = .directory := by simpa [hfind] using hplace
    exact hfind

/-- A destination that was missing is new and empty, if its path only leads down behind the part
that existed. -/
theorem IsReady.free_of_missing {target : Location} {session : Session}
    (h : project.IsReady confirm begun target session)
    (hmissing : begun.fileSystem.pathExists project.config.destination = false)
    (hbeyond : begun.fileSystem.GoesDownBeyond project.config.destination) :
    begun.fileSystem.tree.get? target = none ∧
      ∀ name below, session.fileSystem.tree.get? (target ++ name :: below) = none := by
  rcases h.way with ⟨⟨location, hexists⟩, -⟩ | ⟨-, hcreate⟩
  · simp [FileSystem.pathExists_of_find hexists] at hmissing
  · obtain ⟨-, entry, hfind⟩ := FileSystem.find_of_resolveExisting h.resolved
    have hcreated : session.fileSystem =
        (begun.fileSystem.createDirectories project.config.destination).1 := by rw [hcreate]
    rw [hcreated] at hfind ⊢
    exact FileSystem.free_of_created h.leads hbeyond hfind hmissing

/-- What making the destination ready comes to, whatever links there are. -/
theorem prepareDestination_readies (hdescent : ∀ root ∈ project.config.roots, root.IsDescent) :
    Ensures (fun session => session = begun) (project.prepareDestination confirm)
      (project.IsReady confirm begun) (project.Stopped confirm begun) := by
  have hresolve {before : Session → Prop}
      (hbefore : ∀ session, before session → project.Readies confirm begun.fileSystem
        session.fileSystem ∧ Alike begun session)
      (hready : ∀ session, before session → ∀ target,
        session.fileSystem.resolveExisting project.config.destination = .ok target →
          project.IsReady confirm begun target session) :
      Ensures before
        (query fun fs => (fs.resolveExisting project.config.destination).mapError fun report =>
          (report.within .exporting).noting .unresolvedDestination)
        (project.IsReady confirm begun) (project.Stopped confirm begun) :=
    ensures_query (fun session target h hok => hready session h target (mapError_eq_ok.1 hok))
      fun session report h _ => ⟨(hbefore session h).2, (hbefore session h).1⟩
  have hcheck : Ensures (fun session => session = begun) (query project.checkDestination)
      (fun _ session => session = begun ∧ project.checkDestination begun.fileSystem = .ok ())
      (project.Stopped confirm begun) := by
    refine ensures_query ?_ ?_
    · intro session _ hsession hok
      rw [hsession] at hok
      exact ⟨hsession, hok⟩
    · intro session report hsession _
      rw [hsession]
      exact stopped_of_eq _ ⟨alike_refl _, rfl⟩
  unfold prepareDestination
  refine hcheck.bind fun _ => Ensures.get_bind fun state hstate => ?_
  obtain ⟨rfl, haccepted⟩ := hstate
  have hbegun (session : Session)
      (h : session = state ∧ project.checkDestination state.fileSystem = .ok ()) :
      session = state := h.1
  dsimp only
  split
  · split
    · next hexists =>
        have hleads := leads_of_checkDestination haccepted
        obtain ⟨location, hexists⟩ := FileSystem.find_of_isDirectory hleads hexists
        refine (askConsent_clears.mono_before hbegun).bind fun _ =>
          (removeRoots_clears haccepted hexists hdescent).bind fun _ => ?_
        apply hresolve
        · exact fun session h => ⟨.cleared haccepted hexists h.1 h.2.losing, h.2.alike⟩
        · exact fun session h target hok => ⟨h.2.alike, haccepted, hok,
            .inl ⟨⟨location, hexists⟩, h.1, h.2.asked, h.2.losing, h.2.unfound⟩⟩
    · apply Ensures.throw_bind
      intro session hsession
      rw [hsession.1]
      exact stopped_of_eq _ ⟨alike_refl _, rfl⟩
  · next hmissing =>
      rw [Bool.not_eq_true] at hmissing
      refine (ensures_say_eq.mono_before hbegun).bind fun _ =>
        (createMissing_ensures haccepted hmissing).bind fun _ => ?_
      apply hresolve
      · exact fun session h => ⟨.created haccepted hmissing (by rw [h.2]), h.1⟩
      · exact fun session h target hok => ⟨h.1, haccepted, hok, .inr ⟨hmissing, h.2⟩⟩

/-- The lines that have been said are nothing that making the destination ready looks at. -/
theorem prepareDestination_readies_said
    (hdescent : ∀ root ∈ project.config.roots, root.IsDescent) :
    Ensures (fun session => ∃ lines, session = { begun with status := lines })
      (project.prepareDestination confirm) (project.IsReady confirm begun)
      (project.Stopped confirm begun) := by
  apply Ensures.of_start
  rintro _ ⟨lines, rfl⟩
  refine (prepareDestination_readies hdescent).imp (fun _ h => h) ?_ ?_
  · exact fun target session h => ⟨⟨h.alike.1, h.alike.2⟩, h.accepted, h.resolved, h.way⟩
  · exact fun report session h => ⟨⟨h.1.1, h.1.2⟩, h.2⟩

section Outcomes

variable {target : Location} {session : Session}
  (hdescent : ∀ root ∈ project.config.roots, root.IsDescent)

include hdescent

theorem isReady_of_prepareDestination
    (h : project.prepareDestination confirm begun = .ok target session) :
    project.IsReady confirm begun target session := by
  have hprepare : Ensures (fun session => session = begun) (project.prepareDestination confirm)
      (project.IsReady confirm begun) (project.Stopped confirm begun) :=
    prepareDestination_readies hdescent
  have hready := hprepare begun rfl
  rwa [h] at hready

theorem readies_of_prepareDestination
    (h : project.prepareDestination confirm begun = .ok target session ∨
      ∃ report, project.prepareDestination confirm begun = .error report session) :
    project.Readies confirm begun.fileSystem session.fileSystem := by
  rcases h with hok | ⟨report, herror⟩
  · exact (isReady_of_prepareDestination hdescent hok).readies
  · have hprepare : Ensures (fun session => session = begun) (project.prepareDestination confirm)
        (project.IsReady confirm begun) (project.Stopped confirm begun) :=
      prepareDestination_readies hdescent
    have hstopped := hprepare begun rfl
    rw [herror] at hstopped
    exact hstopped.2

end Outcomes

end Project

/-! ## Whole exports -/

namespace Export

variable {config : Config} {confirm : Path → Bool} {fs : FileSystem}
  {after : Summary → Session → Prop} {failed : Report → Session → Prop}

/-- The settings are checked first, and where the project is. If that fails, a path is the reason.
-/
theorem perform_checked {before : Session → Prop}
    (hrefused : ∀ report session, report.BlamesPath → before session → failed report session)
    (hchecked : ∀ base session, before session → (∀ root ∈ config.roots, root.IsDescent) →
      session.fileSystem.resolveExisting config.baseDirectory = .ok base →
        Ensures (fun same => same = session) (do
          say config (.usingVersion config.version)
          let target ← ({ config, base } : Project).prepareDestination confirm
          exportRoots { config, base, target }) after failed) :
    Ensures before (perform config confirm) after failed := by
  have hvalidate : Ensures before
      (query fun _ => config.validate.mapError fun report =>
        (report.within .exporting).noting .invalidRoots)
      (fun _ session => before session ∧ ∀ root ∈ config.roots, root.IsDescent) failed := by
    refine ensures_query ?_ ?_
    · intro session _ h hvalid
      exact ⟨h, Config.isDescent_of_validate (mapError_eq_ok.1 hvalid)⟩
    · intro session report h hreport
      obtain ⟨inner, hinner, rfl⟩ := mapError_eq_error hreport
      exact hrefused _ session ⟨_, rfl, Config.ofPath_validate hinner⟩ h
  have hbase : Ensures (fun session => before session ∧ ∀ root ∈ config.roots, root.IsDescent)
      (query fun fs => (fs.resolveExisting config.baseDirectory).mapError fun report =>
        (report.within .exporting).noting .unresolvedProject)
      (fun base session => before session ∧ (∀ root ∈ config.roots, root.IsDescent) ∧
        session.fileSystem.resolveExisting config.baseDirectory = .ok base) failed := by
    refine ensures_query ?_ ?_
    · intro session base h hresolve
      exact ⟨h.1, h.2, mapError_eq_ok.1 hresolve⟩
    · intro session report h hreport
      obtain ⟨inner, hinner, rfl⟩ := mapError_eq_error hreport
      exact hrefused _ session ⟨_, rfl, FileSystem.ofPath_resolveExisting hinner⟩ h.1
  refine hvalidate.bind fun _ => hbase.bind fun base => ?_
  apply Ensures.of_start
  intro session hsession
  exact hchecked base session hsession.1 hsession.2.1 hsession.2.2

/-- What holds after an export, whatever links there are: as far as the destination is ready it
depends on the export of the roots, and otherwise making it ready has stopped or has not begun, and
guards are not the reason. -/
theorem perform_prepares {begun : Session}
    (hrefused : ∀ report, ¬report.TellsOfGuards → failed report begun)
    (hstopped : ∀ base report session, ¬report.TellsOfGuards →
      (∀ root ∈ config.roots, root.IsDescent) →
        begun.fileSystem.resolveExisting config.baseDirectory = .ok base →
          ({ config, base } : Project).Stopped confirm begun report session →
            failed report session)
    (hroots : ∀ base target, (∀ root ∈ config.roots, root.IsDescent) →
      begun.fileSystem.resolveExisting config.baseDirectory = .ok base →
        Ensures (({ config, base } : Project).IsReady confirm begun target)
          (exportRoots { config, base, target }) after failed) :
    Ensures (fun session => session = begun) (perform config confirm) after failed := by
  apply perform_checked
  · exact fun report session hpath h => h ▸ hrefused report hpath.not_tellsOfGuards
  intro base session hsession hdescent hresolved
  rw [hsession] at hresolved ⊢
  refine ensures_say_eq.bind fun _ => ?_
  have hprepare : Ensures (fun session => ∃ lines, session = { begun with status := lines })
      (({ config, base } : Project).prepareDestination confirm)
      (({ config, base } : Project).IsReady confirm begun) failed :=
    Project.ignoresGuards_prepareDestination.ensures
      (Project.prepareDestination_readies_said hdescent) fun report session hguards h =>
        hstopped base report session hguards hdescent hresolved h
  exact hprepare.bind fun target => hroots base target hdescent hresolved

theorem perform_readies {begun : Session} (hrefused : ∀ report, failed report begun)
    (hstopped : ∀ base report session, (∀ root ∈ config.roots, root.IsDescent) →
      begun.fileSystem.resolveExisting config.baseDirectory = .ok base →
        ({ config, base } : Project).Stopped confirm begun report session →
          failed report session)
    (hroots : ∀ base target, (∀ root ∈ config.roots, root.IsDescent) →
      begun.fileSystem.resolveExisting config.baseDirectory = .ok base →
        Ensures (({ config, base } : Project).IsReady confirm begun target)
          (exportRoots { config, base, target }) after failed) :
    Ensures (fun session => session = begun) (perform config confirm) after failed :=
  perform_prepares (fun report _ => hrefused report)
    (fun base report session _ => hstopped base report session) hroots

theorem runExport_eq_of_perform {summary : Summary} {done : Session}
    (h : perform config confirm { fileSystem := fs } = .ok summary done) :
    runExport config confirm fs = { result := .ok summary, session := done } := by
  rw [runExport, h]

theorem exists_perform_of_runExport {summary : Summary}
    (h : (runExport config confirm fs).result = .ok summary) :
    ∃ done, perform config confirm { fileSystem := fs } = .ok summary done := by
  unfold runExport at h
  split at h
  · next also done hperform =>
      cases h
      exact ⟨done, hperform⟩
  · cases h

/-- A run ends as its parts ensure. -/
theorem runExport_from {before : Session → Prop}
    (h : Ensures before (perform config confirm) after failed)
    (hbefore : before { fileSystem := fs }) :
    match (runExport config confirm fs).result with
    | .ok summary => after summary (runExport config confirm fs).session
    | .error report => failed report (runExport config confirm fs).session := by
  have hrun := h { fileSystem := fs } hbefore
  unfold runExport
  cases hperform : perform config confirm { fileSystem := fs } with
  | ok summary session =>
      rw [hperform] at hrun
      exact hrun
  | error report session =>
      rw [hperform] at hrun
      exact hrun

end Export

end Snapshot
