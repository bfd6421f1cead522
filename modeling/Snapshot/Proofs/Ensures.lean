import Snapshot.Export.Run

/-!
# What a part of an export ensures

`ExportM.Ensures before part after failed` says how a part of an export that starts where `before`
holds can end: with a value and a session as `after` says, or with a report and a session as
`failed` says. The rules follow the ways in which parts are put together, so a statement about an
export is one about its requests. Most conditions look at the file system only, and saying a line
or counting a file then changes nothing.
-/

namespace Snapshot

@[simp] theorem mapError_eq_ok {ε ε' α : Type} {result : Except ε α} {wrap : ε → ε'} {a : α} :
    result.mapError wrap = .ok a ↔ result = .ok a := by
  cases result with
  | error _ =>
      change Except.error _ = Except.ok a ↔ _
      simp
  | ok _ =>
      change Except.ok _ = Except.ok a ↔ _
      simp

theorem eq_ok_of_toOption {ε α : Type} {result : Except ε α} {a : α}
    (h : result.toOption = some a) : result = .ok a := by
  cases result with
  | error error => cases h
  | ok b => rw [Option.some.inj h]

/-- How a part of an export that goes well has ended can be computed. -/
instance decidableExistsOk {α : Type} (result : EStateM.Result Report Session α)
    (P : α → Session → Prop) [∀ a session, Decidable (P a session)] :
    Decidable (∃ a session, result = .ok a session ∧ P a session) :=
  match result with
  | .ok a session =>
      decidable_of_iff (P a session)
        ⟨fun h => ⟨a, session, rfl, h⟩, fun ⟨_, _, heq, h⟩ => by
          cases heq
          exact h⟩
  | .error _ _ => isFalse (by simp)

namespace ExportM

variable {α β : Type}

def Ensures (before : Session → Prop) (part : ExportM α) (after : α → Session → Prop)
    (failed : Report → Session → Prop) : Prop :=
  ∀ session, before session →
    match part session with
    | .ok a session => after a session
    | .error report session => failed report session

namespace Ensures

variable {before before' : Session → Prop} {part : ExportM α} {after after' : α → Session → Prop}
  {failed failed' : Report → Session → Prop}

theorem imp (h : Ensures before part after failed)
    (hbefore : ∀ session, before' session → before session)
    (hafter : ∀ a session, after a session → after' a session)
    (hfailed : ∀ report session, failed report session → failed' report session) :
    Ensures before' part after' failed' := by
  intro session hsession
  have hpart := h session (hbefore session hsession)
  split at hpart
  · exact hafter _ _ hpart
  · exact hfailed _ _ hpart

theorem mono_before (h : Ensures before part after failed)
    (hbefore : ∀ session, before' session → before session) :
    Ensures before' part after failed :=
  h.imp hbefore (fun _ _ h => h) fun _ _ h => h

theorem mono_after (h : Ensures before part after failed)
    (hafter : ∀ a session, after a session → after' a session) :
    Ensures before part after' failed :=
  h.imp (fun _ h => h) hafter fun _ _ h => h

/-- Of a failure nothing need be known. -/
theorem anyhow (h : Ensures before part after failed) :
    Ensures before part after fun _ _ => True :=
  h.imp (fun _ h => h) (fun _ _ h => h) fun _ _ _ => trivial

/-- What holds of every session holds of every end. -/
theorem of_forall (hafter : ∀ a session, after a session)
    (hfailed : ∀ report session, failed report session) : Ensures before part after failed := by
  intro session _
  split
  · exact hafter _ _
  · exact hfailed _ _

/-- What is known of a part in two ways. -/
theorem and (h : Ensures before part after failed) (hother : Ensures before part after' failed') :
    Ensures before part (fun a session => after a session ∧ after' a session)
      fun report session => failed report session ∧ failed' report session := by
  intro session hsession
  have hpart := h session hsession
  have hpartOther := hother session hsession
  split at hpart
  · next a middle heq =>
      rw [heq] at hpartOther
      exact ⟨hpart, hpartOther⟩
  · next report middle heq =>
      rw [heq] at hpartOther
      exact ⟨hpart, hpartOther⟩

theorem from_session {start : Session} (h : Ensures before part after failed)
    (hstart : before start) : Ensures (fun session => session = start) part after failed :=
  h.mono_before fun _ heq => heq ▸ hstart

/-- A part can be looked at from each session it can start in. -/
theorem of_start
    (h : ∀ start, before start → Ensures (fun session => session = start) part after failed) :
    Ensures before part after failed :=
  fun session hsession => h session hsession session rfl

/-- A part that cannot fail goes well. -/
theorem exists_ok {session : Session} (h : Ensures before part after fun _ _ => False)
    (hbefore : before session) : ∃ a done, part session = .ok a done ∧ after a done := by
  have hpart := h session hbefore
  split at hpart
  · next a done heq => exact ⟨a, done, heq, hpart⟩
  · exact hpart.elim

theorem pure {a : α} (h : ∀ session, before session → after a session) :
    Ensures before (Pure.pure a : ExportM α) after failed :=
  fun session hsession => h session hsession

theorem throw {report : Report} (h : ∀ session, before session → failed report session) :
    Ensures before (MonadExcept.throw report : ExportM α) after failed :=
  fun session hsession => h session hsession

theorem bind {middle : α → Session → Prop} {after : β → Session → Prop} {next : α → ExportM β}
    (hpart : Ensures before part middle failed)
    (hnext : ∀ a, Ensures (middle a) (next a) after failed) :
    Ensures before (part >>= next) after failed := by
  intro session hsession
  have hfirst := hpart session hsession
  change match EStateM.bind part next session with
    | .ok a session => after a session
    | .error report session => failed report session
  unfold EStateM.bind
  split at hfirst
  · next a middle heq =>
      rw [heq]
      exact hnext a middle hfirst
  · next report middle heq =>
      rw [heq]
      exact hfirst

theorem throw_bind {report : Report} {next : β → ExportM α}
    (h : ∀ session, before session → failed report session) :
    Ensures before ((MonadExcept.throw report : ExportM β) >>= next) after failed :=
  fun session hsession => h session hsession

theorem get_bind {next : Session → ExportM α}
    (h : ∀ state, before state → Ensures before (next state) after failed) :
    Ensures before (MonadState.get >>= next) after failed :=
  fun session hsession => h session hsession session hsession

/-- The handler starts where the failure left off: nothing is rolled back. -/
theorem tryCatch {middle : Report → Session → Prop} {handler : Report → ExportM α}
    (hpart : Ensures before part after middle)
    (hhandler : ∀ report, Ensures (middle report) (handler report) after failed) :
    Ensures before (MonadExcept.tryCatch part handler) after failed := by
  intro session hsession
  have hfirst := hpart session hsession
  change match EStateM.tryCatch part handler session with
    | .ok a session => after a session
    | .error report session => failed report session
  unfold EStateM.tryCatch
  split at hfirst
  · next a middle heq =>
      simp only [heq]
      exact hfirst
  · next report middle heq =>
      simp only [heq]
      exact hhandler report middle hfirst

/-- What holds after going through a list, from what holds after each of its beginnings. -/
theorem forM_prefix {body : α → ExportM Unit} {list : List α} (reached : List α → Session → Prop)
    (h : ∀ front a rest, list = front ++ a :: rest →
      Ensures (reached front) (body a) (fun _ => reached (front ++ [a])) failed) :
    Ensures (reached []) (list.forM body) (fun _ => reached list) failed := by
  induction list generalizing reached with
  | nil => exact fun _ hsession => hsession
  | cons first rest ih =>
      rw [List.forM]
      refine bind (h [] first rest rfl) fun _ => ?_
      exact ih (fun front => reached (first :: front)) fun front a later heq =>
        h (first :: front) a later (by rw [heq, List.cons_append])

/-- What every element keeps, going through a list keeps. -/
theorem forM {body : α → ExportM Unit} {list : List α}
    (h : ∀ a ∈ list, Ensures before (body a) (fun _ => before) failed) :
    Ensures before (list.forM body) (fun _ => before) failed :=
  forM_prefix (fun _ => before) fun front a rest heq => h a (by simp [heq])

/-- What one element of a list brings about, and the others keep, holds after the list. -/
theorem forM_of_mem {body : α → ExportM Unit} {list : List α} {reached : Session → Prop} {a : α}
    (hmem : a ∈ list)
    (hkeeps : ∀ a ∈ list, Ensures before (body a) (fun _ => before) failed)
    (hreaches : Ensures before (body a) (fun _ => reached) failed)
    (hstays : ∀ a ∈ list, Ensures reached (body a) (fun _ => reached) failed) :
    Ensures before (list.forM body) (fun _ => reached) failed := by
  induction list with
  | nil => cases hmem
  | cons first rest ih =>
      have hrest {P : Session → Prop}
          (h : ∀ a ∈ first :: rest, Ensures P (body a) (fun _ => P) failed) :
          ∀ a ∈ rest, Ensures P (body a) (fun _ => P) failed :=
        fun a hmem => h a (List.mem_cons_of_mem _ hmem)
      rw [List.forM]
      rcases List.mem_cons.1 hmem with rfl | hlater
      · exact bind hreaches fun _ => forM (hrest hstays)
      · exact bind (hkeeps first List.mem_cons_self) fun _ =>
          ih hlater (hrest hkeeps) (hrest hstays)

end Ensures

/-! ## Requests -/

variable {before : Session → Prop} {after : α → Session → Prop}
  {failed : Report → Session → Prop}

/-- What does not look at the status lines is kept by saying one. -/
theorem ensures_say {config : Config} {status : Status}
    (h : ∀ session lines, before session → before { session with status := lines }) :
    Ensures before (say config status) (fun _ => before) failed := by
  intro session hsession
  change before (if config.verbosity.shows status then
    { session with status := session.status ++ [status] } else session)
  split
  · exact h session _ hsession
  · exact hsession

/-- After a line is said the session is the same apart from its lines. -/
theorem ensures_say_eq {config : Config} {status : Status} {start : Session} :
    Ensures (fun session => session = start) (say config status)
      (fun _ session => ∃ lines, session = { start with status := lines }) failed := by
  apply (ensures_say fun _ lines h => ?_).mono_before
  · exact fun session hsession => ⟨session.status, by rw [← hsession]⟩
  · obtain ⟨_, rfl⟩ := h
    exact ⟨lines, rfl⟩

theorem ensures_modify {update : Session → Session} {after : Session → Prop}
    (h : ∀ session, before session → after (update session)) :
    Ensures before (modify update) (fun _ => after) failed :=
  fun session hsession => h session hsession

theorem ensures_count {update : Summary → Summary} {after : Session → Prop}
    (h : ∀ session, before session → after { session with summary := update session.summary }) :
    Ensures before (count update) (fun _ => after) failed :=
  fun session hsession => h session hsession

theorem ensures_query {answer : FileSystem → Except Report α}
    (hok : ∀ session a, before session → answer session.fileSystem = .ok a → after a session)
    (herror : ∀ session report, before session → answer session.fileSystem = .error report →
      failed report session) :
    Ensures before (query answer) after failed := by
  intro session hsession
  unfold query
  cases hanswer : answer session.fileSystem with
  | ok a => exact hok session a hsession hanswer
  | error report => exact herror session report hsession hanswer

theorem ensures_change {request : FileSystem → FileSystem × Except Report α}
    (hok : ∀ session fs a, before session → request session.fileSystem = (fs, .ok a) →
      after a { session with fileSystem := fs })
    (herror : ∀ session fs report, before session →
      request session.fileSystem = (fs, .error report) →
        failed report { session with fileSystem := fs }) :
    Ensures before (change request) after failed := by
  intro session hsession
  unfold change
  cases hrequest : request session.fileSystem with
  | mk fs outcome =>
      cases outcome with
      | ok a => exact hok session fs a hsession hrequest
      | error report => exact herror session fs report hsession hrequest

end ExportM

end Snapshot
