import Mathlib.Data.List.Forall2
import Snapshot.Proofs.Ensures

/-!
# One export after the example of another

`ExportM.Follows lost before first second after` compares two parts of exports that start side by
side in sessions as `before` says. Wherever the first part goes well, the second one goes well too,
with the same value, and `after` says how they end. Of a first part that fails nothing is said, and
neither of one that ends in a session which is lost: one from which the first export cannot go on to
a good end. The rules follow the ways in which parts are put together.
-/

namespace Snapshot

namespace ExportM

variable {α β γ : Type}

def Follows (lost : Session → Prop) (before : Session → Session → Prop) (first second : ExportM α)
    (after : α → Session → Session → Prop) : Prop :=
  ∀ session other, before session other → ∀ a done, first session = .ok a done → ¬lost done →
    ∃ also, second other = .ok a also ∧ after a done also

/-- No session is lost. -/
def never (_ : Session) : Prop :=
  False

theorem bind_eq_ok {part : ExportM α} {next : α → ExportM β} {session done : Session} {b : β} :
    (part >>= next) session = .ok b done ↔
      ∃ a middle, part session = .ok a middle ∧ next a middle = .ok b done := by
  change EStateM.bind part next session = .ok b done ↔ _
  unfold EStateM.bind
  cases hpart : part session with
  | ok a middle =>
      refine ⟨fun h => ⟨a, middle, rfl, h⟩, fun h => ?_⟩
      obtain ⟨_, _, heq, h⟩ := h
      cases heq
      exact h
  | error report middle => simp

theorem query_eq_ok {answer : FileSystem → Except Report α} {session done : Session} {a : α} :
    query answer session = .ok a done ↔ answer session.fileSystem = .ok a ∧ session = done := by
  unfold query
  cases answer session.fileSystem with
  | ok b => simp
  | error report => simp

theorem change_eq_ok {request : FileSystem → FileSystem × Except Report α} {session done : Session}
    {a : α} : change request session = .ok a done ↔
      ∃ fs, request session.fileSystem = (fs, .ok a) ∧
        { session with fileSystem := fs } = done := by
  unfold change
  cases request session.fileSystem with
  | mk fs outcome => cases outcome <;> simp [and_assoc]

namespace Follows

variable {lost gone : Session → Prop} {before before' : Session → Session → Prop}
  {first second : ExportM α} {after after' : α → Session → Session → Prop}

theorem imp (h : Follows lost before first second after)
    (hbefore : ∀ session other, before' session other → before session other)
    (hafter : ∀ a done also, after a done also → after' a done also) :
    Follows lost before' first second after' := by
  intro session other hstart a done hfirst hlost
  obtain ⟨also, hsecond, hend⟩ := h session other (hbefore _ _ hstart) a done hfirst hlost
  exact ⟨also, hsecond, hafter _ _ _ hend⟩

/-- Parts can be compared from each two sessions they can start in. -/
theorem of_start (h : ∀ session other, before session other →
      Follows lost (fun same too => same = session ∧ too = other) first second after) :
    Follows lost before first second after :=
  fun session other hstart => h session other hstart session other ⟨rfl, rfl⟩

theorem from_start {session other : Session} (hstart : before session other)
    (h : Follows lost before first second after) :
    Follows lost (fun same too => same = session ∧ too = other) first second after :=
  h.imp (fun _ _ hsame => hsame.1 ▸ hsame.2 ▸ hstart) fun _ _ _ => id

theorem of_never (h : Follows never before first second after) :
    Follows lost before first second after :=
  fun session other hstart a done hfirst _ => h session other hstart a done hfirst id

/-- Where nothing lost becomes good again, only starts that are not lost have to be looked at. -/
theorem of_not_lost (hstays : Ensures lost first (fun _ => lost) fun _ _ => True)
    (h : Follows lost (fun session other => before session other ∧ ¬lost session) first second
      after) : Follows lost before first second after := by
  intro session other hstart a done hfirst hlost
  refine h session other ⟨hstart, fun hgone => hlost ?_⟩ a done hfirst hlost
  have hend := hstays session hgone
  rwa [hfirst] at hend

theorem pure {a : α} (h : ∀ session other, before session other → after a session other) :
    Follows lost before (Pure.pure a : ExportM α) (Pure.pure a) after := by
  intro session other hstart b done hfirst _
  cases hfirst
  exact ⟨other, rfl, h _ _ hstart⟩

/-- A part does the same again in the same session. -/
theorem same : Follows lost (fun session other => other = session) first first
    fun _ session other => other = session := by
  intro session other hstart a done hfirst _
  exact ⟨done, hstart ▸ hfirst, rfl⟩

/-- What never goes well is followed by anything. -/
theorem of_throw {report : Report} :
    Follows lost before (MonadExcept.throw report) second after := by
  intro session other _ a done hfirst
  cases hfirst

/-- From a session that is lost, going on leads to a session that is lost, if to any. -/
theorem bind {middle : α → Session → Session → Prop} {after : β → Session → Session → Prop}
    {next next' : α → ExportM β} (hpart : Follows gone before first second middle)
    (hstays : ∀ a, Ensures gone (next a) (fun _ => lost) fun _ _ => True)
    (hnext : ∀ a, Follows lost (middle a) (next a) (next' a) after) :
    Follows lost before (first >>= next) (second >>= next') after := by
  intro session other hstart b done hfirst hlost
  obtain ⟨a, state, hpartFirst, hnextFirst⟩ := bind_eq_ok.1 hfirst
  have hgone : ¬gone state := fun hgone => by
    have hend := hstays a state hgone
    rw [hnextFirst] at hend
    exact hlost hend
  obtain ⟨too, hpartSecond, hmiddle⟩ := hpart session other hstart a state hpartFirst hgone
  obtain ⟨also, hnextSecond, hend⟩ := hnext a state too hmiddle b done hnextFirst hlost
  exact ⟨also, bind_eq_ok.2 ⟨a, too, hpartSecond, hnextSecond⟩, hend⟩

/-- After a part with which nothing can be lost. -/
theorem never_bind {middle : α → Session → Session → Prop} {after : β → Session → Session → Prop}
    {next next' : α → ExportM β} (hpart : Follows never before first second middle)
    (hnext : ∀ a, Follows lost (middle a) (next a) (next' a) after) :
    Follows lost before (first >>= next) (second >>= next') after :=
  hpart.bind (fun _ _ => False.elim) hnext

theorem get_bind {next next' : Session → ExportM α}
    (h : ∀ session other, before session other →
      Follows lost (fun same too => same = session ∧ too = other) (next session) (next' other)
        after) :
    Follows lost before (MonadState.get >>= next) (MonadState.get >>= next') after :=
  fun session other hstart => h session other hstart session other ⟨rfl, rfl⟩

/-- A failure is not made good by a handler that fails itself. -/
theorem tryCatch {handler handler' : Report → ExportM α}
    (hpart : Follows lost before first second after)
    (hhandler : ∀ report session a done, handler report session ≠ .ok a done) :
    Follows lost before (MonadExcept.tryCatch first handler)
      (MonadExcept.tryCatch second handler') after := by
  intro session other hstart a done hfirst hlost
  have hgoesWell : first session = .ok a done := by
    change EStateM.tryCatch first handler session = .ok a done at hfirst
    unfold EStateM.tryCatch at hfirst
    cases hresult : first session with
    | ok b middle => simpa [hresult] using hfirst
    | error report middle =>
        simp only [hresult] at hfirst
        exact absurd hfirst (hhandler _ _ _ _)
  obtain ⟨also, hsecond, hend⟩ := hpart session other hstart a done hgoesWell hlost
  refine ⟨also, ?_, hend⟩
  change EStateM.tryCatch second handler' other = .ok a also
  unfold EStateM.tryCatch
  simp [hsecond]

/-- What every two elements that belong together keep up, going through two lists keeps up. -/
theorem forM_forall₂ {together : Session → Session → Prop} {pair : β → γ → Prop} {list : List β}
    {others : List γ} {body : β → ExportM Unit} {body' : γ → ExportM Unit}
    (hpairs : List.Forall₂ pair list others)
    (hstays : ∀ b ∈ list, Ensures lost (body b) (fun _ => lost) fun _ _ => True)
    (h : ∀ b c, pair b c → Follows lost together (body b) (body' c) fun _ => together) :
    Follows lost together (list.forM body) (others.forM body') fun _ => together := by
  induction hpairs with
  | nil => exact pure fun _ _ h => h
  | cons hpair _ ih =>
      have hrest := List.forall_mem_cons.1 hstays
      rw [List.forM, List.forM]
      exact (h _ _ hpair).bind (fun _ => Ensures.forM hrest.2) fun _ => ih hrest.2

/-- What every element keeps up, going through a list keeps up. -/
theorem forM {together : Session → Session → Prop} {list : List β} {body body' : β → ExportM Unit}
    (hstays : ∀ b ∈ list, Ensures lost (body b) (fun _ => lost) fun _ _ => True)
    (h : ∀ b ∈ list, Follows lost together (body b) (body' b) fun _ => together) :
    Follows lost together (list.forM body) (list.forM body') fun _ => together := by
  have hpairs : List.Forall₂ (fun b c => b = c ∧ b ∈ list) list list :=
    List.forall₂_same.2 fun b hmem => ⟨rfl, hmem⟩
  refine forM_forall₂ hpairs hstays fun b c hpair => ?_
  obtain ⟨rfl, hmem⟩ := hpair
  exact h b hmem

end Follows

/-! ## Requests -/

variable {lost : Session → Prop} {before : Session → Session → Prop}
  {after : α → Session → Session → Prop}

/-- The same update, or two that do alike. -/
theorem follows_modify {update update' : Session → Session} {after : Session → Session → Prop}
    (h : ∀ session other, before session other → after (update session) (update' other)) :
    Follows lost before (modify update) (modify update') fun _ => after := by
  intro session other hstart a done hfirst _
  cases hfirst
  exact ⟨_, rfl, h _ _ hstart⟩

/-- Only the lines change by what is said, and the two exports may say different things. -/
theorem follows_say {config config' : Config} {status status' : Status}
    {after : Session → Session → Prop}
    (h : ∀ session other lines lines', before session other →
      after { session with status := lines } { other with status := lines' }) :
    Follows lost before (say config status) (say config' status') fun _ => after := by
  refine follows_modify fun session other hstart => ?_
  split <;> split
  · exact h session other _ _ hstart
  · exact h session other _ other.status hstart
  · exact h session other session.status _ hstart
  · exact h session other session.status other.status hstart

theorem follows_query {answer answer' : FileSystem → Except Report α}
    (h : ∀ session other a, before session other → answer session.fileSystem = .ok a →
      answer' other.fileSystem = .ok a ∧ after a session other) :
    Follows lost before (query answer) (query answer') after := by
  intro session other hstart a done hfirst _
  obtain ⟨hanswer, rfl⟩ := query_eq_ok.1 hfirst
  obtain ⟨hsecond, hend⟩ := h session other _ hstart hanswer
  exact ⟨other, query_eq_ok.2 ⟨hsecond, rfl⟩, hend⟩

theorem follows_change {request request' : FileSystem → FileSystem × Except Report α}
    (h : ∀ session other fs a, before session other →
      request session.fileSystem = (fs, .ok a) → ¬lost { session with fileSystem := fs } →
        ∃ fs', request' other.fileSystem = (fs', .ok a) ∧
          after a { session with fileSystem := fs } { other with fileSystem := fs' }) :
    Follows lost before (change request) (change request') after := by
  intro session other hstart a done hfirst hlost
  obtain ⟨fs, hrequest, rfl⟩ := change_eq_ok.1 hfirst
  obtain ⟨fs', hsecond, hend⟩ := h session other fs _ hstart hrequest hlost
  exact ⟨_, change_eq_ok.2 ⟨fs', hsecond, rfl⟩, hend⟩

end ExportM

end Snapshot
