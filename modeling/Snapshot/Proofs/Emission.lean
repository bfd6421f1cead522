import Snapshot.Filter.Lemmas
import Snapshot.Proofs.Nesting

/-!
# What the filter emits

The filter keeps for each open guard one bit, whether it and all guards around it hold. Here the
state of the filter is written as a function of the guards that are open and the place that is
reached, which a line changes as `Marker.openNext` says. So an ordinary line is emitted exactly if
all guards around it hold, and a text that is accepted leaves its shown lines.
-/

namespace Snapshot

namespace LineFilter

/-- What the filter keeps of the open guards, given with the places that opened them. -/
def frames (version : Int64) : List (Nat × Guard) → List OpenGuard
  | [] => []
  | (place, guard) :: outer =>
      { emits := guard.holds version && outer.all (·.2.holds version), line := place + 1 } ::
        frames version outer

/-- The filter that reads the line at a place while some guards are open. -/
def reading (version : Int64) (guards : List (Nat × Guard)) (place : Nat) : LineFilter where
  version
  openGuards := frames version guards
  line := place

/-- What becomes of a line that is not refused. -/
def verdict (version : Int64) (guards : List (Nat × Guard)) : Marker → Action
  | .ordinary => if guards.all (·.2.holds version) then .emit else .drop
  | _ => .marker

variable {version : Int64} {guards : List (Nat × Guard)} {place : Nat} {line : List Char}
  {lines out : List (List Char)}

theorem verdict_eq_emit_iff {marker : Marker} :
    verdict version guards marker = .emit ↔
      marker = .ordinary ∧ guards.all (·.2.holds version) := by
  cases marker with
  | ordinary => simp [verdict]
  | opening guard => simp [verdict]
  | closing => simp [verdict]

theorem start_eq_reading : start version = reading version [] 0 := rfl

@[simp] theorem isEmitting_reading :
    (reading version guards place).isEmitting = guards.all (·.2.holds version) := by
  cases guards with
  | nil => rfl
  | cons => rfl

/-- A line is refused, as it closes a guard and none is open, or it is not. -/
theorem stray_or_open (line : List Char) (guards : List (Nat × Guard)) :
    (Marker.ofLine line = .closing ∧ guards = []) ∨
      (Marker.ofLine line = .closing → guards ≠ []) := by
  by_cases hguards : guards = []
  · exact (em _).imp (⟨·, hguards⟩) fun hline hclosing => absurd hclosing hline
  · exact .inr fun _ => hguards

/-- A line that does not close a guard where none is open moves the filter on. -/
theorem feed_reading (hopen : Marker.ofLine line = .closing → guards ≠ []) :
    (reading version guards place).feed line =
      (reading version ((Marker.ofLine line).openNext guards place) (place + 1),
        .ok (verdict version guards (Marker.ofLine line))) := by
  cases hline : Marker.ofLine line with
  | ordinary =>
      rw [feed_of_ordinary hline, isEmitting_reading]
      rfl
  | opening guard =>
      rw [feed_of_opening hline, isEmitting_reading]
      rfl
  | closing =>
      cases guards with
      | nil => exact absurd rfl (hopen hline)
      | cons innermost outer =>
          rw [feed_of_closing hline rfl]
          rfl

theorem feed_reading_nil (hline : Marker.ofLine line = .closing) :
    (reading version [] place).feed line =
      (reading version [] (place + 1), .error (.unbalancedEndif (place + 1))) :=
  feed_of_closing_nil hline rfl

/-- Without further lines nothing is emitted, and no guard may be open. -/
theorem emitted_nil_eq_ok_iff :
    (reading version guards place).emitted [] = .ok out ↔ guards = [] ∧ out = [] := by
  cases guards with
  | nil => simp [emitted, finish, reading, frames, Except.map, eq_comm]
  | cons innermost outer => simp [emitted, finish, reading, frames, Except.map]

/-- A line that is not refused stands in front of what is emitted after it, or is left out. -/
theorem emitted_reading_cons (hopen : Marker.ofLine line = .closing → guards ≠ []) :
    (reading version guards place).emitted (line :: lines) =
      ((reading version ((Marker.ofLine line).openNext guards place) (place + 1)).emitted lines).map
        fun out => if verdict version guards (Marker.ofLine line) = .emit then line :: out else out
    := by
  rw [emitted, feed_reading hopen]
  cases verdict version guards (Marker.ofLine line) with
  | emit => rfl
  | drop | marker => exact (congrFun Except.map_id _).symm

theorem emitted_cons_eq_ok_iff :
    (reading version guards place).emitted (line :: lines) = .ok out ↔
      (Marker.ofLine line = .closing → guards ≠ []) ∧
        ∃ others, (reading version ((Marker.ofLine line).openNext guards place)
          (place + 1)).emitted lines = .ok others ∧
          out = if verdict version guards (Marker.ofLine line) = .emit then line :: others
            else others := by
  rcases stray_or_open line guards with ⟨hline, rfl⟩ | hopen
  · simp [emitted, feed_reading_nil hline, hline]
  · rw [emitted_reading_cons hopen, and_iff_right hopen]
    cases (reading version ((Marker.ofLine line).openNext guards place) (place + 1)).emitted lines
      with
    | error error => simp [Except.map]
    | ok others => simp [Except.map, eq_comm]

/-- A line is shown if it is ordinary and only guards that hold are open at it. The first of the
lines is read at the given place, while some guards are open. -/
def Shown (version : Int64) (guards : List (Nat × Guard)) (place : Nat)
    (lines : List (List Char)) (k : Nat) : Prop :=
  (lines.map Marker.ofLine)[k]? = some .ordinary ∧
    ∀ opened ∈ Marker.openFrom guards place ((lines.map Marker.ofLine).take k),
      opened.2.holds version

theorem shown_zero_iff :
    Shown version guards place (line :: lines) 0 ↔
      Marker.ofLine line = .ordinary ∧ guards.all (·.2.holds version) := by
  simp [Shown, Marker.openFrom]

theorem shown_succ_iff {k : Nat} :
    Shown version guards place (line :: lines) (k + 1) ↔
      Shown version ((Marker.ofLine line).openNext guards place) (place + 1) lines k := by
  simp [Shown, Marker.openFrom]

/-- Exactly the shown lines are left, in their order, and all guards are closed at the end. -/
def Emits (version : Int64) (guards : List (Nat × Guard)) (place : Nat)
    (lines out : List (List Char)) : Prop :=
  Marker.openFrom guards place (lines.map Marker.ofLine) = [] ∧
    ∃ kept : List Nat, kept.Pairwise (· < ·) ∧
      (∀ k, k ∈ kept ↔ Shown version guards place lines k) ∧
      out = kept.map fun k => lines[k]?.getD []

theorem Emits.cons_of_not_shown (hhidden : ¬Shown version guards place (line :: lines) 0)
    (h : Emits version ((Marker.ofLine line).openNext guards place) (place + 1) lines out) :
    Emits version guards place (line :: lines) out := by
  obtain ⟨hclosed, kept, hkept, hmem, rfl⟩ := h
  refine ⟨hclosed, kept.map (· + 1), ?_, fun k => ?_, by simp⟩
  · exact hkept.map _ fun _ _ hlt => Nat.succ_lt_succ hlt
  · cases k with
    | zero => simpa using hhidden
    | succ k => simpa [shown_succ_iff] using hmem k

theorem Emits.cons_of_shown (hshown : Shown version guards place (line :: lines) 0)
    (h : Emits version ((Marker.ofLine line).openNext guards place) (place + 1) lines out) :
    Emits version guards place (line :: lines) (line :: out) := by
  obtain ⟨hclosed, kept, hkept, hmem, rfl⟩ := h
  refine ⟨hclosed, 0 :: kept.map (· + 1), ?_, fun k => ?_, by simp⟩
  · refine (hkept.map _ fun _ _ hlt => Nat.succ_lt_succ hlt).cons fun k hk => ?_
    obtain ⟨earlier, -, rfl⟩ := List.mem_map.1 hk
    exact Nat.succ_pos earlier
  · cases k with
    | zero => simpa using hshown
    | succ k => simpa [shown_succ_iff] using hmem k

/-- What is emitted from a text that is accepted. The induction is on the lines; a line that is read
leaves the filter in the state of the guards open after it. -/
theorem emits_of_emitted (h : (reading version guards place).emitted lines = .ok out) :
    Emits version guards place lines out := by
  induction lines generalizing guards place out with
  | nil =>
      obtain ⟨rfl, rfl⟩ := emitted_nil_eq_ok_iff.1 h
      exact ⟨rfl, [], .nil, by simp [Shown], rfl⟩
  | cons line rest ih =>
      obtain ⟨-, others, hrest, rfl⟩ := emitted_cons_eq_ok_iff.1 h
      split
      · next hverdict =>
          exact (ih hrest).cons_of_shown (shown_zero_iff.2 (verdict_eq_emit_iff.1 hverdict))
      · next hverdict =>
          exact (ih hrest).cons_of_not_shown fun hshown =>
            hverdict (verdict_eq_emit_iff.2 (shown_zero_iff.1 hshown))

end LineFilter

theorem filterText_eq_ok_iff {version : Int64} {text out : List Char} :
    filterText version text = .ok out ↔
      ∃ lines, (LineFilter.reading version [] 0).emitted (Text.lines '\n' text) = .ok lines ∧
        lines.flatten = out := by
  rw [filterText, LineFilter.start_eq_reading]
  cases (LineFilter.reading version [] 0).emitted (Text.lines '\n' text) <;> simp [Except.map]

/-- What is left of a text are its shown lines, in their order and each as it is: the ordinary lines
all of whose enclosing guards hold. -/
theorem filterText_eq_flatMap_shown {version : Int64} {text out : List Char}
    (h : filterText version text = .ok out) :
    ∃ kept : List Nat, kept.Pairwise (· < ·) ∧
      (∀ k, k ∈ kept ↔ Marker.Shows version ((Text.lines '\n' text).map Marker.ofLine) k) ∧
      out = kept.flatMap fun k => (Text.lines '\n' text)[k]?.getD [] := by
  unfold filterText at h
  cases hemitted : (LineFilter.start version).emitted (Text.lines '\n' text) with
  | error error => simp [hemitted, Except.map] at h
  | ok shown =>
      obtain rfl : shown.flatten = out := by simpa [hemitted, Except.map] using h
      rw [LineFilter.start_eq_reading] at hemitted
      obtain ⟨hclosed, kept, hkept, hmem, rfl⟩ := LineFilter.emits_of_emitted hemitted
      refine ⟨kept, hkept, fun k => ?_, by rw [List.flatMap_def]⟩
      rw [hmem, LineFilter.Shown, Marker.Shows]
      refine and_congr_right fun hordinary => ?_
      constructor
      · intro hholds first guard hencloses
        exact hholds _ (Marker.mem_openAfter_of_encloses hencloses)
      · rintro hholds ⟨first, guard⟩ hopen
        exact hholds first guard
          ((Marker.mem_openAfter_iff_encloses hclosed hordinary).1 hopen)

/-- A guard that does not hold hides the line between two guards that do. -/
theorem filterText_eq_flatMap_shown_nested :
    filterText 3 "#if VERSION>=2\na\n#if VERSION>9\nb\n#endif VERSION\n#endif VERSION\nc".toList =
        .ok "a\nc".toList ∧
      ∃ kept : List Nat, kept.Pairwise (· < ·) ∧
        (∀ k, k ∈ kept ↔ Marker.Shows 3 ((Text.lines '\n'
          "#if VERSION>=2\na\n#if VERSION>9\nb\n#endif VERSION\n#endif VERSION\nc".toList).map
            Marker.ofLine) k) ∧
        "a\nc".toList = kept.flatMap fun k => (Text.lines '\n'
          "#if VERSION>=2\na\n#if VERSION>9\nb\n#endif VERSION\n#endif VERSION\nc".toList)[k]?.getD
            [] :=
  have h : filterText 3
      "#if VERSION>=2\na\n#if VERSION>9\nb\n#endif VERSION\n#endif VERSION\nc".toList =
        .ok "a\nc".toList := by rfl
  ⟨h, filterText_eq_flatMap_shown h⟩

end Snapshot
