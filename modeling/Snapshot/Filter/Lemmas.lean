import Snapshot.Filter.Basic

/-!
# What one line does to the filter

How a line of each kind changes the filter, and what holds of every line: it is counted, the version
stays, and the number of open guards changes by at most one. The lines that are emitted from a text
are some of its lines, in their order.
-/

namespace Snapshot.LineFilter

variable {filter : LineFilter} {line : List Char} {lines out : List (List Char)}

theorem feed_of_ordinary (hline : Marker.ofLine line = .ordinary) :
    filter.feed line =
      ({ filter with line := filter.line + 1 },
        .ok (if filter.isEmitting then .emit else .drop)) := by
  simp [feed, hline]

theorem feed_of_opening {guard : Guard} (hline : Marker.ofLine line = .opening guard) :
    filter.feed line =
      ({ filter with
          openGuards :=
            ⟨guard.holds filter.version && filter.isEmitting, filter.line + 1⟩ :: filter.openGuards
          line := filter.line + 1 }, .ok .marker) := by
  simp [feed, hline]

theorem feed_of_closing (hline : Marker.ofLine line = .closing) {innermost : OpenGuard}
    {outer : List OpenGuard} (hopen : filter.openGuards = innermost :: outer) :
    filter.feed line =
      ({ filter with openGuards := outer, line := filter.line + 1 }, .ok .marker) := by
  simp [feed, hline, hopen]

/-- A line that closes nothing leaves no guard open, as none was. -/
theorem feed_of_closing_nil (hline : Marker.ofLine line = .closing)
    (hopen : filter.openGuards = []) :
    filter.feed line =
      ({ filter with line := filter.line + 1 }, .error (.unbalancedEndif (filter.line + 1))) := by
  simp [feed, hline, hopen]

/-- Only a line that closes nothing is refused. -/
theorem eq_of_feed_eq_error {next : LineFilter} {error : FilterError}
    (h : filter.feed line = (next, .error error)) :
    error = .unbalancedEndif (filter.line + 1) := by
  unfold feed at h
  dsimp only at h
  split at h
  · cases h
  · split at h
    · cases h
      rfl
    · cases h
  · cases h

@[simp] theorem line_feed : (filter.feed line).1.line = filter.line + 1 := by
  unfold feed
  split
  · rfl
  · split <;> rfl
  · rfl

@[simp] theorem version_feed : (filter.feed line).1.version = filter.version := by
  unfold feed
  split
  · rfl
  · split <;> rfl
  · rfl

theorem finish_eq_ok_iff : filter.finish = .ok () ↔ filter.depth = 0 := by
  unfold finish depth
  split
  · next h => simp [h]
  · next h => simp [h]

/-- Nothing is emitted that was not fed, and nothing is emitted twice or out of order. -/
theorem emitted_sublist (h : filter.emitted lines = .ok out) : out.Sublist lines := by
  induction lines generalizing filter out with
  | nil =>
      unfold emitted at h
      cases hfinish : filter.finish with
      | error error => simp [hfinish, Except.map] at h
      | ok _ =>
          obtain rfl : [] = out := by simpa [hfinish, Except.map] using h
          exact .slnil
  | cons line rest ih =>
      unfold emitted at h
      split at h
      · cases h
      · next filter' _ =>
          cases hrest : filter'.emitted rest with
          | error error => simp [hrest, Except.map] at h
          | ok others =>
              obtain rfl : line :: others = out := by simpa [hrest, Except.map] using h
              exact (ih hrest).cons_cons line
      · exact (ih h).cons line

end Snapshot.LineFilter
