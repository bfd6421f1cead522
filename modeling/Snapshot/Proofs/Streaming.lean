import Mathlib.Order.Basic
import Snapshot.Proofs.Imbalance
import Snapshot.Proofs.Suppression

/-!
# The filter between two lines

A filter can be fed any lines, and it goes on after it has refused one. Its state is told by the
markers of all lines that it was fed: it keeps a frame for each guard that is opened and not closed,
with the line that opened it and whether it and the guards below it hold. A line that closes no
guard is refused and counted, and changes nothing else, so the filter comes to the same state and
answers the other lines alike if an ordinary line stands in its place.
-/

namespace Snapshot

namespace Marker

/-- The guards that are opened and not closed, with their places, in the order of their opening. -/
structure LeavesOpen (markers : List Marker) (opened : List (Nat × Guard)) : Prop where
  unmatched : ∀ first guard, (first, guard) ∈ opened ↔
    markers[first]? = some (.opening guard) ∧ ∀ last, ¬Pairs markers first last guard
  ordered : opened.Pairwise fun below above => below.1 < above.1

/-- The marker at a place closes a guard, but matches none that is opened. -/
def Stray (markers : List Marker) (place : Nat) : Prop :=
  markers[place]? = some .closing ∧ ∀ first guard, ¬Pairs markers first place guard

/-- The lines are the same, except that an ordinary line stands in the place of each one that closes
no guard. -/
structure Mends (lines other : List (List Char)) : Prop where
  kept : ∀ k, ¬Stray (lines.map ofLine) k → other[k]? = lines[k]?
  ordinary : ∀ k, Stray (lines.map ofLine) k → (other.map ofLine)[k]? = some .ordinary

variable {markers : List Marker} {guards : List (Nat × Guard)} {place first : Nat} {guard : Guard}
  {lines other : List (List Char)}

/-! ## Open guards and stray markers -/

/-- A guard that is opened later lies above those that are open. -/
theorem pairwise_openFrom (hguards : guards.Pairwise fun above below => below.1 < above.1)
    (hplaces : ∀ opened ∈ guards, opened.1 < place) :
    (openFrom guards place markers).Pairwise fun above below => below.1 < above.1 := by
  induction markers generalizing guards place with
  | nil => exact hguards
  | cons marker rest ih =>
      have hlater (opened : Nat × Guard) (hopened : opened ∈ guards) : opened.1 < place + 1 :=
        Nat.lt_succ_of_lt (hplaces opened hopened)
      cases marker with
      | ordinary => exact ih hguards hlater
      | closing =>
          exact ih hguards.tail fun opened hmem => hlater opened (List.mem_of_mem_tail hmem)
      | opening guard =>
          refine ih (hguards.cons hplaces) fun opened hmem => ?_
          rcases List.mem_cons.1 hmem with rfl | hmem
          · exact Nat.lt_succ_self place
          · exact hlater opened hmem

theorem leavesOpen_openAfter (markers : List Marker) :
    LeavesOpen markers (openAfter markers).reverse where
  unmatched first guard := by rw [List.mem_reverse, mem_openAfter_iff]
  ordered := List.pairwise_reverse.2 (pairwise_openFrom .nil (by simp))

/-- A marker matches none exactly if no guard is open where it stands. -/
theorem stray_iff :
    Stray markers place ↔
      markers[place]? = some .closing ∧ openAfter (markers.take place) = [] := by
  refine and_congr_right fun hclosing => ⟨fun hunpaired => ?_, fun hnone first guard hpairs => ?_⟩
  · -- what is open innermost is what the marker closes
    cases hopen : openAfter (markers.take place) with
    | nil => rfl
    | cons innermost outer =>
        obtain ⟨before, body, htake, hbody, hfirst, -⟩ := exists_of_openAfter_eq_cons hopen
        obtain ⟨hplace, hmarker⟩ := List.getElem?_eq_some_iff.1 hclosing
        have hmarkers : markers = markers.take place ++ .closing :: markers.drop (place + 1) := by
          rw [← hmarker, List.getElem_cons_drop, List.take_append_drop]
        have hlength := congrArg List.length htake
        rw [List.length_take_of_le (Nat.le_of_lt hplace), List.length_append,
          List.length_cons] at hlength
        rw [htake] at hmarkers
        exact absurd ⟨before, body, markers.drop (place + 1), hmarkers, hbody, hfirst, by omega⟩
          (hunpaired innermost.1 innermost.2)
  · -- what the marker closes is open before it
    obtain ⟨before, body, after, rfl, hbody, -, rfl⟩ := hpairs
    have hlength : (before ++ .opening guard :: body).length = before.length + 1 + body.length := by
      simp only [List.length_append, List.length_cons]
      omega
    rw [← hlength, List.take_left, openAfter, openFrom_append, openFrom, hbody.openFrom_eq] at hnone
    cases hnone

theorem Mends.openAfter_take (h : Mends lines other) (k : Nat) :
    openAfter ((other.map ofLine).take k) = openAfter ((lines.map ofLine).take k) := by
  induction k with
  | zero => simp
  | succ k ih =>
      by_cases hstray : Stray (lines.map ofLine) k
      · -- neither the stray marker nor the ordinary one changes that no guard is open
        obtain ⟨hclosing, hnone⟩ := stray_iff.1 hstray
        rw [openAfter_take_succ (h.ordinary k hstray), openAfter_take_succ hclosing, ih, hnone]
        rfl
      · have hsame : (other.map ofLine)[k]? = (lines.map ofLine)[k]? := by
          rw [List.getElem?_map, List.getElem?_map, h.kept k hstray]
        cases hmarker : (lines.map ofLine)[k]? with
        | some marker =>
            rw [openAfter_take_succ hmarker, openAfter_take_succ (hsame.trans hmarker), ih]
        | none =>
            rw [List.take_add_one, List.take_add_one, hsame, hmarker]
            simpa using ih

theorem Mends.length_eq (h : Mends lines other) : other.length = lines.length := by
  refine eq_of_forall_lt_iff fun k => ?_
  by_cases hstray : Stray (lines.map ofLine) k
  · have hother := (List.getElem?_eq_some_iff.1 (h.ordinary k hstray)).1
    have hline := (List.getElem?_eq_some_iff.1 hstray.1).1
    rw [List.length_map] at hother hline
    exact iff_of_true hother hline
  · rw [← not_le, ← List.getElem?_eq_none_iff, h.kept k hstray, List.getElem?_eq_none_iff, not_le]

/-- Every sequence of lines can be mended. -/
theorem exists_mends (lines : List (List Char)) : ∃ other, Mends lines other := by
  classical
  refine ⟨lines.mapIdx fun k line => if Stray (lines.map ofLine) k then ['\n'] else line,
    fun k hkept => ?_, fun k hstray => ?_⟩
  · rw [List.getElem?_mapIdx]
    simp [hkept]
  · have hline := (List.getElem?_eq_some_iff.1 hstray.1).1
    rw [List.length_map] at hline
    rw [List.getElem?_map, List.getElem?_mapIdx, List.getElem?_eq_getElem hline, Option.map_some,
      Option.map_some, if_pos hstray]
    rfl

end Marker

namespace LineFilter

open Marker

/-- The frames of the filter, outermost first: that of the text outside all guards, which is
emitted, and above it those of the open guards in the order of their opening. -/
def stack (filter : LineFilter) : List OpenGuard :=
  { emits := true, line := 0 } :: filter.openGuards.reverse

/-- What the filter answers to each line when all of them are fed, also after one is refused. -/
def answers (filter : LineFilter) : List (List Char) → List (Except FilterError Action)
  | [] => []
  | line :: rest => (filter.feed line).2 :: (filter.feed line).1.answers rest

/-- The frames of guards that are given in the order of their opening. Each tells whether its guard
and those below it hold, and the line of its guard, counted from one. -/
def stackFrames (version : Int64) (opened : List (Nat × Guard)) : List OpenGuard :=
  opened.mapIdx fun below guard =>
    { emits := (opened.take (below + 1)).all (·.2.holds version), line := guard.1 + 1 }

/-- What the filter is between two lines, told by the markers of all lines that it was fed. -/
structure Tracks (filter : LineFilter) (version : Int64) (markers : List Marker) : Prop where
  line_eq : filter.line = markers.length
  stack_eq : ∃ opened, LeavesOpen markers opened ∧ filter.depth = opened.length ∧
    filter.stack = { emits := true, line := 0 } :: stackFrames version opened
  depth_eq : filter.stack.length = filter.depth + 1
  isEmitting_eq : filter.stack.getLast?.map (·.emits) = some filter.isEmitting
  line_lt : filter.stack.Pairwise fun below above => below.line < above.line
  emits_below : filter.stack.Pairwise fun below above => above.emits → below.emits

variable {version : Int64} {guards : List (Nat × Guard)} {place : Nat} {line : List Char}
  {lines other : List (List Char)} {error : FilterError}

/-! ## One line -/

/-- A line changes the open guards as its marker does, also if it is refused. -/
theorem after_feed_reading (version : Int64) (guards : List (Nat × Guard)) (place : Nat)
    (line : List Char) :
    ((reading version guards place).feed line).1 =
      reading version ((Marker.ofLine line).openNext guards place) (place + 1) := by
  rcases stray_or_open line guards with ⟨hline, rfl⟩ | hopen
  · rw [feed_reading_nil hline, hline]
    rfl
  · rw [feed_reading hopen]

/-- A line is refused exactly if it closes a guard and none is open. -/
theorem feed_reading_eq_error_iff :
    ((reading version guards place).feed line).2 = .error error ↔
      Marker.ofLine line = .closing ∧ guards = [] ∧ error = .unbalancedEndif (place + 1) := by
  rcases stray_or_open line guards with ⟨hline, rfl⟩ | hopen
  · simp [feed_reading_nil hline, hline, eq_comm]
  · rw [feed_reading hopen]
    exact iff_of_false (by simp) fun h => hopen h.1 h.2.1

/-! ## All lines -/

theorem after_reading (version : Int64) (guards : List (Nat × Guard)) (place : Nat)
    (lines : List (List Char)) :
    (reading version guards place).after lines =
      reading version (openFrom guards place (lines.map Marker.ofLine)) (place + lines.length) := by
  induction lines generalizing guards place with
  | nil => rfl
  | cons line rest ih =>
      have hplace : place + (line :: rest).length = place + 1 + rest.length := by
        rw [List.length_cons]
        omega
      rw [after, List.foldl_cons, after_feed_reading, hplace]
      exact ih _ _

theorem after_start (version : Int64) (lines : List (List Char)) :
    (start version).after lines =
      reading version (openAfter (lines.map Marker.ofLine)) lines.length := by
  rw [start_eq_reading, after_reading, Nat.zero_add, openAfter]

/-- A line is answered in the state that the lines before it lead to. -/
theorem getElem?_answers (filter : LineFilter) (lines : List (List Char)) (k : Nat) :
    (filter.answers lines)[k]? =
      lines[k]?.map fun line => ((filter.after (lines.take k)).feed line).2 := by
  induction lines generalizing filter k with
  | nil => rfl
  | cons line rest ih =>
      cases k with
      | zero => rfl
      | succ k => exact ih _ k

theorem answers_start_eq_error_iff {k : Nat} :
    ((start version).answers lines)[k]? = some (.error error) ↔
      Stray (lines.map Marker.ofLine) k ∧ error = .unbalancedEndif (k + 1) := by
  rw [getElem?_answers, stray_iff, List.getElem?_map]
  cases hline : lines[k]? with
  | none => simp
  | some line =>
      have hlength : (lines.take k).length = k :=
        List.length_take_of_le (Nat.le_of_lt (List.getElem?_eq_some_iff.1 hline).1)
      rw [Option.map_some, Option.some_inj, after_start, feed_reading_eq_error_iff, hlength,
        List.map_take, Option.map_some, Option.some_inj, and_assoc]

/-! ## The stack -/

theorem length_frames (version : Int64) (guards : List (Nat × Guard)) :
    (frames version guards).length = guards.length := by
  induction guards with
  | nil => rfl
  | cons innermost outer ih => exact congrArg (· + 1) ih

/-- The frames that the filter keeps, innermost first, are those of the stack. -/
theorem reverse_frames (version : Int64) (guards : List (Nat × Guard)) :
    (frames version guards).reverse = stackFrames version guards.reverse := by
  induction guards with
  | nil => rfl
  | cons innermost outer ih =>
      rw [frames, List.reverse_cons, ih, List.reverse_cons, stackFrames, stackFrames,
        List.mapIdx_concat]
      congr 1
      · -- the guard that is opened last lies below none of the others
        refine List.mapIdx_eq_mapIdx_iff.2 fun below hbelow => ?_
        rw [List.take_append_of_le_length hbelow]
      · rw [List.take_of_length_le (by simp), List.all_append, List.all_reverse, Bool.and_comm]
        simp

/-- The lines of the frames rise, and above a frame that does not emit none does. -/
theorem pairwise_stackFrames (version : Int64) {opened : List (Nat × Guard)}
    (hopened : opened.Pairwise fun below above => below.1 < above.1) :
    (stackFrames version opened).Pairwise
      fun below above => below.line < above.line ∧ (above.emits → below.emits) := by
  unfold stackFrames
  refine List.pairwise_iff_getElem.2 fun i j hi hj hij => ?_
  rw [List.length_mapIdx] at hi hj
  rw [List.getElem_mapIdx, List.getElem_mapIdx]
  refine ⟨Nat.succ_lt_succ (List.pairwise_iff_getElem.1 hopened i j hi hj hij), fun habove => ?_⟩
  have hfewer : opened.take (i + 1) ⊆ opened.take (j + 1) :=
    List.take_subset_take_left opened (by omega)
  exact List.all_eq_true.2 fun guard hmem => List.all_eq_true.1 habove guard (hfewer hmem)

theorem isEmitting_eq_getLast (filter : LineFilter) :
    filter.stack.getLast?.map (·.emits) = some filter.isEmitting := by
  unfold isEmitting stack
  cases filter.openGuards with
  | nil => rfl
  | cons innermost outer =>
      rw [List.reverse_cons, ← List.cons_append, List.getLast?_concat]
      rfl

theorem tracks_after_start (version : Int64) (lines : List (List Char)) :
    ((start version).after lines).Tracks version (lines.map Marker.ofLine) := by
  have hleaves := leavesOpen_openAfter (lines.map Marker.ofLine)
  have hstack : ((start version).after lines).stack = { emits := true, line := 0 } ::
      stackFrames version (openAfter (lines.map Marker.ofLine)).reverse := by
    rw [← reverse_frames, after_start]
    rfl
  have hpairwise := pairwise_stackFrames version hleaves.ordered
  constructor
  · rw [after_start, List.length_map]
    rfl
  · refine ⟨_, hleaves, ?_, hstack⟩
    rw [after_start, List.length_reverse]
    exact length_frames version _
  · simp [stack, depth]
  · exact isEmitting_eq_getLast _
  · rw [hstack]
    refine (hpairwise.imp And.left).cons fun above habove => ?_
    obtain ⟨below, hbelow, rfl⟩ := List.mem_mapIdx.1 habove
    exact Nat.succ_pos _
  · rw [hstack]
    exact (hpairwise.imp And.right).cons fun _ _ _ => rfl

/-- A line that closes no guard leaves the stack as it was. -/
theorem stack_after_stray {k : Nat} (hstray : Stray (lines.map Marker.ofLine) k) :
    ((start version).after (lines.take (k + 1))).stack =
      ((start version).after (lines.take k)).stack := by
  obtain ⟨hclosing, hnone⟩ := stray_iff.1 hstray
  rw [after_start, after_start, List.map_take, List.map_take, openAfter_take_succ hclosing, hnone]
  rfl

/-- Where no guard is closed that is not open, the lines can be ordinary as well. -/
theorem after_of_mends (h : Mends lines other) :
    (start version).after other = (start version).after lines := by
  have hopen := h.openAfter_take other.length
  rw [List.take_of_length_le (by simp), List.take_of_length_le (by simp [h.length_eq])] at hopen
  rw [after_start, after_start, hopen, h.length_eq]

theorem answers_of_mends (h : Mends lines other) {k : Nat}
    (hkept : ¬Stray (lines.map Marker.ofLine) k) :
    ((start version).answers other)[k]? = ((start version).answers lines)[k]? := by
  have hbefore : (start version).after (other.take k) = (start version).after (lines.take k) := by
    have hopen := h.openAfter_take k
    rw [← List.map_take, ← List.map_take] at hopen
    rw [after_start, after_start, hopen, List.length_take, List.length_take, h.length_eq]
  rw [getElem?_answers, getElem?_answers, hbefore, h.kept k hkept]

/-- What a filter is and answers, whatever it has been fed. Its stack has a frame for each guard
that is opened and not closed. Exactly the lines that close no guard are refused, and they leave the
stack as it was; with ordinary lines in their places the filter comes to the same and answers all
other lines alike. -/
theorem after_tracks_unmatched (version : Int64) (lines : List (List Char)) :
    ((start version).after lines).Tracks version (lines.map Marker.ofLine) ∧
    (∀ k, Stray (lines.map Marker.ofLine) k ↔
      (lines.map Marker.ofLine)[k]? = some .closing ∧
        ((start version).after (lines.take k)).depth = 0) ∧
    (∀ k error, ((start version).answers lines)[k]? = some (.error error) ↔
      Stray (lines.map Marker.ofLine) k ∧ error = .unbalancedEndif (k + 1)) ∧
    (∀ k, Stray (lines.map Marker.ofLine) k →
      ((start version).after (lines.take (k + 1))).stack =
        ((start version).after (lines.take k)).stack) ∧
    (∃ other, Mends lines other) ∧
    ∀ other, Mends lines other →
      (start version).after other = (start version).after lines ∧
        ∀ k, ¬Stray (lines.map Marker.ofLine) k →
          ((start version).answers other)[k]? = ((start version).answers lines)[k]? := by
  refine ⟨tracks_after_start version lines, fun k => ?_, fun k error => answers_start_eq_error_iff,
    fun k => stack_after_stray, exists_mends lines,
    fun other hmends => ⟨after_of_mends hmends, fun k => answers_of_mends hmends⟩⟩
  rw [stray_iff, after_start, depth, List.map_take, reading, length_frames,
    List.length_eq_zero_iff]

/-- The first line is refused, and the guard that is opened after it is closed as it should be. -/
example : (start 2).answers ["#endif VERSION\n".toList, "#if VERSION > 2\n".toList, "b\n".toList,
    "#endif VERSION\n".toList, "c".toList] =
      [.error (.unbalancedEndif 1), .ok .marker, .ok .drop, .ok .marker, .ok .emit] := by rfl

end LineFilter

end Snapshot
