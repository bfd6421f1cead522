import Mathlib.Data.Nat.Find
import Snapshot.Proofs.Emission

/-!
# Which texts are refused

A text is refused if its markers do not pair up, and the version has no part in it. Two counts tell
where: the first line up to which more guards are closed than were opened is the one that is
refused. If there is none but guards are left open at the end, the text is refused for the last one
that no marker closes.
-/

namespace Snapshot

namespace Marker

def isOpening : Marker → Bool
  | .opening _ => true
  | _ => false

/-- How many guards the markers open. -/
def openings (markers : List Marker) : Nat :=
  markers.countP isOpening

/-- How many guards the markers close, or try to. -/
def closings (markers : List Marker) : Nat :=
  markers.count .closing

/-- The markers close more guards than they open and were open before. -/
def Overclosed (depth : Nat) (markers : List Marker) : Prop :=
  depth + openings markers < closings markers

/-- Some markers at the front close more guards than are open, and fewer of them do not. -/
def OverclosedFirst (depth : Nat) (markers : List Marker) (count : Nat) : Prop :=
  Overclosed depth (markers.take count) ∧
    ∀ fewer, fewer < count → ¬Overclosed depth (markers.take fewer)

/-- The marker at a place opens a guard that none closes. -/
def Unmatched (markers : List Marker) (first : Nat) : Prop :=
  ∃ guard, markers[first]? = some (.opening guard) ∧ ∀ last, ¬Pairs markers first last guard

/-- The marker at a place is the last one that opens a guard which none closes. -/
structure LastUnmatched (markers : List Marker) (first : Nat) : Prop where
  unmatched : Unmatched markers first
  last : ∀ {later}, Unmatched markers later → later ≤ first

variable {markers : List Marker} {marker : Marker} {guards outer : List (Nat × Guard)}
  {guard : Guard} {depth place first count : Nat}

/-! ## Open guards and unmatched markers -/

/-- A guard that is open after some markers was open before them, or one of them has opened it. -/
theorem getElem?_of_mem_openFrom (h : (first, guard) ∈ openFrom guards place markers) :
    (first, guard) ∈ guards ∨
      place ≤ first ∧ markers[first - place]? = some (.opening guard) := by
  induction markers generalizing guards place with
  | nil => exact .inl h
  | cons marker rest ih =>
      rcases ih h with hmem | ⟨hplace, hopened⟩
      · cases marker with
        | opening opened =>
            rcases List.mem_cons.1 hmem with heq | hmem
            · cases heq
              exact .inr ⟨Nat.le_refl _, by simp⟩
            · exact .inl hmem
        | closing => exact .inl (List.mem_of_mem_tail hmem)
        | ordinary => exact .inl hmem
      · have hindex : first - place = first - (place + 1) + 1 := by omega
        refine .inr ⟨by omega, ?_⟩
        rw [hindex, List.getElem?_cons_succ]
        exact hopened

/-- A guard that was closed is not open afterwards. -/
theorem not_mem_openAfter_of_pairs {last : Nat} (h : Pairs markers first last guard) :
    (first, guard) ∉ openAfter markers := by
  obtain ⟨before, body, after, rfl, hbody, rfl, -⟩ := h
  intro hopen
  rw [openAfter, List.append_assoc, openFrom_append, List.cons_append, openFrom, openFrom_append,
    hbody.openFrom_eq, openFrom] at hopen
  rcases getElem?_of_mem_openFrom hopen with hmem | ⟨hplace, -⟩
  · exact Nat.lt_irrefl _ (lt_of_mem_openAfter hmem)
  · omega

/-- A guard is open at the end if one of the markers opens it and none closes it. -/
theorem mem_openAfter_iff :
    (first, guard) ∈ openAfter markers ↔
      markers[first]? = some (.opening guard) ∧ ∀ last, ¬Pairs markers first last guard := by
  constructor
  · intro hopen
    rcases getElem?_of_mem_openFrom hopen with hmem | ⟨-, hopening⟩
    · cases hmem
    · exact ⟨hopening, fun last hpairs => not_mem_openAfter_of_pairs hpairs hopen⟩
  · rintro ⟨hopening, hunpaired⟩
    by_contra hclosed
    have hopen : (first, guard) ∈ openAfter (markers.take (first + 1)) := by
      rw [openAfter_take_succ hopening]
      exact List.mem_cons_self
    rw [← List.take_append_drop (first + 1) markers] at hclosed
    obtain ⟨last, -, hpairs⟩ := exists_pairs_of_not_mem hopen hclosed
    rw [List.take_append_drop] at hpairs
    exact hunpaired last hpairs

/-- The unmatched markers are those that have opened the guards which are open at the end. -/
theorem unmatched_iff : Unmatched markers first ↔ ∃ guard, (first, guard) ∈ openAfter markers :=
  exists_congr fun _ => mem_openAfter_iff.symm

/-- The innermost guard that is open at the end was opened last. -/
theorem lastUnmatched_of_openAfter (h : openAfter markers = (first, guard) :: outer) :
    LastUnmatched markers first := by
  refine ⟨unmatched_iff.2 ⟨guard, by simp [h]⟩, fun {later} hlater => ?_⟩
  obtain ⟨other, hother⟩ := unmatched_iff.1 hlater
  obtain ⟨before, body, -, -, rfl, houter⟩ := exists_of_openAfter_eq_cons h
  rw [h] at hother
  rcases List.mem_cons.1 hother with heq | hmem
  · cases heq
    exact Nat.le_refl _
  · rw [← houter] at hmem
    exact Nat.le_of_lt (lt_of_mem_openAfter hmem)

theorem LastUnmatched.unique {other : Nat} (h : LastUnmatched markers first)
    (hother : LastUnmatched markers other) : first = other :=
  Nat.le_antisymm (hother.last h.unmatched) (h.last hother.unmatched)

/-! ## Counting -/

@[simp] theorem openings_nil : openings [] = 0 := rfl

@[simp] theorem closings_nil : closings [] = 0 := rfl

@[simp] theorem openings_cons (marker : Marker) (markers : List Marker) :
    openings (marker :: markers) = openings markers + if marker.isOpening then 1 else 0 := by
  rw [openings, List.countP_cons, openings]

@[simp] theorem closings_cons (marker : Marker) (markers : List Marker) :
    closings (marker :: markers) = closings markers + if marker = .closing then 1 else 0 := by
  simp [closings, List.count_cons]

theorem not_overclosed_nil : ¬Overclosed depth [] := by
  simp [Overclosed]

/-- A marker shifts the counts as it changes the number of open guards. -/
theorem overclosed_cons_iff (hopen : marker = .closing → guards ≠ []) :
    Overclosed guards.length (marker :: markers) ↔
      Overclosed (marker.openNext guards place).length markers := by
  unfold Overclosed
  cases marker with
  | ordinary => simp [openNext, isOpening]
  | opening guard =>
      simp [openNext, isOpening]
      omega
  | closing =>
      have hlength := List.length_pos_iff.2 (hopen rfl)
      simp [openNext, isOpening]
      omega

theorem overclosedFirst_succ_iff (hopen : marker = .closing → guards ≠ []) :
    OverclosedFirst guards.length (marker :: markers) (count + 1) ↔
      OverclosedFirst (marker.openNext guards place).length markers count := by
  unfold OverclosedFirst
  rw [List.take_succ_cons, overclosed_cons_iff hopen]
  refine and_congr_right fun _ => ⟨fun h fewer hfewer => ?_, fun h fewer hfewer => ?_⟩
  · have hshifted := h (fewer + 1) (Nat.succ_lt_succ hfewer)
    rwa [List.take_succ_cons, overclosed_cons_iff hopen] at hshifted
  · cases fewer with
    | zero => exact not_overclosed_nil
    | succ fewer =>
        rw [List.take_succ_cons, overclosed_cons_iff hopen]
        exact h fewer (Nat.lt_of_succ_lt_succ hfewer)

/-- Where no guard is open, one closing marker is too many. -/
theorem overclosedFirst_stray_iff :
    OverclosedFirst 0 (.closing :: markers) count ↔ count = 1 := by
  have hone : Overclosed 0 ((.closing :: markers).take 1) := by simp [Overclosed, isOpening]
  constructor
  · rintro ⟨hover, hfirst⟩
    by_contra hcount
    rcases Nat.lt_or_gt_of_ne hcount with hless | hmore
    · obtain rfl : count = 0 := by omega
      exact not_overclosed_nil hover
    · exact hfirst 1 hmore hone
  · rintro rfl
    refine ⟨hone, fun fewer hfewer => ?_⟩
    obtain rfl : fewer = 0 := by omega
    exact not_overclosed_nil

/-- Either some markers at the front are the first to close too many guards, or none do. -/
theorem exists_overclosedFirst_or (depth : Nat) (markers : List Marker) :
    (∃ count, OverclosedFirst depth markers count) ∨
      ∀ count, ¬Overclosed depth (markers.take count) := by
  classical
  by_cases h : ∃ count, Overclosed depth (markers.take count)
  · exact .inl ⟨Nat.find h, Nat.find_spec h, fun _ hfewer => Nat.find_min h hfewer⟩
  · exact .inr (not_exists.1 h)

/-- If never too many guards are closed, those that are left open are the rest of the count. -/
theorem length_openFrom (h : ∀ count, ¬Overclosed guards.length (markers.take count)) :
    (openFrom guards place markers).length + closings markers =
      guards.length + openings markers := by
  induction markers generalizing guards place with
  | nil => rfl
  | cons marker rest ih =>
      have hopen : marker = .closing → guards ≠ [] := by
        rintro rfl rfl
        exact h 1 (by simp [Overclosed, isOpening])
      have hrest (count : Nat) :
          ¬Overclosed (marker.openNext guards place).length (rest.take count) := by
        rw [← overclosed_cons_iff hopen, ← List.take_succ_cons]
        exact h (count + 1)
      have hlength : (openFrom (marker.openNext guards place) (place + 1) rest).length +
          closings rest = (marker.openNext guards place).length + openings rest := ih hrest
      rw [openFrom, openings_cons, closings_cons]
      cases marker with
      | ordinary => simpa [openNext, isOpening] using hlength
      | opening guard =>
          simp [openNext, isOpening] at hlength ⊢
          omega
      | closing =>
          have hpos := List.length_pos_iff.2 (hopen rfl)
          simp [openNext, isOpening] at hlength ⊢
          omega

theorem length_openAfter (h : ∀ count, ¬Overclosed 0 (markers.take count)) :
    (openAfter markers).length + closings markers = openings markers := by
  have hlength : (openFrom [] 0 markers).length + closings markers = 0 + openings markers :=
    length_openFrom h
  rwa [Nat.zero_add] at hlength

end Marker

namespace LineFilter

open Marker

/-- Whether lines are accepted, or why they are not. -/
def check (filter : LineFilter) (lines : List (List Char)) : Except FilterError Unit :=
  (filter.emitted lines).map fun _ => ()

variable {version : Int64} {guards : List (Nat × Guard)} {place n : Nat} {line : List Char}
  {lines : List (List Char)}

theorem check_reading_nil :
    (reading version guards place).check [] = (reading version guards place).finish := by
  rw [check, emitted]
  cases (reading version guards place).finish <;> rfl

theorem check_reading_stray (hline : Marker.ofLine line = .closing) :
    (reading version [] place).check (line :: lines) =
      .error (.unbalancedEndif (place + 1)) := by
  rw [check, emitted, feed_reading_nil hline]
  rfl

/-- A line that is not refused leaves the decision to the lines after it. -/
theorem check_reading_cons (hopen : Marker.ofLine line = .closing → guards ≠ []) :
    (reading version guards place).check (line :: lines) =
      (reading version ((Marker.ofLine line).openNext guards place) (place + 1)).check lines := by
  rw [check, emitted_reading_cons hopen, check]
  cases (reading version ((Marker.ofLine line).openNext guards place) (place + 1)).emitted lines
    <;> rfl

theorem check_eq_unbalanced_iff :
    (reading version guards place).check lines = .error (.unbalancedEndif n) ↔
      ∃ count, n = place + count ∧
        OverclosedFirst guards.length (lines.map Marker.ofLine) count := by
  induction lines generalizing guards place with
  | nil =>
      rw [check_reading_nil]
      constructor
      · intro h
        unfold finish at h
        split at h <;> cases h
      · rintro ⟨count, -, hover, -⟩
        rw [List.map_nil, List.take_nil] at hover
        exact absurd hover not_overclosed_nil
  | cons line rest ih =>
      rcases stray_or_open line guards with ⟨hline, rfl⟩ | hopen
      · rw [check_reading_stray hline, List.map_cons, hline]
        simp only [List.length_nil, overclosedFirst_stray_iff]
        simp [eq_comm]
      · rw [check_reading_cons hopen, ih, List.map_cons]
        constructor
        · rintro ⟨count, rfl, hfirst⟩
          exact ⟨count + 1, by omega, (overclosedFirst_succ_iff hopen).2 hfirst⟩
        · rintro ⟨count, rfl, hfirst⟩
          cases count with
          | zero => exact absurd hfirst.1 not_overclosed_nil
          | succ count =>
              exact ⟨count, by omega, (overclosedFirst_succ_iff hopen).1 hfirst⟩

/-- Lines that never close too many guards are judged by the guards that they leave open. -/
theorem check_eq_finish
    (h : ∀ count, ¬Overclosed guards.length ((lines.map Marker.ofLine).take count)) :
    (reading version guards place).check lines =
      (reading version (openFrom guards place (lines.map Marker.ofLine))
        (place + lines.length)).finish := by
  induction lines generalizing guards place with
  | nil => exact check_reading_nil
  | cons line rest ih =>
      have hopen : Marker.ofLine line = .closing → guards ≠ [] := by
        rintro hline rfl
        exact h 1 (by simp [Overclosed, hline, isOpening])
      have hrest (count : Nat) :
          ¬Overclosed ((Marker.ofLine line).openNext guards place).length
            ((rest.map Marker.ofLine).take count) := by
        rw [← overclosed_cons_iff hopen, ← List.take_succ_cons]
        exact h (count + 1)
      rw [check_reading_cons hopen, ih hrest]
      have hplace : place + 1 + rest.length = place + (line :: rest).length := by
        rw [List.length_cons]
        omega
      rw [hplace]
      rfl

/-- The guard that is refused at the end is the innermost one that is open. -/
theorem finish_reading_eq_unclosed_iff :
    (reading version guards place).finish = .error (.unclosedEndif n) ↔
      ∃ first guard outer, guards = (first, guard) :: outer ∧ n = first + 1 := by
  cases guards with
  | nil => simp [finish, reading, frames]
  | cons innermost outer => simp [finish, reading, frames, eq_comm, Prod.ext_iff]

theorem finish_reading_eq_ok_iff :
    (reading version guards place).finish = .ok () ↔ guards = [] := by
  cases guards with
  | nil => simp [finish, reading, frames]
  | cons innermost outer => simp [finish, reading, frames]

/-- If never too many guards are closed, those that are open decide at the end. -/
theorem check_eq_finish_openAfter
    (h : ∀ count, ¬Overclosed 0 ((lines.map Marker.ofLine).take count)) :
    (reading version [] 0).check lines =
      (reading version (openAfter (lines.map Marker.ofLine)) (0 + lines.length)).finish :=
  check_eq_finish h

theorem check_eq_unclosed_iff :
    (reading version [] 0).check lines = .error (.unclosedEndif n) ↔
      (∀ count, ¬Overclosed 0 ((lines.map Marker.ofLine).take count)) ∧
        closings (lines.map Marker.ofLine) < openings (lines.map Marker.ofLine) ∧
        ∃ first, LastUnmatched (lines.map Marker.ofLine) first ∧ n = first + 1 := by
  rcases exists_overclosedFirst_or 0 (lines.map Marker.ofLine) with ⟨count, hfirst⟩ | hnever
  · -- the lines are refused before their end
    have hrefused : (reading version [] 0).check lines = .error (.unbalancedEndif count) :=
      check_eq_unbalanced_iff.2 ⟨count, (Nat.zero_add count).symm, hfirst⟩
    rw [hrefused]
    exact iff_of_false (by simp) fun h => h.1 count hfirst.1
  · have hlength := length_openAfter hnever
    rw [check_eq_finish_openAfter hnever, finish_reading_eq_unclosed_iff, and_iff_right hnever]
    constructor
    · rintro ⟨first, guard, outer, hopen, rfl⟩
      rw [hopen, List.length_cons] at hlength
      exact ⟨by omega, first, lastUnmatched_of_openAfter hopen, rfl⟩
    · rintro ⟨hfewer, first, hlast, rfl⟩
      cases hopen : openAfter (lines.map Marker.ofLine) with
      | nil =>
          rw [hopen, List.length_nil] at hlength
          omega
      | cons innermost outer =>
          obtain rfl := hlast.unique (lastUnmatched_of_openAfter hopen)
          exact ⟨_, _, _, rfl, rfl⟩

end LineFilter

/-! ## Texts -/

section Texts

open Marker LineFilter

variable {version : Int64} {text : List Char} {n : Nat}

/-- The markers of the lines of a text, in their order. -/
def Marker.ofText (text : List Char) : List Marker :=
  (Text.lines '\n' text).map Marker.ofLine

theorem map_filterText (version : Int64) (text : List Char) :
    (filterText version text).map (fun _ => ()) =
      (reading version [] 0).check (Text.lines '\n' text) := by
  rw [filterText, start_eq_reading, check]
  cases (reading version [] 0).emitted (Text.lines '\n' text) <;> rfl

theorem filterText_eq_error_iff {error : FilterError} :
    filterText version text = .error error ↔
      (reading version [] 0).check (Text.lines '\n' text) = .error error := by
  rw [← map_filterText]
  cases filterText version text <;> simp [Except.map]

theorem exists_filterText_eq_ok_iff :
    (∃ out, filterText version text = .ok out) ↔
      (reading version [] 0).check (Text.lines '\n' text) = .ok () := by
  rw [← map_filterText]
  cases filterText version text <;> simp [Except.map]

theorem filterText_eq_unbalanced_iff :
    filterText version text = .error (.unbalancedEndif n) ↔ OverclosedFirst 0 (ofText text) n := by
  rw [filterText_eq_error_iff, check_eq_unbalanced_iff]
  simp [ofText]

theorem filterText_eq_unclosed_iff :
    filterText version text = .error (.unclosedEndif n) ↔
      (∀ count, ¬Overclosed 0 ((ofText text).take count)) ∧
        closings (ofText text) < openings (ofText text) ∧
        ∃ first, LastUnmatched (ofText text) first ∧ n = first + 1 := by
  rw [filterText_eq_error_iff, check_eq_unclosed_iff]
  rfl

theorem exists_filterText_eq_ok_iff_counts :
    (∃ out, filterText version text = .ok out) ↔
      (∀ count, ¬Overclosed 0 ((ofText text).take count)) ∧
        ¬closings (ofText text) < openings (ofText text) := by
  rcases exists_overclosedFirst_or 0 (ofText text) with ⟨count, hfirst⟩ | hnever
  · rw [filterText_eq_unbalanced_iff.2 hfirst]
    exact iff_of_false (by simp) fun h => h.1 count hfirst.1
  · have hlength := length_openAfter hnever
    rw [exists_filterText_eq_ok_iff, check_eq_finish_openAfter hnever, finish_reading_eq_ok_iff,
      and_iff_right hnever, ← ofText, ← List.length_eq_zero_iff]
    omega

/-- Whether and why a text is refused is told by its markers alone: at the first line up to which
more guards are closed than opened, or, if there is none, for the last guard that none closes; and
so it is the same for all versions. -/
theorem refusal_of_filterText (version : Int64) (text : List Char) :
    (∀ n, filterText version text = .error (.unbalancedEndif n) ↔
      OverclosedFirst 0 (ofText text) n) ∧
    (∀ n, filterText version text = .error (.unclosedEndif n) ↔
      (∀ count, ¬Overclosed 0 ((ofText text).take count)) ∧
        closings (ofText text) < openings (ofText text) ∧
        ∃ first, LastUnmatched (ofText text) first ∧ n = first + 1) ∧
    ((∃ out, filterText version text = .ok out) ↔
      (∀ count, ¬Overclosed 0 ((ofText text).take count)) ∧
        ¬closings (ofText text) < openings (ofText text)) ∧
    ∀ other : Int64, (filterText other text).map (fun _ => ()) =
      (filterText version text).map fun _ => () := by
  refine ⟨fun n => filterText_eq_unbalanced_iff, fun n => filterText_eq_unclosed_iff,
    exists_filterText_eq_ok_iff_counts, fun other => ?_⟩
  cases hfiltered : filterText version text with
  | ok out =>
      obtain ⟨others, hother⟩ : ∃ others, filterText other text = .ok others :=
        exists_filterText_eq_ok_iff_counts.2 (exists_filterText_eq_ok_iff_counts.1 ⟨out, hfiltered⟩)
      rw [hother]
      rfl
  | error error =>
      have hother : filterText other text = .error error := by
        cases error with
        | unbalancedEndif n =>
            exact filterText_eq_unbalanced_iff.2 (filterText_eq_unbalanced_iff.1 hfiltered)
        | unclosedEndif n =>
            exact filterText_eq_unclosed_iff.2 (filterText_eq_unclosed_iff.1 hfiltered)
      rw [hother]

/-- The guard of the third line is open too, but the one of the fourth line is the last. -/
example : filterText 5
    "#if VERSION > 1\n#endif VERSION\n#if VERSION > 1\n#if VERSION < 9\n".toList =
      .error (.unclosedEndif 4) := by rfl

end Texts

end Snapshot
