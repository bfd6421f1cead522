import Snapshot.Proofs.Emission
import Snapshot.Proofs.Suppression

/-!
# Filtering a text in parts

Whole lines that are accepted on their own come to the same wherever they stand: the filter comes
out of them with the guards that were open before, and has emitted what they come to on their own if
these guards hold. So filtering goes through the parts of a text one after the other, and only the
line of an error tells what stands before. What is left of a text consists of ordinary lines, and
nothing more goes from them.
-/

namespace Snapshot

/-- The same error so many lines later. -/
def FilterError.later (count : Nat) : FilterError → FilterError
  | .unbalancedEndif line => .unbalancedEndif (line + count)
  | .unclosedEndif line => .unclosedEndif (line + count)

namespace Marker

/-- The same open guards, opened so many lines later. -/
def later (count : Nat) (guards : List (Nat × Guard)) : List (Nat × Guard) :=
  guards.map fun opened => (opened.1 + count, opened.2)

variable {marker : Marker} {guards : List (Nat × Guard)} {place : Nat}

theorem openNext_later (marker : Marker) (guards : List (Nat × Guard)) (place count : Nat) :
    marker.openNext (later count guards) (place + count) =
      later count (marker.openNext guards place) := by
  cases marker with
  | ordinary | opening => rfl
  | closing => exact (List.map_tail ..).symm

/-- A marker that closes one of the guards opened above others does nothing to the others. -/
theorem openNext_append (hopen : marker = .closing → guards ≠ []) (outer : List (Nat × Guard)) :
    marker.openNext (guards ++ outer) place = marker.openNext guards place ++ outer := by
  cases marker with
  | ordinary | opening => rfl
  | closing => exact List.tail_append_of_ne_nil (hopen rfl)

end Marker

namespace LineFilter

open Marker

variable {filter : LineFilter} {version : Int64} {guards outer : List (Nat × Guard)}
  {place n : Nat} {marker : Marker} {line : List Char} {lines rest out : List (List Char)}

/-! ## Lines elsewhere -/

theorem verdict_later (version : Int64) (guards : List (Nat × Guard)) (count : Nat)
    (marker : Marker) :
    verdict version (later count guards) marker = verdict version guards marker := by
  cases marker with
  | ordinary => rw [verdict, later, List.all_map, verdict]; rfl
  | opening | closing => rfl

/-- A line is emitted above other guards if it is emitted without them and they hold. -/
theorem verdict_append_eq_emit_iff :
    verdict version (guards ++ outer) marker = .emit ↔
      verdict version guards marker = .emit ∧ outer.all (·.2.holds version) := by
  rw [verdict_eq_emit_iff, verdict_eq_emit_iff, List.all_append, Bool.and_eq_true, and_assoc]

/-- Lines are judged alike wherever they stand, and only the lines of errors are counted from
elsewhere. -/
theorem emitted_later (version : Int64) (guards : List (Nat × Guard)) (place count : Nat)
    (lines : List (List Char)) :
    (reading version (later count guards) (place + count)).emitted lines =
      ((reading version guards place).emitted lines).mapError (·.later count) := by
  induction lines generalizing guards place with
  | nil =>
      cases guards with
      | nil => rfl
      | cons innermost outer =>
          have hline : innermost.1 + count + 1 = innermost.1 + 1 + count := by omega
          simp [emitted, finish, reading, frames, later, FilterError.later, Except.map,
            Except.mapError, hline]
  | cons line rest ih =>
      have hplace : place + count + 1 = place + 1 + count := by omega
      rcases stray_or_open line guards with ⟨hline, rfl⟩ | hopen
      · rw [later, List.map_nil, emitted, feed_reading_nil hline, emitted, feed_reading_nil hline,
          hplace]
        rfl
      · have hlater : Marker.ofLine line = .closing → later count guards ≠ [] :=
          fun hline hnone => hopen hline (List.map_eq_nil_iff.1 hnone)
        rw [emitted_reading_cons hlater, emitted_reading_cons hopen, openNext_later, verdict_later,
          hplace, ih]
        cases (reading version ((Marker.ofLine line).openNext guards place)
          (place + 1)).emitted rest <;> rfl

/-- Lines that are accepted on their own do above other guards what they do on their own, if these
hold, and the lines after them are read with these guards. -/
theorem emitted_append_of_ok (h : (reading version guards place).emitted lines = .ok out) :
    (reading version (guards ++ outer) place).emitted (lines ++ rest) =
      ((reading version outer (place + lines.length)).emitted rest).map
        ((if outer.all (·.2.holds version) then out else []) ++ ·) := by
  induction lines generalizing guards place out with
  | nil =>
      obtain ⟨rfl, rfl⟩ := emitted_nil_eq_ok_iff.1 h
      rw [ite_self]
      exact (congrFun Except.map_id _).symm
  | cons line lines ih =>
      obtain ⟨hopen, others, hothers, rfl⟩ := emitted_cons_eq_ok_iff.1 h
      have hlength : place + 1 + lines.length = place + (line :: lines).length := by
        rw [List.length_cons]
        omega
      have happend : Marker.ofLine line = .closing → guards ++ outer ≠ [] :=
        fun hline => List.append_ne_nil_of_left_ne_nil (hopen hline) outer
      rw [List.cons_append, emitted_reading_cons happend, openNext_append hopen, ih hothers,
        hlength]
      simp only [verdict_append_eq_emit_iff]
      cases (reading version outer (place + (line :: lines).length)).emitted rest with
      | error error => rfl
      | ok more =>
          by_cases houter : outer.all (·.2.holds version)
          · simp only [houter, and_true, if_true]
            split <;> rfl
          · simp only [houter, and_false, if_false, Bool.false_eq_true]
            rfl

/-- Between the markers of a guard, accepted lines come to what they come to on their own, or to
nothing. -/
theorem emitted_group_of_ok {opener closer : List Char} {guard : Guard}
    (hopener : Marker.ofLine opener = .opening guard) (hcloser : Marker.ofLine closer = .closing)
    (h : (reading version [] 0).emitted lines = .ok out) :
    (reading version [] 0).emitted (opener :: (lines ++ [closer])) =
      .ok (if guard.holds version then out else []) := by
  -- inside the guard the lines are read one line further down, and the closing line after them
  have hbody : (reading version [] 1).emitted lines = .ok out := by
    have hlater := emitted_later version [] 0 1 lines
    rw [h] at hlater
    exact hlater
  have hlast : (reading version [(0, guard)] (1 + lines.length)).emitted [closer] = .ok [] := by
    refine emitted_cons_eq_ok_iff.2 ⟨by simp, [], emitted_nil_eq_ok_iff.2 ⟨?_, rfl⟩, ?_⟩
    · rw [hcloser]
      rfl
    · rw [hcloser]
      rfl
  have hinside : (reading version ([] ++ [(0, guard)]) 1).emitted (lines ++ [closer]) = _ :=
    emitted_append_of_ok hbody
  have hguards : (Marker.ofLine opener).openNext [] 0 = [(0, guard)] := by
    rw [hopener]
    rfl
  refine emitted_cons_eq_ok_iff.2
    ⟨by simp [hopener], if guard.holds version then out else [], ?_, by rw [hopener]; rfl⟩
  rw [hguards]
  rw [hlast] at hinside
  simpa [Except.map] using hinside

/-- A line that closes no guard is refused whatever comes after it. -/
theorem emitted_append_of_unbalanced (h : filter.emitted lines = .error (.unbalancedEndif n)) :
    filter.emitted (lines ++ rest) = .error (.unbalancedEndif n) := by
  induction lines generalizing filter with
  | nil =>
      unfold emitted finish at h
      split at h <;> cases h
  | cons line lines ih =>
      rw [emitted] at h
      rw [List.cons_append, emitted]
      rcases hfeed : filter.feed line with ⟨next, error | action⟩
      · rw [hfeed] at h
        exact h
      · rw [hfeed] at h
        have hnext : next.emitted lines = .error (.unbalancedEndif n) := by
          cases hlines : next.emitted lines with
          | error error => cases action <;> simpa [hlines, Except.map] using h
          | ok others => cases action <;> simp [hlines, Except.map] at h
        cases action with
        | emit =>
            dsimp only
            rw [ih hnext]
            rfl
        | drop | marker => exact ih hnext

/-! ## Lines that are left -/

theorem ordinary_of_mem_emitted (h : (reading version guards place).emitted lines = .ok out)
    (hline : line ∈ out) : Marker.ofLine line = .ordinary := by
  induction lines generalizing guards place out with
  | nil =>
      obtain ⟨-, rfl⟩ := emitted_nil_eq_ok_iff.1 h
      cases hline
  | cons first rest ih =>
      obtain ⟨-, others, hothers, rfl⟩ := emitted_cons_eq_ok_iff.1 h
      split at hline
      · next hverdict =>
          rcases List.mem_cons.1 hline with rfl | hline
          · exact (verdict_eq_emit_iff.1 hverdict).1
          · exact ih hothers hline
      · exact ih hothers hline

theorem emitted_of_ordinary (h : ∀ line ∈ lines, Marker.ofLine line = .ordinary) :
    (reading version [] place).emitted lines = .ok lines := by
  induction lines generalizing place with
  | nil => exact emitted_nil_eq_ok_iff.2 ⟨rfl, rfl⟩
  | cons line rest ih =>
      obtain ⟨hline, hrest⟩ := List.forall_mem_cons.1 h
      refine emitted_cons_eq_ok_iff.2 ⟨by simp [hline], rest, ?_, by rw [hline]; rfl⟩
      rw [hline]
      exact ih hrest

end LineFilter

/-! ## Texts in parts -/

section Texts

open LineFilter

variable {version : Int64} {left right out opener closer : List Char} {guard : Guard} {n : Nat}

/-- A whole line that opens a guard. -/
structure Opens (opener : List Char) (guard : Guard) : Prop where
  isLine : Text.IsLine '\n' opener
  terminated : Text.Terminated '\n' opener
  opening : Marker.ofLine opener = .opening guard

theorem filterText_append_of_ok (hleft : Text.Terminated '\n' left)
    (h : filterText version left = .ok out) :
    filterText version (left ++ right) =
      ((filterText version right).map (out ++ ·)).mapError
        (·.later (Text.lines '\n' left).length) := by
  obtain ⟨lines, hlines, rfl⟩ := filterText_eq_ok_iff.1 h
  have happend : (reading version ([] ++ []) 0).emitted
      (Text.lines '\n' left ++ Text.lines '\n' right) = _ := emitted_append_of_ok hlines
  have hright : (reading version (Marker.later (Text.lines '\n' left).length [])
      (0 + (Text.lines '\n' left).length)).emitted (Text.lines '\n' right) = _ :=
    emitted_later version [] 0 _ _
  rw [filterText, filterText, Text.lines_append hleft, start_eq_reading]
  rw [List.append_nil] at happend
  rw [Marker.later, List.map_nil] at hright
  rw [happend, hright]
  cases (reading version [] 0).emitted (Text.lines '\n' right) with
  | error error => rfl
  | ok others => simp [Except.map, Except.mapError]

theorem filterText_append_of_unbalanced (hleft : Text.Terminated '\n' left)
    (h : filterText version left = .error (.unbalancedEndif n)) :
    filterText version (left ++ right) = .error (.unbalancedEndif n) := by
  have hlines : (start version).emitted (Text.lines '\n' left) = .error (.unbalancedEndif n) := by
    rw [filterText] at h
    cases hemitted : (start version).emitted (Text.lines '\n' left) with
    | error error => simpa [hemitted, Except.map] using h
    | ok lines => simp [hemitted, Except.map] at h
  rw [filterText, Text.lines_append hleft, emitted_append_of_unbalanced hlines]
  rfl

/-- A guard around an accepted text hides all that is left of it, or nothing. -/
theorem filterText_group (hleft : Text.Terminated '\n' left)
    (h : filterText version left = .ok out) (hopener : Opens opener guard)
    (hcloser : Closes closer []) :
    filterText version (opener ++ (left ++ closer)) =
      .ok (if guard.holds version then out else []) := by
  obtain ⟨lines, hlines, rfl⟩ := filterText_eq_ok_iff.1 h
  refine filterText_eq_ok_iff.2 ⟨if guard.holds version then lines else [], ?_, by split <;> rfl⟩
  rw [Text.lines_append hopener.terminated, Text.lines_append hleft, hopener.isLine,
    hcloser.isLine]
  exact emitted_group_of_ok hopener.opening hcloser.closing hlines

/-- What comes of the parts of a text tells what comes of the text. After an accepted part the rest
is filtered as on its own, with its lines counted on; a part that closes too many guards is refused
with whatever comes after it; and a guard around an accepted part hides it as a whole or not at all.
-/
theorem filterText_compositional (hleft : Text.Terminated '\n' left) :
    (∀ out, filterText version left = .ok out →
      (∀ right rest, filterText version right = .ok rest →
        filterText version (left ++ right) = .ok (out ++ rest)) ∧
      (∀ right error, filterText version right = .error error →
        filterText version (left ++ right) =
          .error (error.later (Text.lines '\n' left).length)) ∧
      ∀ opener guard closer, Opens opener guard → Closes closer [] →
        filterText version (opener ++ (left ++ closer)) =
          .ok (if guard.holds version then out else [])) ∧
    ∀ n, filterText version left = .error (.unbalancedEndif n) →
      ∀ right, filterText version (left ++ right) = .error (.unbalancedEndif n) := by
  refine ⟨fun out h => ⟨fun right rest hright => ?_, fun right error hright => ?_,
    fun opener guard closer => filterText_group hleft h⟩,
    fun n h right => filterText_append_of_unbalanced hleft h⟩
  · rw [filterText_append_of_ok hleft h, hright]
    rfl
  · rw [filterText_append_of_ok hleft h, hright]
    rfl

/-- A line that closes too much is refused as the fifth after the part, and a guard that does not
hold hides all of the part. -/
theorem filterText_compositional_nested :
    let left := "a\n#if VERSION>9\nb\n#endif VERSION\n".toList
    let closer := "#endif VERSION\n".toList
    Text.Terminated '\n' left ∧ filterText 3 left = .ok "a\n".toList ∧
      filterText 3 (left ++ "c".toList) = .ok "a\nc".toList ∧
      filterText 3 (left ++ closer) = .error (.unbalancedEndif 5) ∧
      filterText 3 ("#if VERSION<2\n".toList ++ (left ++ closer)) = .ok [] := by
  intro left closer
  have hleft : Text.Terminated '\n' left := by decide
  have haccepted : filterText 3 left = .ok "a\n".toList := by rfl
  have hopener : Opens "#if VERSION<2\n".toList ⟨.lt, .within 2⟩ := ⟨rfl, by decide, rfl⟩
  have hcloser : Closes closer [] := ⟨rfl, by decide, rfl⟩
  obtain ⟨hright, herror, hgroup⟩ := (filterText_compositional hleft).1 _ haccepted
  exact ⟨hleft, haccepted, hright "c".toList "c".toList rfl,
    herror closer (.unbalancedEndif 1) rfl, hgroup _ _ _ hopener hcloser⟩

/-- What is left of a text stays as it is for all versions. The emitted lines are the lines of what
they make up together, and all of them are ordinary. -/
theorem filterText_of_filtered {text : List Char} (h : filterText version text = .ok out) :
    (start version).emitted (Text.lines '\n' text) = .ok (Text.lines '\n' out) ∧
      (∀ line ∈ Text.lines '\n' out, Marker.ofLine line = .ordinary) ∧
      ∀ other : Int64, filterText other out = .ok out := by
  obtain ⟨kept, hkept, rfl⟩ := filterText_eq_ok_iff.1 h
  have hsublist := emitted_sublist hkept
  have hordinary (line : List Char) (hline : line ∈ kept) : Marker.ofLine line = .ordinary :=
    ordinary_of_mem_emitted hkept hline
  -- only the last line of the text may lack a newline, so only the last of the emitted ones may
  have hlines : Text.lines '\n' kept.flatten = kept :=
    Text.lines_flatten (fun line hline => Text.isLine_of_mem_lines (hsublist.subset hline))
      ((Text.pairwise_terminated_lines text).sublist hsublist)
  refine ⟨?_, ?_, fun other => filterText_eq_ok_iff.2 ⟨kept, ?_, rfl⟩⟩
  · rw [hlines, start_eq_reading, hkept]
  · rw [hlines]
    exact hordinary
  · rw [hlines]
    exact emitted_of_ordinary hordinary

/-- The last line of the text has no newline and is left, as the last one of what is left. -/
theorem filterText_of_filtered_endless :
    let text := "a\n#if VERSION<3\nb\n#endif VERSION\n#ifdef VERSION\nc".toList
    let out := "a\n#ifdef VERSION\nc".toList
    filterText 3 text = .ok out ∧
      (start 3).emitted (Text.lines '\n' text) = .ok (Text.lines '\n' out) ∧
      (∀ line ∈ Text.lines '\n' out, Marker.ofLine line = .ordinary) ∧
      ∀ other : Int64, filterText other out = .ok out :=
  have h : filterText 3 "a\n#if VERSION<3\nb\n#endif VERSION\n#ifdef VERSION\nc".toList =
      .ok "a\n#ifdef VERSION\nc".toList := by rfl
  ⟨h, filterText_of_filtered h⟩

end Texts

end Snapshot
