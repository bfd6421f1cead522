import Snapshot.Filter.Lemmas
import Snapshot.Proofs.Nesting

/-!
# What a hidden guard hides

A guard hides what it stands around if it does not hold, or if it is opened where nothing is emitted
anyway. Whatever its body is, the filter comes out of it with the same guards open, and has emitted
nothing. Only the number of lines differs, and that shows nowhere but in the line of an error. So
two texts that differ in a hidden body only come to the same output or to the same kind of error.
-/

namespace Snapshot

/-- What is wrong with a text that is refused, without the place. -/
inductive FilterError.Kind where
  | unbalancedEndif
  | unclosedEndif
deriving DecidableEq, Repr

def FilterError.kind : FilterError → Kind
  | .unbalancedEndif _ => .unbalancedEndif
  | .unclosedEndif _ => .unclosedEndif

theorem mapError_map_congr {ε κ α β : Type} {left right : Except ε α} {kind : ε → κ} {f : α → β}
    (h : left.mapError kind = right.mapError kind) :
    (left.map f).mapError kind = (right.map f).mapError kind := by
  have hmap (result : Except ε α) :
      (result.map f).mapError kind = (result.mapError kind).map f := by
    cases result <;> rfl
  rw [hmap, hmap, h]

namespace LineFilter

/-- The filter after some lines, also if it has refused some of them. -/
def after (filter : LineFilter) (lines : List (List Char)) : LineFilter :=
  lines.foldl (fun filter line => (filter.feed line).1) filter

/-- The filter some lines later, with the same guards open. -/
def skip (filter : LineFilter) (count : Nat) : LineFilter :=
  { filter with line := filter.line + count }

variable {filter first second : LineFilter} {line opener closer : List Char} {guard : Guard}
  {lines body rest other : List (List Char)}

@[simp] theorem skip_skip (count more : Nat) :
    (filter.skip count).skip more = filter.skip (count + more) := by
  simp [skip, Nat.add_assoc]

@[simp] theorem version_after : (filter.after lines).version = filter.version := by
  induction lines generalizing filter with
  | nil => rfl
  | cons line rest ih => exact ih.trans version_feed

/-! ## Hidden lines -/

/-- A guard that is opened and closed again leaves the filter as it was if its body does so. -/
theorem emitted_group {count : Nat} (hopener : Marker.ofLine opener = .opening guard)
    (hcloser : Marker.ofLine closer = .closing)
    (hbody : ∀ inside : LineFilter,
      inside.isEmitting = (guard.holds filter.version && filter.isEmitting) →
        inside.emitted (body ++ closer :: rest) = (inside.skip count).emitted (closer :: rest)) :
    filter.emitted (opener :: (body ++ closer :: rest)) =
      (filter.skip (count + 2)).emitted rest := by
  rw [emitted, feed_of_opening hopener]
  dsimp only
  rw [hbody _ rfl, emitted, feed_of_closing hcloser rfl]
  have hline : filter.line + 1 + count + 1 = filter.line + (count + 2) := by omega
  simp only [skip, hline]

/-- Where nothing is emitted, a balanced run of lines comes to nothing. The induction is on its
bracket structure: a guard in it is opened where nothing is emitted, and so is not emitting either.
-/
theorem emitted_balanced {markers : List Marker} (hbalanced : Marker.Balanced markers)
    (hbody : body.map Marker.ofLine = markers) (hhidden : filter.isEmitting = false) :
    filter.emitted (body ++ rest) = (filter.skip body.length).emitted rest := by
  induction hbalanced generalizing filter body rest with
  | nil =>
      obtain rfl := List.map_eq_nil_iff.1 hbody
      rfl
  | ordinary _ ih =>
      obtain ⟨line, later, rfl, hline, hlater⟩ := List.map_eq_cons_iff.1 hbody
      rw [List.cons_append, emitted, feed_of_ordinary hline, hhidden]
      simp only [Bool.false_eq_true, if_false]
      have hcounted : (filter.skip 1).isEmitting = false := hhidden
      have hlater : (filter.skip 1).emitted (later ++ rest) = _ := ih hlater hcounted
      rwa [skip_skip, Nat.add_comm] at hlater
  | @group guard inner _ _ _ ihInner ihLater =>
      obtain ⟨front, final, rfl, hfront, hfinal⟩ := List.map_eq_append_iff.1 hbody
      obtain ⟨opener, inside, rfl, hopener, hinside⟩ := List.map_eq_cons_iff.1 hfront
      obtain ⟨closer, later, rfl, hcloser, hlater⟩ := List.map_eq_cons_iff.1 hfinal
      have hgroup : filter.emitted (opener :: (inside ++ closer :: (later ++ rest))) =
          (filter.skip (inside.length + 2)).emitted (later ++ rest) :=
        emitted_group hopener hcloser fun nested hnested =>
          ihInner hinside (by rw [hnested, hhidden, Bool.and_false])
      have hskipped : (filter.skip (inside.length + 2)).isEmitting = false := hhidden
      have hlength : (opener :: inside ++ closer :: later).length =
          inside.length + 2 + later.length := by
        simp only [List.cons_append, List.length_cons, List.length_append]
        omega
      rw [List.append_assoc, List.cons_append, List.cons_append, hgroup, ihLater hlater hskipped,
        skip_skip, hlength]

/-! ## Filters that tell lines alike -/

/-- The filters are for the same version, and the same of their open guards emit. -/
structure Alike (first second : LineFilter) : Prop where
  version : first.version = second.version
  emits : first.openGuards.map (·.emits) = second.openGuards.map (·.emits)

theorem Alike.isEmitting (h : first.Alike second) : first.isEmitting = second.isEmitting := by
  have hemits := h.emits
  unfold LineFilter.isEmitting
  cases hfirst : first.openGuards with
  | nil =>
      cases hsecond : second.openGuards with
      | nil => rfl
      | cons innermost outer => simp [hfirst, hsecond] at hemits
  | cons innermost outer =>
      cases hsecond : second.openGuards with
      | nil => simp [hfirst, hsecond] at hemits
      | cons other others =>
          rw [hfirst, hsecond, List.map_cons, List.map_cons] at hemits
          exact (List.cons.inj hemits).1

theorem Alike.finish (h : first.Alike second) :
    first.finish.mapError FilterError.kind = second.finish.mapError FilterError.kind := by
  have hemits := h.emits
  unfold LineFilter.finish
  cases hfirst : first.openGuards with
  | nil =>
      rw [hfirst, List.map_nil, eq_comm, List.map_eq_nil_iff] at hemits
      rw [hemits]
  | cons innermost outer =>
      cases hsecond : second.openGuards with
      | nil => simp [hfirst, hsecond] at hemits
      | cons other others => rfl

/-- One line does the same to both, apart from the line number. -/
theorem Alike.feed (h : first.Alike second) (line : List Char) :
    (first.feed line).1.Alike (second.feed line).1 ∧
      (first.feed line).2.mapError FilterError.kind =
        (second.feed line).2.mapError FilterError.kind := by
  cases hline : Marker.ofLine line with
  | ordinary =>
      rw [feed_of_ordinary hline, feed_of_ordinary hline, h.isEmitting]
      exact ⟨⟨h.version, h.emits⟩, rfl⟩
  | opening guard =>
      rw [feed_of_opening hline, feed_of_opening hline, h.isEmitting, h.version]
      exact ⟨⟨rfl, congrArg (_ :: ·) h.emits⟩, rfl⟩
  | closing =>
      have hemits := h.emits
      cases hfirst : first.openGuards with
      | nil =>
          rw [hfirst, List.map_nil, eq_comm, List.map_eq_nil_iff] at hemits
          rw [feed_of_closing_nil hline hfirst, feed_of_closing_nil hline hemits]
          exact ⟨⟨h.version, h.emits⟩, rfl⟩
      | cons innermost outer =>
          cases hsecond : second.openGuards with
          | nil => simp [hfirst, hsecond] at hemits
          | cons other others =>
              rw [hfirst, hsecond, List.map_cons, List.map_cons] at hemits
              rw [feed_of_closing hline hfirst, feed_of_closing hline hsecond]
              exact ⟨⟨h.version, (List.cons.inj hemits).2⟩, rfl⟩

theorem alike_skip (filter : LineFilter) (count more : Nat) :
    (filter.skip count).Alike (filter.skip more) :=
  ⟨rfl, rfl⟩

/-- What one line comes to and what the lines after it come to settle what they come to together. -/
theorem emitted_cons_congr
    (hline : (first.feed line).2.mapError FilterError.kind =
      (second.feed line).2.mapError FilterError.kind)
    (hrest : ((first.feed line).1.emitted rest).mapError FilterError.kind =
      ((second.feed line).1.emitted other).mapError FilterError.kind) :
    (first.emitted (line :: rest)).mapError FilterError.kind =
      (second.emitted (line :: other)).mapError FilterError.kind := by
  rw [emitted, emitted]
  rcases hfirst : first.feed line with ⟨next, outcome⟩
  rcases hsecond : second.feed line with ⟨next', outcome'⟩
  rw [hfirst, hsecond] at hline hrest
  dsimp only at hline hrest
  cases outcome with
  | error error =>
      cases outcome' with
      | error error' => simpa [Except.mapError] using hline
      | ok action => simp [Except.mapError] at hline
  | ok action =>
      cases outcome' with
      | error error' => simp [Except.mapError] at hline
      | ok action' =>
          obtain rfl : action = action' := by simpa [Except.mapError] using hline
          cases action with
          | drop | marker => exact hrest
          | emit =>
              exact mapError_map_congr hrest

theorem Alike.emitted (h : first.Alike second) (lines : List (List Char)) :
    (first.emitted lines).mapError FilterError.kind =
      (second.emitted lines).mapError FilterError.kind := by
  induction lines generalizing first second with
  | nil =>
      rw [LineFilter.emitted, LineFilter.emitted]
      exact mapError_map_congr h.finish
  | cons line rest ih => exact emitted_cons_congr (h.feed line).2 (ih (h.feed line).1)

/-- Lines that come to the same after some others come to the same together with them. -/
theorem emitted_append_congr
    (h : ((filter.after lines).emitted rest).mapError FilterError.kind =
      ((filter.after lines).emitted other).mapError FilterError.kind) :
    (filter.emitted (lines ++ rest)).mapError FilterError.kind =
      (filter.emitted (lines ++ other)).mapError FilterError.kind := by
  induction lines generalizing filter with
  | nil => exact h
  | cons line lines ih => exact emitted_cons_congr rfl (ih h)

end LineFilter

/-! ## Texts -/

/-- A line that opens a guard which hides what comes after it, in a text with something before it:
the guard does not hold, or nothing is emitted where it is opened. -/
structure Hides (version : Int64) (front opener : List Char) : Prop where
  isLine : Text.IsLine '\n' opener
  terminated : Text.Terminated '\n' opener
  hidden : ∃ guard, Marker.ofLine opener = .opening guard ∧
    (guard.holds version = false ∨
      ((LineFilter.start version).after (Text.lines '\n' front)).isEmitting = false)

/-- Whole lines whose markers pair up. -/
structure IsBody (body : List Char) : Prop where
  terminated : Text.Terminated '\n' body
  balanced : Marker.Balanced ((Text.lines '\n' body).map Marker.ofLine)

/-- A line that closes a guard. Only at the end of a text it may lack a newline. -/
structure Closes (closer rest : List Char) : Prop where
  isLine : Text.IsLine '\n' closer
  terminated : Text.Terminated '\n' closer ∨ rest = []
  closing : Marker.ofLine closer = .closing

/-- A text with a guard in it, cut into lines. -/
theorem lines_group {front opener body closer rest : List Char}
    (hfront : Text.Terminated '\n' front) (hopener : Text.IsLine '\n' opener)
    (hopenerEnd : Text.Terminated '\n' opener) (hbody : Text.Terminated '\n' body)
    (hcloser : Text.IsLine '\n' closer) (hcloserEnd : Text.Terminated '\n' closer ∨ rest = []) :
    Text.lines '\n' (front ++ (opener ++ (body ++ (closer ++ rest)))) =
      Text.lines '\n' front ++
        opener :: (Text.lines '\n' body ++ closer :: Text.lines '\n' rest) := by
  have hlast : Text.lines '\n' (closer ++ rest) = closer :: Text.lines '\n' rest := by
    rcases hcloserEnd with hend | rfl
    · rw [Text.lines_append hend, hcloser, List.singleton_append]
    · rw [List.append_nil, hcloser, Text.lines_nil]
  rw [Text.lines_append hfront, Text.lines_append hopenerEnd, Text.lines_append hbody, hlast,
    hopener, List.singleton_append]

/-- What a hidden guard stands around shows neither in the output nor in the kind of an error. -/
theorem filterText_hidden_body {version : Int64} {front opener body other closer rest : List Char}
    (hfront : Text.Terminated '\n' front) (hopener : Hides version front opener)
    (hbody : IsBody body) (hother : IsBody other) (hcloser : Closes closer rest) :
    (filterText version (front ++ (opener ++ (body ++ (closer ++ rest))))).mapError
        FilterError.kind =
      (filterText version (front ++ (opener ++ (other ++ (closer ++ rest))))).mapError
        FilterError.kind := by
  obtain ⟨guard, hguard, hhidden⟩ := hopener.hidden
  -- whatever the body is, the filter comes out of it with the same guards open
  have hgroup {body : List Char} (hbody : IsBody body) :
      ((LineFilter.start version).after (Text.lines '\n' front)).emitted
          (opener :: (Text.lines '\n' body ++ closer :: Text.lines '\n' rest)) =
        (((LineFilter.start version).after (Text.lines '\n' front)).skip
          ((Text.lines '\n' body).length + 2)).emitted (Text.lines '\n' rest) := by
    refine LineFilter.emitted_group hguard hcloser.closing fun inside hinside => ?_
    refine LineFilter.emitted_balanced hbody.balanced rfl ?_
    rw [hinside]
    rcases hhidden with hfalse | hsilent
    · rw [LineFilter.version_after, LineFilter.start, hfalse, Bool.false_and]
    · rw [hsilent, Bool.and_false]
  have hlines {body : List Char} (hbody : IsBody body) :=
    lines_group hfront hopener.isLine hopener.terminated hbody.terminated hcloser.isLine
      hcloser.terminated
  rw [filterText, filterText, hlines hbody, hlines hother]
  refine mapError_map_congr (LineFilter.emitted_append_congr ?_)
  rw [hgroup hbody, hgroup hother]
  exact (LineFilter.alike_skip _ _ _).emitted _

/-- Neither the line between two guards that do not hold nor a guard inside that does shows. -/
theorem filterText_hidden_body_nested :
    let front := "a\n".toList
    let opener := "#if VERSION>9\n".toList
    let body := "x\n#if VERSION>=2\ny\n#endif VERSION\n".toList
    let closer := "#endif VERSION\n".toList
    Text.Terminated '\n' front ∧ Hides 3 front opener ∧ IsBody body ∧ IsBody [] ∧
      Closes closer "b".toList ∧
      (filterText 3 (front ++ (opener ++ (body ++ (closer ++ "b".toList))))).mapError
          FilterError.kind =
        (filterText 3 (front ++ (opener ++ ([] ++ (closer ++ "b".toList))))).mapError
          FilterError.kind := by
  intro front opener body closer
  have hfront : Text.Terminated '\n' front := by decide
  have hopener : Hides 3 front opener := ⟨rfl, by decide, ⟨.gt, .within 9⟩, rfl, .inl rfl⟩
  have hmarkers : (Text.lines '\n' body).map Marker.ofLine =
      [.ordinary, .opening ⟨.ge, .within 2⟩, .ordinary, .closing] := rfl
  have hbody : IsBody body := by
    refine ⟨by decide, ?_⟩
    rw [hmarkers]
    exact .ordinary (.group (.ordinary .nil) .nil)
  have hempty : IsBody [] := ⟨by decide, .nil⟩
  have hcloser : Closes closer "b".toList := ⟨rfl, by decide, rfl⟩
  exact ⟨hfront, hopener, hbody, hempty, hcloser,
    filterText_hidden_body hfront hopener hbody hempty hcloser⟩

end Snapshot
