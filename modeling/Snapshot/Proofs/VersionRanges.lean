import Snapshot.Proofs.Filtering
import Snapshot.Proofs.GuardMeaning
import Snapshot.Proofs.Imbalance

/-!
# For which versions a line is left

A guard holds for the versions on one side of its integer, or for that one alone, so with two
versions it holds for those between them. A line is emitted if all guards around it hold, and which
these are does not depend on the version. So the versions for which a line is emitted have no gap
either, and no end on a side on which none of its guards has one.
-/

namespace Snapshot

/-! ## Versions for which a guard holds -/

namespace Comparison.Relates

variable {comparison : Comparison} {first middle last n : Int}

theorem between (hfirst : comparison.Relates first n) (hlast : comparison.Relates last n)
    (hlow : first ≤ middle) (hhigh : middle ≤ last) : comparison.Relates middle n := by
  cases comparison <;> simp only [Relates] at * <;> omega

theorem of_le (hfirst : comparison.Relates first n) (hlow : comparison = .ge ∨ comparison = .gt)
    (hle : first ≤ last) : comparison.Relates last n := by
  rcases hlow with rfl | rfl
  · exact le_trans hfirst hle
  · exact lt_of_lt_of_le hfirst hle

theorem of_ge (hlast : comparison.Relates last n) (hhigh : comparison = .le ∨ comparison = .lt)
    (hle : first ≤ last) : comparison.Relates first n := by
  rcases hhigh with rfl | rfl
  · exact le_trans hle hlast
  · exact lt_of_le_of_lt hle hlast

end Comparison.Relates

/-- Each literal is kept of some integer. -/
theorem Literal.exists_eq_ofInt (literal : Literal) : ∃ n, literal = ofInt n := by
  cases literal with
  | within word => exact ⟨word.toInt, (ofInt_eq_within_iff.2 rfl).symm⟩
  | aboveRange => exact ⟨2 ^ 63, (ofInt_eq_aboveRange_iff.2 (by omega)).symm⟩
  | belowRange => exact ⟨-2 ^ 63 - 1, (ofInt_eq_belowRange_iff.2 (by omega)).symm⟩

namespace Guard

variable {guard : Guard} {first middle last : Int64}

/-- A guard compares the version with some integer, also if no version reaches its literal. -/
theorem exists_relates (guard : Guard) :
    ∃ n : Int, ∀ version, guard.holds version ↔ guard.comparison.Relates version.toInt n := by
  obtain ⟨n, hliteral⟩ := guard.literal.exists_eq_ofInt
  refine ⟨n, fun version => ?_⟩
  rw [holds, hliteral, Literal.order_ofInt, Comparison.holds_compare_iff]

theorem holds_between (hfirst : guard.holds first) (hlast : guard.holds last)
    (hlow : first ≤ middle) (hhigh : middle ≤ last) : guard.holds middle := by
  obtain ⟨n, hrelates⟩ := guard.exists_relates
  rw [hrelates] at hfirst hlast ⊢
  exact hfirst.between hlast (Int64.le_iff_toInt_le.1 hlow) (Int64.le_iff_toInt_le.1 hhigh)

theorem holds_of_le (hfirst : guard.holds first)
    (hlow : guard.comparison = .ge ∨ guard.comparison = .gt) (hle : first ≤ last) :
    guard.holds last := by
  obtain ⟨n, hrelates⟩ := guard.exists_relates
  rw [hrelates] at hfirst ⊢
  exact hfirst.of_le hlow (Int64.le_iff_toInt_le.1 hle)

theorem holds_of_ge (hlast : guard.holds last)
    (hhigh : guard.comparison = .le ∨ guard.comparison = .lt) (hle : first ≤ last) :
    guard.holds first := by
  obtain ⟨n, hrelates⟩ := guard.exists_relates
  rw [hrelates] at hlast ⊢
  exact hlast.of_ge hhigh (Int64.le_iff_toInt_le.1 hle)

end Guard

/-! ## Lines that are emitted -/

namespace LineFilter

open Marker

variable {version : Int64} {guards : List (Nat × Guard)} {place k : Nat}
  {line : List Char} {lines : List (List Char)} {actions : List Action}

theorem actions_cons_eq_ok_iff :
    (reading version guards place).actions (line :: lines) = .ok actions ↔
      (Marker.ofLine line = .closing → guards ≠ []) ∧
        ∃ others, (reading version ((Marker.ofLine line).openNext guards place)
          (place + 1)).actions lines = .ok others ∧
          actions = verdict version guards (Marker.ofLine line) :: others := by
  rcases stray_or_open line guards with ⟨hline, rfl⟩ | hopen
  · simp [LineFilter.actions, feed_reading_nil hline, hline]
  · rw [LineFilter.actions, feed_reading hopen, and_iff_right hopen]
    cases hrest : (reading version ((Marker.ofLine line).openNext guards place)
        (place + 1)).actions lines with
    | error error => simp [hrest, Except.map]
    | ok others => simp [hrest, Except.map, eq_comm]

/-- In lines that are accepted, the shown ones are emitted. -/
theorem getElem?_actions_eq_emit_iff
    (h : (reading version guards place).actions lines = .ok actions) :
    actions[k]? = some .emit ↔ Shown version guards place lines k := by
  induction lines generalizing guards place actions k with
  | nil =>
      obtain rfl := List.eq_nil_of_length_eq_zero (length_of_actions h)
      simp [Shown]
  | cons line rest ih =>
      obtain ⟨-, others, hothers, rfl⟩ := actions_cons_eq_ok_iff.1 h
      cases k with
      | zero => rw [List.getElem?_cons_zero, Option.some_inj, verdict_eq_emit_iff, shown_zero_iff]
      | succ k => rw [List.getElem?_cons_succ, ih hothers, shown_succ_iff]

end LineFilter

/-- The line at a place of a text is emitted when the text is filtered for a version. What is left
of the text are these lines, by `LineFilter.emitted_eq_select`. -/
def EmittedAt (version : Int64) (text : List Char) (place : Nat) : Prop :=
  ∃ actions, (LineFilter.start version).actions (Text.lines '\n' text) = .ok actions ∧
    actions[place]? = some .emit

section Texts

open LineFilter Marker

variable {version first last : Int64} {text out : List Char} {place : Nat}

theorem emittedAt_iff_shown (h : filterText version text = .ok out) (other : Int64) :
    EmittedAt other text place ↔ Shown other [] 0 (Text.lines '\n' text) place := by
  -- the text is accepted for all versions
  obtain ⟨others, hother⟩ : ∃ others, filterText other text = .ok others :=
    exists_filterText_eq_ok_iff_counts.2 (exists_filterText_eq_ok_iff_counts.1 ⟨out, h⟩)
  rw [filterText, emitted_eq_select, start_eq_reading] at hother
  cases hactions : (reading other [] 0).actions (Text.lines '\n' text) with
  | error error => simp [hactions, Except.map] at hother
  | ok actions =>
      simp [EmittedAt, start_eq_reading, hactions, getElem?_actions_eq_emit_iff hactions]

theorem EmittedAt.holds (h : filterText version text = .ok out)
    (hemitted : EmittedAt first text place) {opener : Nat} {guard : Guard}
    (hencloses : Encloses (ofText text) opener place guard) : guard.holds first :=
  ((emittedAt_iff_shown h first).1 hemitted).2 _ (mem_openAfter_of_encloses hencloses)

/-- A line that is emitted for one version is emitted for another one for which the guards around it
hold too. -/
theorem EmittedAt.of_holds (h : filterText version text = .ok out)
    (hemitted : EmittedAt first text place)
    (hholds : ∀ opener guard, Encloses (ofText text) opener place guard → guard.holds last) :
    EmittedAt last text place := by
  obtain ⟨hordinary, -⟩ := (emittedAt_iff_shown h first).1 hemitted
  obtain ⟨lines, hlines, -⟩ := filterText_eq_ok_iff.1 h
  refine (emittedAt_iff_shown h last).2 ⟨hordinary, fun opened hopen => ?_⟩
  -- all guards are closed at the end, so those that are open here stand around the line
  have hclosed := (emits_of_emitted hlines).1
  exact hholds _ _ ((mem_openAfter_iff_encloses hclosed hordinary).1 hopen)

/-- The versions for which a line of a text is emitted have no gap. They go on above if all guards
around the line have only a lower bound, and below if all have only an upper one. -/
theorem emittedAt_interval (h : filterText version text = .ok out) (place : Nat) :
    (∀ first middle last : Int64, first ≤ middle → middle ≤ last →
      EmittedAt first text place → EmittedAt last text place → EmittedAt middle text place) ∧
    ((∀ opener guard, Encloses (ofText text) opener place guard →
        guard.comparison = .ge ∨ guard.comparison = .gt) →
      ∀ first last : Int64, first ≤ last →
        EmittedAt first text place → EmittedAt last text place) ∧
    ((∀ opener guard, Encloses (ofText text) opener place guard →
        guard.comparison = .le ∨ guard.comparison = .lt) →
      ∀ first last : Int64, first ≤ last →
        EmittedAt last text place → EmittedAt first text place) := by
  refine ⟨fun first middle last hlow hhigh hfirst hlast => ?_,
    fun hlower first last hle hfirst => ?_, fun hupper first last hle hlast => ?_⟩
  · exact hfirst.of_holds h fun opener guard hencloses =>
      Guard.holds_between (hfirst.holds h hencloses) (hlast.holds h hencloses) hlow hhigh
  · exact hfirst.of_holds h fun opener guard hencloses =>
      Guard.holds_of_le (hfirst.holds h hencloses) (hlower opener guard hencloses) hle
  · exact hlast.of_holds h fun opener guard hencloses =>
      Guard.holds_of_ge (hlast.holds h hencloses) (hupper opener guard hencloses) hle

/-- No version reaches the literal of the outer guard, and the inner one has only a lower bound. -/
theorem emittedAt_interval_nested :
    let text := ("#if VERSION>-99999999999999999999\n#if VERSION>=2\na\n#endif VERSION\n" ++
      "#endif VERSION\n").toList
    filterText 3 text = .ok "a\n".toList ∧ EmittedAt 2 text 2 ∧
      (∀ later : Int64, 2 ≤ later → EmittedAt later text 2) ∧ EmittedAt 4 text 2 := by
  intro text
  have h : filterText 3 text = .ok "a\n".toList := by rfl
  have htwo : EmittedAt 2 text 2 := ⟨[.marker, .marker, .emit, .marker, .marker], by rfl, rfl⟩
  have hopen : openAfter ((ofText text).take 2) =
      [(1, ⟨.ge, .within 2⟩), (0, ⟨.gt, .belowRange⟩)] := by rfl
  have hlower (opener : Nat) (guard : Guard) (hencloses : Encloses (ofText text) opener 2 guard) :
      guard.comparison = .ge ∨ guard.comparison = .gt := by
    have hmem := mem_openAfter_of_encloses hencloses
    rw [hopen] at hmem
    rcases List.mem_cons.1 hmem with heq | hmem
    · cases heq
      exact .inl rfl
    · cases List.mem_singleton.1 hmem
      exact .inr rfl
  obtain ⟨hgap, habove, -⟩ := emittedAt_interval h 2
  have hlater (later : Int64) (hle : 2 ≤ later) : EmittedAt later text 2 :=
    habove hlower 2 later hle htwo
  exact ⟨h, htwo, hlater, hgap 2 4 9 (by decide) (by decide) htwo (hlater 9 (by decide))⟩

end Texts

end Snapshot
