import Mathlib.Data.List.Basic
import Snapshot.Guard.Marker

/-!
# Which guards stand around a line

Markers pair up like brackets, and a guard stands around the lines between its opening and its
closing marker. This is defined on the markers of a text alone. A reading from the left that keeps
the guards which are open finds the same: `mem_openAfter_iff_encloses` says so for a text in which
every guard is closed.
-/

namespace Snapshot.Marker

/-- Every closing marker closes a guard that was opened before, and no guard is left open. -/
inductive Balanced : List Marker → Prop
  | nil : Balanced []
  | ordinary {rest : List Marker} : Balanced rest → Balanced (.ordinary :: rest)
  | group {guard : Guard} {body rest : List Marker} :
      Balanced body → Balanced rest → Balanced (.opening guard :: body ++ .closing :: rest)

/-- The marker at place `first` opens a guard that the marker at place `last` closes. -/
def Pairs (markers : List Marker) (first last : Nat) (guard : Guard) : Prop :=
  ∃ before body after, markers = before ++ .opening guard :: body ++ .closing :: after ∧
    Balanced body ∧ first = before.length ∧ last = before.length + 1 + body.length

/-- The guard opened at place `first` is closed only after `place`, which it stands around. -/
def Encloses (markers : List Marker) (first place : Nat) (guard : Guard) : Prop :=
  ∃ last, Pairs markers first last guard ∧ first < place ∧ place < last

/-- A line that no guard around it hides: it is ordinary, and all of them hold. -/
def Shows (version : Int64) (markers : List Marker) (place : Nat) : Prop :=
  markers[place]? = some .ordinary ∧
    ∀ first guard, Encloses markers first place guard → guard.holds version

theorem Pairs.getElem?_last {markers : List Marker} {first last : Nat} {guard : Guard}
    (h : Pairs markers first last guard) : markers[last]? = some .closing := by
  obtain ⟨before, body, after, rfl, -, -, rfl⟩ := h
  have hlength : (before ++ .opening guard :: body).length = before.length + 1 + body.length := by
    simp only [List.length_append, List.length_cons]
    omega
  rw [← hlength, List.getElem?_append_right (Nat.le_refl _)]
  simp

/-! ## Reading from the left -/

/-- The open guards after the marker at a place, with the places that opened them, innermost
first. -/
def openNext (guards : List (Nat × Guard)) (place : Nat) : Marker → List (Nat × Guard)
  | .opening guard => (place, guard) :: guards
  | .closing => guards.tail
  | .ordinary => guards

/-- The open guards after a run of markers, the first of which is at the given place. -/
def openFrom (guards : List (Nat × Guard)) (place : Nat) : List Marker → List (Nat × Guard)
  | [] => guards
  | marker :: rest => openFrom (marker.openNext guards place) (place + 1) rest

/-- The open guards after the markers at the front of a text. -/
def openAfter (markers : List Marker) : List (Nat × Guard) :=
  openFrom [] 0 markers

variable {guards : List (Nat × Guard)} {markers rest : List Marker} {place first : Nat}
  {guard : Guard}

theorem openFrom_append (left right : List Marker) :
    openFrom guards place (left ++ right) =
      openFrom (openFrom guards place left) (place + left.length) right := by
  induction left generalizing guards place with
  | nil => rfl
  | cons marker left ih =>
      simp only [List.cons_append, openFrom, ih, List.length_cons]
      congr 1
      omega

theorem openAfter_concat (marker : Marker) :
    openAfter (markers ++ [marker]) = marker.openNext (openAfter markers) markers.length := by
  simp [openAfter, openFrom_append, openFrom]

theorem openAfter_take_succ {marker : Marker} (hmarker : markers[place]? = some marker) :
    openAfter (markers.take (place + 1)) =
      marker.openNext (openAfter (markers.take place)) place := by
  have hplace : place < markers.length := (List.getElem?_eq_some_iff.1 hmarker).1
  rw [List.take_add_one, hmarker, Option.toList_some, openAfter_concat,
    List.length_take_of_le (Nat.le_of_lt hplace)]

namespace Balanced

theorem append {left right : List Marker} (hleft : Balanced left) (hright : Balanced right) :
    Balanced (left ++ right) := by
  induction hleft with
  | nil => exact hright
  | ordinary _ ih => exact .ordinary ih
  | group hbody _ _ ih =>
      rw [List.append_assoc]
      exact .group hbody ih

/-- A balanced run leaves the open guards as they were. -/
theorem openFrom_eq (h : Balanced markers) : openFrom guards place markers = guards := by
  induction h generalizing guards place with
  | nil => rfl
  | ordinary _ ih => exact ih
  | group _ _ hbody hrest =>
      rw [List.cons_append, openFrom, openFrom_append, hbody, openFrom, hrest]
      rfl

/-- In the middle of a balanced run all guards that were open before it still are. -/
theorem suffix_openFrom (h : Balanced markers) {front : List Marker} (hfront : front <+: markers) :
    guards <:+ openFrom guards place front := by
  induction h generalizing guards place front with
  | nil =>
      rw [List.prefix_nil.1 hfront]
      exact List.suffix_refl guards
  | ordinary _ ih =>
      rcases List.prefix_cons_iff.1 hfront with rfl | ⟨inner, rfl, hinner⟩
      · exact List.suffix_refl guards
      · rw [openFrom]
        exact ih hinner
  | @group guard body rest hbody _ ihbody ihrest =>
      rcases List.prefix_cons_iff.1 hfront with rfl | ⟨inner, rfl, hinner⟩
      · exact List.suffix_refl guards
      · rw [openFrom]
        rcases List.prefix_or_prefix_of_prefix hinner (List.prefix_append _ _) with
          hinner | ⟨more, rfl⟩
        · exact (List.suffix_cons _ guards).trans (ihbody hinner)
        · rw [openFrom_append, hbody.openFrom_eq]
          rcases List.prefix_cons_iff.1 ((List.prefix_append_right_inj body).1 hinner) with
            rfl | ⟨later, rfl, hlater⟩
          · exact List.suffix_cons _ guards
          · exact ihrest hlater

end Balanced

/-- The innermost open guard was opened before a balanced run that reaches to the end, and the other
open guards are those that were open before it. -/
theorem exists_of_openAfter_eq_cons (h : openAfter markers = (first, guard) :: guards) :
    ∃ before body, markers = before ++ .opening guard :: body ∧ Balanced body ∧
      first = before.length ∧ openAfter before = guards := by
  induction hlength : markers.length using Nat.strongRecOn
    generalizing markers first guard guards with
  | _ length ih =>
      rcases List.eq_nil_or_concat markers with rfl | ⟨init, marker, rfl⟩
      · cases h
      · rw [List.concat_eq_append] at h hlength ⊢
        rw [openAfter_concat] at h
        have hinit : init.length < length := by simp [← hlength]
        cases marker with
        | opening opened =>
            obtain ⟨⟨rfl, rfl⟩, rfl⟩ : (init.length = first ∧ opened = guard) ∧ _ := by
              simpa [openNext] using h
            exact ⟨init, [], by simp, .nil, rfl, rfl⟩
        | ordinary =>
            obtain ⟨before, body, rfl, hbody, hfirst, hguards⟩ := ih _ hinit h rfl
            exact ⟨before, body ++ [.ordinary], by simp, hbody.append (.ordinary .nil), hfirst,
              hguards⟩
        | closing =>
            -- the marker closes one guard, and the one below it is innermost then
            cases hopen : openAfter init with
            | nil => simp [openNext, hopen] at h
            | cons closed outer =>
                obtain rfl : outer = (first, guard) :: guards := by simpa [openNext, hopen] using h
                obtain ⟨middle, inner, rfl, hinner, -, houter⟩ := ih _ hinit hopen rfl
                have hmiddle : middle.length < length := by
                  rw [← hlength]
                  simp only [List.length_append, List.length_cons]
                  omega
                obtain ⟨before, body, rfl, hbody, hfirst, hguards⟩ := ih _ hmiddle houter rfl
                refine ⟨before, body ++ (.opening closed.2 :: inner ++ .closing :: []), by simp,
                  hbody.append (.group hinner .nil), hfirst, hguards⟩

theorem lt_of_mem_openFrom (h : (first, guard) ∈ openFrom guards place markers) :
    (first, guard) ∈ guards ∨ first < place + markers.length := by
  induction markers generalizing guards place with
  | nil => exact .inl h
  | cons marker rest ih =>
      rcases ih h with hmem | hlt
      · cases marker with
        | opening opened =>
            rcases List.mem_cons.1 hmem with heq | hmem
            · cases heq
              exact .inr (by simp)
            · exact .inl hmem
        | closing => exact .inl (List.mem_of_mem_tail hmem)
        | ordinary => exact .inl hmem
      · refine .inr (by simpa [Nat.add_assoc, Nat.add_comm 1] using hlt)

theorem lt_of_mem_openAfter (h : (first, guard) ∈ openAfter markers) : first < markers.length := by
  simpa using lt_of_mem_openFrom h

/-- An open guard that is no longer open later has been closed in between. -/
theorem exists_pairs_of_not_mem (h : (first, guard) ∈ openAfter markers)
    (hclosed : (first, guard) ∉ openAfter (markers ++ rest)) :
    ∃ last, markers.length ≤ last ∧ Pairs (markers ++ rest) first last guard := by
  induction rest generalizing markers with
  | nil => simp [h] at hclosed
  | cons marker rest ih =>
      rw [List.append_cons] at hclosed ⊢
      by_cases hstill : (first, guard) ∈ openAfter (markers ++ [marker])
      · obtain ⟨last, hlast, hpairs⟩ := ih hstill hclosed
        exact ⟨last, by simp at hlast; omega, hpairs⟩
      · rw [openAfter_concat] at hstill
        cases marker with
        | opening opened => exact absurd (List.mem_cons_of_mem _ h) hstill
        | ordinary => exact absurd h hstill
        | closing =>
            cases hopen : openAfter markers with
            | nil => simp [hopen] at h
            | cons innermost outer =>
                rw [hopen] at h hstill
                obtain rfl := (List.mem_cons.1 h).resolve_right hstill
                obtain ⟨before, body, rfl, hbody, rfl, -⟩ := exists_of_openAfter_eq_cons hopen
                refine ⟨_, ?_, before, body, rest, by simp, hbody, rfl, rfl⟩
                simp only [List.length_append, List.length_cons]
                omega

/-- A guard is open at each place that it stands around. -/
theorem mem_openAfter_of_encloses (h : Encloses markers first place guard) :
    (first, guard) ∈ openAfter (markers.take place) := by
  obtain ⟨last, ⟨before, body, after, rfl, hbody, rfl, rfl⟩, hfirst, hplace⟩ := h
  obtain ⟨count, rfl⟩ : ∃ count, place = before.length + (count + 1) :=
    ⟨place - before.length - 1, by omega⟩
  have hcount : count ≤ body.length := by omega
  rw [List.append_assoc, List.take_length_add_append, List.cons_append, List.take_succ_cons,
    List.take_append_of_le_length hcount, openAfter, openFrom_append, openFrom]
  apply (hbody.suffix_openFrom (List.take_prefix count body)).subset
  simp [openNext]

/-- In a text that closes its guards, those that stand around an ordinary line are those that are
open when the line is reached. -/
theorem mem_openAfter_iff_encloses (hclosed : openAfter markers = [])
    (hordinary : markers[place]? = some .ordinary) :
    (first, guard) ∈ openAfter (markers.take place) ↔ Encloses markers first place guard := by
  refine ⟨fun h => ?_, mem_openAfter_of_encloses⟩
  have hplace : place < markers.length := (List.getElem?_eq_some_iff.1 hordinary).1
  have hlength : (markers.take place).length = place := List.length_take_of_le (Nat.le_of_lt hplace)
  have hlater : (first, guard) ∉ openAfter (markers.take place ++ markers.drop place) := by
    simp [hclosed]
  obtain ⟨last, hlast, hpairs⟩ := exists_pairs_of_not_mem h hlater
  rw [List.take_append_drop] at hpairs
  rw [hlength] at hlast
  refine ⟨last, hpairs, by simpa [hlength] using lt_of_mem_openAfter h,
    Nat.lt_of_le_of_ne hlast ?_⟩
  -- the closing marker is not the ordinary one
  rintro rfl
  rw [hpairs.getElem?_last] at hordinary
  cases hordinary

end Snapshot.Marker
