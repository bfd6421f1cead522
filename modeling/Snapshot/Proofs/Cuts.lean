import Mathlib.Data.List.Induction
import Snapshot.Proofs.Places

/-!
# Shorter paths

A path is cut after each of its names, longer parts first. `Path.cuts` lists the cuts, and it is
said here which of them comes first with some property, and that each of them leaves one name less
than the one before it.
-/

namespace Snapshot

theorem Segment.eq_of_isBlank {segment : Segment} (h : segment.isBlank = true) :
    segment = Segment.empty ∨ segment = Segment.dot := by
  simpa [Segment.isBlank] using h

theorem Segment.not_isBlank_of_ofSegment {segment name : Segment}
    (h : Hop.ofSegment segment = .into name) : segment.isBlank = false := by
  unfold Hop.ofSegment at h
  split at h
  · cases h
  · next hempty =>
      split at h
      · cases h
      · next hdot => simp [Segment.isBlank, hempty, hdot]

theorem Hop.ofSegment_eq_into {segment : Segment} (hblank : segment.isBlank = false)
    (hdots : segment ≠ Segment.dotDot) : Hop.ofSegment segment = .into segment := by
  simp only [Segment.isBlank, Bool.or_eq_false_iff, decide_eq_false_iff_not] at hblank
  rw [Hop.ofSegment, if_neg hblank.1, if_neg hblank.2, if_neg hdots]

namespace Path

/-- The end of a segment, if a component ends there. -/
def endOf? (path : Path) (part : Segment × Nat) : Option Nat :=
  let isFrontDot := part.2 = 0 && !path.isAbsolute && part.1 = Segment.dot
  if part.1.isBlank && !isFrontDot then none else some (part.2 + 1)

theorem cuts_eq (path : Path) :
    path.cuts =
      path.body.length :: (0 :: path.body.zipIdx.filterMap path.endOf?).dropLast.reverse := rfl

variable {path : Path} {front later : List Segment} {segment : Segment} {count : Nat}

theorem endOf?_of_not_isBlank (h : segment.isBlank = false) (place : Nat) :
    path.endOf? (segment, place) = some (place + 1) := by
  simp [endOf?, h]

theorem lt_of_endOf? {part : Segment × Nat} (h : path.endOf? part = some count) :
    part.2 < count := by
  unfold endOf? at h
  dsimp only at h
  split at h
  · cases h
  · obtain rfl := Option.some.inj h
    exact Nat.lt_succ_self _

/-- A path is cut after each of its names, apart from the last one, and longer cuts come first. -/
theorem exists_cuts_eq (hbody : path.body = front ++ segment :: later)
    (hsegment : segment.isBlank = false) (hlater : ∃ name ∈ later, name.isBlank = false) :
    ∃ longer others, path.cuts = longer ++ (front.length + 1) :: others ∧
      ∀ cut ∈ longer, front.length + 1 ≤ cut := by
  have hrest : (later.zipIdx (front.length + 1)).filterMap path.endOf? ≠ [] := by
    obtain ⟨name, hname, hblank⟩ := hlater
    obtain ⟨place, hplace, heq⟩ := List.getElem_of_mem hname
    have hmem : (name, front.length + 1 + place) ∈ later.zipIdx (front.length + 1) := by
      rw [List.mk_mem_zipIdx_iff_le_and_getElem?_sub]
      simp [heq, hplace]
    exact List.ne_nil_of_mem (List.mem_filterMap.2 ⟨_, hmem, endOf?_of_not_isBlank hblank _⟩)
  refine ⟨path.body.length ::
      ((later.zipIdx (front.length + 1)).filterMap path.endOf?).dropLast.reverse,
    (0 :: front.zipIdx.filterMap path.endOf?).reverse, ?_, ?_⟩
  · have hends : path.body.zipIdx.filterMap path.endOf? =
        front.zipIdx.filterMap path.endOf? ++
          (front.length + 1) :: (later.zipIdx (front.length + 1)).filterMap path.endOf? := by
      rw [hbody, List.zipIdx_append, List.zipIdx_cons, List.filterMap_append,
        List.filterMap_cons_some (endOf?_of_not_isBlank hsegment _), Nat.zero_add]
    rw [cuts_eq, hends, ← List.cons_append, List.dropLast_append_of_ne_nil (List.cons_ne_nil _ _),
      List.dropLast_cons_of_ne_nil hrest]
    simp
  · intro cut hcut
    rcases List.mem_cons.1 hcut with rfl | hcut
    · rw [hbody, List.length_append, List.length_cons]
      omega
    · obtain ⟨part, hpart, hend⟩ :=
        List.mem_filterMap.1 (List.dropLast_subset _ (List.mem_reverse.1 hcut))
      exact Nat.le_of_lt (Nat.lt_of_le_of_lt (List.le_snd_of_mem_zipIdx hpart) (lt_of_endOf? hend))

/-- The longest part of a path that has a property is found first: one that ends in a later name
does not have it. -/
theorem not_of_find?_cuts {holds : Nat → Bool} (hbody : path.body = front ++ segment :: later)
    (hsegment : segment.isBlank = false) (hlater : ∃ name ∈ later, name.isBlank = false)
    (hcount : count ≤ front.length) (h : path.cuts.find? holds = some count) :
    holds (front.length + 1) = false := by
  refine Bool.eq_false_iff.2 fun hholds => ?_
  obtain ⟨longer, others, hcuts, hlonger⟩ := exists_cuts_eq hbody hsegment hlater
  rw [hcuts, List.find?_append, List.find?_cons_of_pos hholds] at h
  rcases Option.or_eq_some_iff.1 h with hfound | ⟨-, hfound⟩
  · have hle := hlonger count (List.mem_of_find?_eq_some hfound)
    omega
  · obtain rfl := Option.some.inj hfound
    omega

/-- Some part of a path from the root has slashes and dots only. -/
theorem exists_blank_cut (habsolute : path.isAbsolute) :
    ∃ count ∈ path.cuts, ∀ segment ∈ path.body.take count, segment.isBlank = true := by
  by_cases hends : path.body.zipIdx.filterMap path.endOf? = []
  · -- no component ends anywhere, so the whole path is one of slashes and dots
    refine ⟨path.body.length, List.mem_cons_self, fun segment hsegment => ?_⟩
    obtain ⟨place, hplace, rfl⟩ := List.getElem_of_mem (List.mem_of_mem_take hsegment)
    have hmem : (path.body[place], place) ∈ path.body.zipIdx := by
      simp [List.mk_mem_zipIdx_iff_getElem?, hplace]
    have hnone := List.filterMap_eq_nil_iff.1 hends _ hmem
    simpa [endOf?, habsolute] using hnone
  · refine ⟨0, ?_, by simp⟩
    rw [cuts_eq, List.dropLast_cons_of_ne_nil hends]
    simp

theorem not_hasNul_upTo (h : path.hasNul = false) (count : Nat) :
    (path.upTo count).hasNul = false := by
  rw [hasNul_eq_any_body, List.any_eq_false] at h ⊢
  intro segment hsegment
  rw [body_upTo] at hsegment
  split at hsegment
  · rw [List.mem_singleton.1 hsegment]
    decide
  · exact h segment (List.mem_of_mem_take hsegment)

/-! ## From cut to cut -/

/-- One cut of a path is right above another one: what is before it has the same names, apart from
the last one, with which the other ends. -/
def Extends (path : Path) (count next : Nat) : Prop :=
  ∃ front name, (path.body.take count).map Hop.ofSegment = front ++ [.into name] ∧
    ((path.body.take next).map Hop.ofSegment).filterMap Hop.name? = front.filterMap Hop.name?

/-- The ends of all components from the last one on, and the front of them all. -/
def stops (path : Path) (segments : List Segment) : List Nat :=
  (0 :: segments.zipIdx.filterMap path.endOf?).reverse

theorem stops_concat (front : List Segment) (segment : Segment) :
    path.stops (front ++ [segment]) =
      (path.endOf? (segment, front.length)).toList ++ path.stops front := by
  rw [stops, stops, List.zipIdx_append, List.filterMap_append, ← List.cons_append,
    List.reverse_append]
  cases hend : path.endOf? (segment, front.length) <;> simp [hend]

/-- From one stop to the next a name is left away. -/
theorem isChain_stops (habsolute : path.isAbsolute) (hup : Hop.up ∉ path.hops) {rest : List Segment}
    (hbody : path.body = front ++ rest) :
    (path.stops front).IsChain path.Extends ∧ ∃ first others,
      path.stops front = first :: others ∧ first ≤ front.length ∧
        ((path.body.take first).map Hop.ofSegment).filterMap Hop.name? =
          (front.map Hop.ofSegment).filterMap Hop.name? ∧
        (first :: others).getLast? = some 0 := by
  induction front using List.reverseRecOn generalizing rest with
  | nil => exact ⟨by simp [stops], 0, [], by simp [stops]⟩
  | append_singleton front segment ih =>
      rw [List.append_assoc, List.singleton_append] at hbody
      obtain ⟨hchain, first, others, hstops, hle, hnames, hlast⟩ := ih hbody
      rw [stops_concat]
      cases hblank : segment.isBlank with
      | true =>
          have hnone : path.endOf? (segment, front.length) = none := by
            simp [endOf?, hblank, habsolute]
          rw [hnone, Option.toList_none, List.nil_append]
          refine ⟨hchain, first, others, hstops, by simp; omega, ?_, hlast⟩
          rw [hnames]
          rcases Segment.eq_of_isBlank hblank with rfl | rfl <;> simp [Hop.ofSegment] <;> rfl
      | false =>
          rw [endOf?_of_not_isBlank hblank, Option.toList_some, List.singleton_append, hstops]
          -- neither a slash nor a dot, and ways up are excluded
          have hinto : Hop.ofSegment segment = .into segment := by
            refine Hop.ofSegment_eq_into hblank fun hdots => hup ?_
            rw [hops, hbody, List.map_append, List.map_cons, hdots]
            exact List.mem_append_right _ List.mem_cons_self
          have htake : (path.body.take (front.length + 1)).map Hop.ofSegment =
              front.map Hop.ofSegment ++ [.into segment] := by
            rw [hbody, List.append_cons, List.take_left' (by simp), List.map_append,
              List.map_singleton, hinto]
          refine ⟨List.isChain_cons_cons.2 ⟨⟨_, segment, htake, hnames⟩, hstops ▸ hchain⟩, _, _,
            rfl, by simp, ?_, by simpa using hlast⟩
          rw [htake]
          simp [hinto]

/-- A path that ends in a name is cut there first. -/
theorem cuts_eq_stops (hends : path.EndsInName) : path.cuts = path.stops path.body := by
  obtain ⟨name, hlast⟩ := hends
  rw [hops, List.getLast?_map, Option.map_eq_some_iff] at hlast
  obtain ⟨segment, hlast, hsegment⟩ := hlast
  obtain ⟨front, hbody⟩ := List.getLast?_eq_some_iff.1 hlast
  have hend : path.endOf? (segment, front.length) = some (front.length + 1) :=
    endOf?_of_not_isBlank (Segment.not_isBlank_of_ofSegment hsegment) _
  have hends : path.body.zipIdx.filterMap path.endOf? =
      front.zipIdx.filterMap path.endOf? ++ [front.length + 1] := by
    simp [hbody, List.zipIdx_append, hend]
  rw [cuts_eq, hends, ← List.cons_append, List.dropLast_concat, hbody, stops_concat, hend, stops]
  simp

/-- A path from the root that ends in a name is cut at its names, down to the root. -/
theorem isChain_cuts (habsolute : path.isAbsolute) (hup : Hop.up ∉ path.hops)
    (hends : path.EndsInName) :
    path.cuts.IsChain path.Extends ∧ path.cuts.getLast? = some 0 := by
  obtain ⟨hchain, first, others, hstops, -, -, hlast⟩ :=
    isChain_stops habsolute hup (List.append_nil path.body).symm
  rw [cuts_eq_stops hends]
  exact ⟨hchain, hstops ▸ hlast⟩

end Path

end Snapshot
