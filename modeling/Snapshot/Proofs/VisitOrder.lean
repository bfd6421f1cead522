import Snapshot.Proofs.Listings

/-!
# The order of visits

A walk visits the files of a directory before it goes down into the subdirectories, and both in the
order of their names, which is that of their bytes. So it is settled by the names that lead to them
which of two files comes first, without looking at a walk. Any two files can be compared in this
way.
-/

namespace Snapshot

theorem Segment.eq_of_text_eq {left right : Segment} (h : left.text = right.text) :
    left = right := by
  obtain ⟨text, hfree⟩ := left
  obtain rfl := h
  rfl

theorem Segment.lt_or_eq_or_gt (left right : Segment) :
    left.text < right.text ∨ left = right ∨ right.text < left.text :=
  (Std.lt_trichotomy left.text right.text).imp_right fun h => h.imp_left eq_of_text_eq

namespace Location

/-- Whether a walk visits one file before another one, each given by the names that lead to it from
where the walk starts. -/
def Precedes : Location → Location → Prop
  | [left], [right] => left.text < right.text
  | [_], _ :: _ :: _ => True
  | left :: first :: below, right :: second :: other =>
      left.text < right.text ∨ left = right ∧ Precedes (first :: below) (second :: other)
  | _, _ => False

instance decidablePrecedes : (left right : Location) → Decidable (left.Precedes right)
  | [left], [right] => inferInstanceAs (Decidable (left.text < right.text))
  | [_], _ :: _ :: _ => .isTrue trivial
  | left :: first :: below, right :: second :: other =>
      have := decidablePrecedes (first :: below) (second :: other)
      inferInstanceAs (Decidable (left.text < right.text ∨
        left = right ∧ Precedes (first :: below) (second :: other)))
  | [], _ => .isFalse (by simp [Precedes])
  | _ :: _, [] => .isFalse (by simp [Precedes])
  | _ :: _ :: _, [_] => .isFalse (by simp [Precedes])

variable {left right third : Location} {name other : Segment}

@[simp] theorem not_precedes_nil : ¬left.Precedes [] := by
  cases left with
  | nil => simp [Precedes]
  | cons name below => cases below <;> simp [Precedes]

@[simp] theorem not_nil_precedes : ¬Precedes [] right := by
  cases right <;> simp [Precedes]

/-- Before a file right in a directory there are only files right in it. -/
theorem precedes_singleton_iff :
    left.Precedes [name] ↔ ∃ other : Segment, left = [other] ∧ other.text < name.text := by
  match left with
  | [] => simp
  | [other] => simp [Precedes]
  | _ :: _ :: _ => simp [Precedes]

/-- Before what is below a subdirectory there are the files right in the directory, what is below
the subdirectories before this one, and what comes before it in the subdirectory itself. -/
theorem precedes_cons_iff (hright : right ≠ []) :
    left.Precedes (name :: right) ↔ (∃ other, left = [other]) ∨
      ∃ (other : Segment) (rest : Location), rest ≠ [] ∧ left = other :: rest ∧
        (other.text < name.text ∨ other = name ∧ rest.Precedes right) := by
  obtain ⟨second, right, rfl⟩ := List.exists_cons_of_ne_nil hright
  match left with
  | [] => simp
  | [other] => simp [Precedes]
  | _ :: _ :: _ => simp [Precedes]

theorem not_precedes_self (place : Location) : ¬place.Precedes place := by
  match place with
  | [] => exact not_precedes_nil
  | [name] => exact String.lt_irrefl name.text
  | name :: second :: below =>
      rintro (hless | ⟨-, hbefore⟩)
      · exact String.lt_irrefl name.text hless
      · exact not_precedes_self (second :: below) hbefore

/-- Of two files one comes first. -/
theorem precedes_or_eq_or_precedes (hleft : left ≠ []) (hright : right ≠ []) :
    left.Precedes right ∨ left = right ∨ right.Precedes left := by
  induction left generalizing right with
  | nil => exact absurd rfl hleft
  | cons name below ih =>
      obtain ⟨other, rest, rfl⟩ := List.exists_cons_of_ne_nil hright
      by_cases hbelow : below = []
      · by_cases hrest : rest = []
        · subst hbelow hrest
          rcases Segment.lt_or_eq_or_gt name other with hlt | rfl | hgt
          · exact .inl (precedes_singleton_iff.2 ⟨name, rfl, hlt⟩)
          · exact .inr (.inl rfl)
          · exact .inr (.inr (precedes_singleton_iff.2 ⟨other, rfl, hgt⟩))
        · -- the file comes before what is below a subdirectory
          exact .inl ((precedes_cons_iff hrest).2 (.inl ⟨name, by rw [hbelow]⟩))
      · by_cases hrest : rest = []
        · exact .inr (.inr ((precedes_cons_iff hbelow).2 (.inl ⟨other, by rw [hrest]⟩)))
        · rw [precedes_cons_iff hrest, precedes_cons_iff hbelow]
          rcases Segment.lt_or_eq_or_gt name other with hlt | rfl | hgt
          · exact .inl (.inr ⟨name, below, hbelow, rfl, .inl hlt⟩)
          · rcases ih hbelow hrest with hbefore | rfl | hafter
            · exact .inl (.inr ⟨name, below, hbelow, rfl, .inr ⟨rfl, hbefore⟩⟩)
            · exact .inr (.inl rfl)
            · exact .inr (.inr (.inr ⟨name, rest, hrest, rfl, .inr ⟨rfl, hafter⟩⟩))
          · exact .inr (.inr (.inr ⟨other, rest, hrest, rfl, .inl hgt⟩))

theorem Precedes.trans (h : left.Precedes right) (hright : right.Precedes third) :
    left.Precedes third := by
  induction third generalizing left right with
  | nil => exact absurd hright not_precedes_nil
  | cons name below ih =>
      by_cases hbelow : below = []
      · subst hbelow
        obtain ⟨second, rfl, hsecond⟩ := precedes_singleton_iff.1 hright
        obtain ⟨first, rfl, hfirst⟩ := precedes_singleton_iff.1 h
        exact precedes_singleton_iff.2 ⟨first, rfl, String.lt_trans hfirst hsecond⟩
      · rw [precedes_cons_iff hbelow]
        rcases (precedes_cons_iff hbelow).1 hright with
          ⟨second, rfl⟩ | ⟨second, rest, hrest, rfl, hsecond⟩
        · obtain ⟨first, rfl, -⟩ := precedes_singleton_iff.1 h
          exact .inl ⟨first, rfl⟩
        · rcases (precedes_cons_iff hrest).1 h with
            ⟨first, rfl⟩ | ⟨first, inner, hinner, rfl, hfirst⟩
          · exact .inl ⟨first, rfl⟩
          · refine .inr ⟨first, inner, hinner, rfl, ?_⟩
            -- only where all three go into one subdirectory what is below it decides
            rcases hfirst with hfirst | ⟨rfl, hfirst⟩ <;>
              rcases hsecond with hsecond | ⟨rfl, hsecond⟩
            · exact .inl (String.lt_trans hfirst hsecond)
            · exact .inl hfirst
            · exact .inl hsecond
            · exact .inr ⟨rfl, ih hfirst hsecond⟩

end Location

/-- In a listing the names before one of them are those whose texts are less. -/
theorem Segment.mem_front_iff {names front later : List Segment} {name other : Segment}
    (hsorted : names.Pairwise fun left right => left.text ≤ right.text) (hnodup : names.Nodup)
    (heq : names = front ++ name :: later) (hmem : other ∈ names) :
    other ∈ front ↔ other.text < name.text := by
  subst heq
  rw [List.pairwise_append, List.pairwise_cons] at hsorted
  obtain ⟨-, ⟨hlater, -⟩, hfront⟩ := hsorted
  rw [List.nodup_append] at hnodup
  constructor
  · intro hother
    have hle := hfront other hother name List.mem_cons_self
    have hne := hnodup.2.2 other hother name List.mem_cons_self
    exact Std.lt_of_le_of_ne hle fun htext => hne (eq_of_text_eq htext)
  · intro hless
    rcases List.mem_append.1 hmem with hother | hother
    · exact hother
    · rcases List.mem_cons.1 hother with rfl | hother
      · exact absurd hless (String.lt_irrefl _)
      · exact absurd hless (String.not_lt.2 (hlater other hother))

end Snapshot
