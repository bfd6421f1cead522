/-!
# Lines

A text is cut after each newline, and every line keeps its terminator. Only the last line may lack
one, no line is empty, and the lines put together again are the text. The element type is left open:
texts are cut at a newline character and files at the byte `0x0A`.
-/

namespace Snapshot.Text

variable {α : Type _} [DecidableEq α]

/-- The lines of a text, each with its terminator. The empty text has no line. -/
def lines (newline : α) : List α → List (List α)
  | [] => []
  | a :: rest =>
      if a = newline then
        [a] :: lines newline rest
      else
        match lines newline rest with
        | [] => [[a]]
        | line :: others => (a :: line) :: others

variable {newline : α}

@[simp] theorem lines_nil : lines newline [] = [] := rfl

@[simp] theorem flatten_lines (text : List α) : (lines newline text).flatten = text := by
  induction text with
  | nil => rfl
  | cons a rest ih =>
      rw [lines]
      split
      · simp [ih]
      · split
        · next hlines => simp_all
        · next line others hlines => simp_all

theorem ne_nil_of_mem_lines {text line : List α} (hline : line ∈ lines newline text) :
    line ≠ [] := by
  induction text generalizing line with
  | nil => simp at hline
  | cons a rest ih =>
      rw [lines] at hline
      split at hline
      · rcases List.mem_cons.1 hline with rfl | hline
        · simp
        · exact ih hline
      · split at hline
        · next hlines => simp_all
        · next first others hlines =>
            rcases List.mem_cons.1 hline with rfl | hline
            · simp
            · exact ih (by simp [hlines, hline])

theorem lines_eq_nil_iff {text : List α} : lines newline text = [] ↔ text = [] := by
  refine ⟨fun h => ?_, fun h => h ▸ rfl⟩
  have hflatten : (lines newline text).flatten = text := flatten_lines text
  rw [← hflatten, h]
  rfl

/-- The text is one line. -/
def IsLine (newline : α) (text : List α) : Prop :=
  lines newline text = [text]

/-- The last line of the text, if it has one, ends with a newline. -/
def Terminated (newline : α) (text : List α) : Prop :=
  text = [] ∨ text.getLast? = some newline

instance (text : List α) : Decidable (IsLine newline text) :=
  inferInstanceAs (Decidable (_ = _))

instance (text : List α) : Decidable (Terminated newline text) :=
  inferInstanceAs (Decidable (_ ∨ _))

omit [DecidableEq α] in
theorem Terminated.tail {a : α} {rest : List α} (h : Terminated newline (a :: rest)) :
    Terminated newline rest := by
  cases rest with
  | nil => exact .inl rfl
  | cons b rest => exact .inr (by simpa [Terminated] using h)

/-- What follows a terminated text starts on a line of its own. -/
theorem lines_append {left right : List α} (h : Terminated newline left) :
    lines newline (left ++ right) = lines newline left ++ lines newline right := by
  induction left with
  | nil => rfl
  | cons a rest ih =>
      rw [List.cons_append, lines, lines, ih h.tail]
      split
      · rfl
      · next hne =>
          cases hlines : lines newline rest with
          | nil =>
              -- a text of one character that is no newline is not terminated
              obtain rfl := lines_eq_nil_iff.1 hlines
              simp [Terminated, hne] at h
          | cons line others => rfl

/-- What stands before the first newline belongs to the line that goes on after it. -/
theorem lines_append_of_not_mem {left right : List α} (hleft : left ≠ []) (hnone : newline ∉ left) :
    lines newline (left ++ right) =
      match lines newline right with
      | [] => [left]
      | line :: others => (left ++ line) :: others := by
  induction left with
  | nil => exact absurd rfl hleft
  | cons a rest ih =>
      obtain ⟨hne, hrest⟩ := not_or.1 (mt List.mem_cons.2 hnone)
      rw [List.cons_append, lines, if_neg (Ne.symm hne)]
      cases rest with
      | nil => rfl
      | cons b rest =>
          rw [ih (List.cons_ne_nil _ _) hrest]
          cases lines newline right with
          | nil => rfl
          | cons line others => rfl

/-- Each line of a text is one line. -/
theorem isLine_of_mem_lines {text line : List α} (hline : line ∈ lines newline text) :
    IsLine newline line := by
  induction text generalizing line with
  | nil => cases hline
  | cons a rest ih =>
      rw [lines] at hline
      split at hline
      · next ha =>
          rcases List.mem_cons.1 hline with rfl | hline
          · rw [IsLine, lines, if_pos ha, lines_nil]
          · exact ih hline
      · next ha =>
          split at hline
          · rw [List.mem_singleton.1 hline, IsLine, lines, if_neg ha, lines_nil]
          · next first others hlines =>
              rcases List.mem_cons.1 hline with rfl | hline
              · have hfirst : lines newline first = [first] := ih (by simp [hlines])
                rw [IsLine, lines, if_neg ha, hfirst]
              · exact ih (by simp [hlines, hline])

/-- A line of a text that has another one after it ends with a newline. -/
theorem pairwise_terminated_lines (text : List α) :
    (lines newline text).Pairwise fun line _ => Terminated newline line := by
  induction text with
  | nil => exact .nil
  | cons a rest ih =>
      rw [lines]
      split
      · next ha => exact ih.cons fun _ _ => .inr (by rw [ha]; rfl)
      · split
        · exact List.pairwise_singleton _ _
        · next first others hlines =>
            rw [hlines] at ih
            obtain ⟨hfirst, hothers⟩ := List.pairwise_cons.1 ih
            refine hothers.cons fun other hother => .inr ?_
            have hne : first ≠ [] := ne_nil_of_mem_lines (by rw [hlines]; exact List.mem_cons_self)
            rw [List.getLast?_cons_of_ne_nil hne]
            exact (hfirst other hother).resolve_left hne

/-- Lines put together are the lines of the text that they make up, if only the last of them may
lack a newline. -/
theorem lines_flatten {parts : List (List α)} (hparts : ∀ part ∈ parts, IsLine newline part)
    (hends : parts.Pairwise fun part _ => Terminated newline part) :
    lines newline parts.flatten = parts := by
  induction parts with
  | nil => rfl
  | cons part rest ih =>
      obtain ⟨hpart, hrest⟩ := List.forall_mem_cons.1 hparts
      obtain ⟨hend, hends⟩ := List.pairwise_cons.1 hends
      cases rest with
      | nil =>
          rw [List.flatten_cons, List.flatten_nil, List.append_nil]
          exact hpart
      | cons next others =>
          rw [List.flatten_cons, lines_append (hend next List.mem_cons_self), hpart, ih hrest hends,
            List.singleton_append]

end Snapshot.Text
