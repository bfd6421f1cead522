/-!
# Words in a text

Where a given word occurs in a text, seen through what follows it. Occurrences are listed from left
to right and may overlap.
-/

namespace Snapshot.Text

variable {α : Type _} [BEq α]

/-- What follows each occurrence of `word`, from left to right. -/
def after (word : List α) : List α → List (List α)
  | [] => (word.isPrefixOf? []).toList
  | a :: rest => (word.isPrefixOf? (a :: rest)).toList ++ after word rest

def hasWord (word text : List α) : Bool :=
  !(after word text).isEmpty

theorem isPrefixOf?_iff [LawfulBEq α] {word text rest : List α} :
    word.isPrefixOf? text = some rest ↔ text = word ++ rest := by
  induction word generalizing text with
  | nil =>
      change some text = some rest ↔ text = rest
      simp
  | cons a word ih =>
      cases text with
      | nil =>
          change none = some rest ↔ [] = a :: (word ++ rest)
          simp
      | cons b text =>
          change (if a == b then word.isPrefixOf? text else none) = some rest ↔
            b :: text = a :: (word ++ rest)
          by_cases hab : a = b
          · simp [hab, ih]
          · simp [hab, Ne.symm hab]

/-- A word occurs before `rest` exactly when the text is some front, the word and `rest`. -/
theorem mem_after_iff [LawfulBEq α] {word text rest : List α} :
    rest ∈ after word text ↔ ∃ front, text = front ++ word ++ rest := by
  induction text with
  | nil =>
      simp only [after, Option.mem_toList, isPrefixOf?_iff]
      constructor
      · intro h
        exact ⟨[], by simpa using h⟩
      · rintro ⟨front, h⟩
        simp_all [eq_comm]
  | cons a text ih =>
      simp only [after, List.mem_append, Option.mem_toList, isPrefixOf?_iff, ih]
      constructor
      · rintro (h | ⟨front, rfl⟩)
        · exact ⟨[], by simpa using h⟩
        · exact ⟨a :: front, by simp⟩
      · rintro ⟨front, h⟩
        cases front with
        | nil => exact .inl (by simpa using h)
        | cons b front =>
            simp only [List.cons_append, List.cons.injEq] at h
            exact .inr ⟨front, by simpa using h.2⟩

theorem hasWord_iff [LawfulBEq α] {word text : List α} : hasWord word text ↔ word <:+: text := by
  constructor
  · intro h
    obtain ⟨rest, hrest⟩ := List.exists_mem_of_ne_nil (after word text) (by
      simpa [hasWord] using h)
    obtain ⟨front, rfl⟩ := mem_after_iff.1 hrest
    exact ⟨front, rest, rfl⟩
  · rintro ⟨front, rest, h⟩
    have hmem : rest ∈ after word text := mem_after_iff.2 ⟨front, h.symm⟩
    simp only [hasWord, Bool.not_eq_true', List.isEmpty_eq_false_iff]
    exact List.ne_nil_of_mem hmem

end Snapshot.Text
