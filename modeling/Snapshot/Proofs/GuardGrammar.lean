import Mathlib.Data.List.Induction
import Mathlib.Data.List.TakeWhile
import Mathlib.Data.Nat.Digits.Defs
import Snapshot.Guard.Marker

/-!
# What a guard looks like

A guard is written as blanks, `VERSION`, blanks, a comparison, blanks, an optional minus sign and
digits. `WrittenGuard` holds these parts, and says nothing about how they are found in a text. The
reader takes what it can at each step and never goes back. It finds every guard that stands at the
front of a text nevertheless, since a text can be cut into the parts of a guard in one way only, up
to where the digits are broken off.
-/

namespace Snapshot

namespace Text

variable {α β : Type} {p : α → Bool} {front other rest more : List α}

/-- A run of elements of one class ends where an element of another class stands. -/
theorem takeWhile_run (hfront : ∀ a ∈ front, p a) (hrest : rest.head?.any p = false) :
    (front ++ rest).takeWhile p = front := by
  rw [List.takeWhile_append_of_pos hfront]
  cases rest with
  | nil => simp
  | cons a rest =>
      have ha : ¬p a := by simpa using hrest
      rw [List.takeWhile_cons_of_neg ha, List.append_nil]

/-- Two runs of one class with another class after them are the same run. -/
theorem run_inj (hfront : ∀ a ∈ front, p a) (hother : ∀ a ∈ other, p a)
    (hrest : rest.head?.any p = false) (hmore : more.head?.any p = false)
    (h : front ++ rest = other ++ more) : front = other ∧ rest = more := by
  have hruns := congrArg (List.takeWhile p) h
  rw [takeWhile_run hfront hrest, takeWhile_run hother hmore] at hruns
  subst hruns
  exact ⟨rfl, List.append_cancel_left h⟩

theorem head?_any_dropWhile (p : α → Bool) (text : List α) :
    (text.dropWhile p).head?.any p = false := by
  induction text with
  | nil => rfl
  | cons a text ih =>
      by_cases ha : p a
      · rwa [List.dropWhile_cons_of_pos ha]
      · rw [List.dropWhile_cons_of_neg ha]
        simpa using ha

theorem skipBlanks_append {front rest : List Char} (hfront : ∀ c ∈ front, isBlank c) :
    skipBlanks (front ++ rest) = skipBlanks rest :=
  List.dropWhile_append_of_pos hfront

theorem skipBlanks_eq_self {text : List Char} (h : text.head?.any isBlank = false) :
    skipBlanks text = text := by
  cases text with
  | nil => rfl
  | cons c text => exact skipBlanks_cons_of_not_blank (by simpa using h)

/-- What is skipped are blanks. -/
theorem exists_blanks (text : List Char) :
    ∃ front, (∀ c ∈ front, isBlank c) ∧ text = front ++ skipBlanks text :=
  ⟨text.takeWhile isBlank, fun _ hc => List.mem_takeWhile_imp hc,
    List.takeWhile_append_dropWhile.symm⟩

section Occurrences

variable [BEq α] [LawfulBEq α] {word text : List α} {find : List α → Option β} {found : β}

/-- The farther to the right a word occurs, the less follows it. -/
theorem pairwise_after (word text : List α) :
    (after word text).Pairwise fun first second => second.length < first.length := by
  induction text with
  | nil =>
      rw [after]
      cases word.isPrefixOf? [] <;> simp
  | cons a text ih =>
      rw [after, List.pairwise_append]
      have hhere : (word.isPrefixOf? (a :: text)).toList.Pairwise
          fun first second => second.length < first.length := by
        cases word.isPrefixOf? (a :: text) <;> simp
      refine ⟨hhere, ih, fun first hfirst second hsecond => ?_⟩
      have hfront := isPrefixOf?_iff.1 (Option.mem_toList.1 hfirst)
      obtain ⟨before, hlater⟩ := mem_after_iff.1 hsecond
      have hlengths := congrArg List.length hfront
      have hrest := congrArg List.length hlater
      simp only [List.length_cons, List.length_append] at hlengths hrest
      omega

/-- What is found after a word is found after its first occurrence after which anything is. -/
theorem findSome?_after_eq_some_iff :
    (after word text).findSome? find = some found ↔
      ∃ front rest, text = front ++ word ++ rest ∧ find rest = some found ∧
        ∀ before later, text = before ++ word ++ later → before.length < front.length →
          find later = none := by
  have hpairs := pairwise_after word text
  constructor
  · intro h
    obtain ⟨earlier, rest, others, hafter, hfound, hnone⟩ := List.findSome?_eq_some_iff.1 h
    have hmem : rest ∈ after word text := by simp [hafter]
    obtain ⟨front, hfront⟩ := mem_after_iff.1 hmem
    refine ⟨front, rest, hfront, hfound, fun before later hbefore hlength => ?_⟩
    have hlater : later ∈ after word text := mem_after_iff.2 ⟨before, hbefore⟩
    have hlong : rest.length < later.length := by
      have hlengths := congrArg List.length (hfront.symm.trans hbefore)
      simp only [List.length_append] at hlengths
      omega
    rw [hafter] at hlater hpairs
    rcases List.mem_append.1 hlater with hmem | hmem
    · exact hnone later hmem
    · -- what is listed after the rest is shorter than it
      rcases List.mem_cons.1 hmem with rfl | hmem
      · exact absurd hlong (Nat.lt_irrefl _)
      · have hshort := List.rel_of_pairwise_cons (List.pairwise_append.1 hpairs).2.1 hmem
        omega
  · rintro ⟨front, rest, hfront, hfound, hnone⟩
    obtain ⟨earlier, others, hafter⟩ := List.append_of_mem (mem_after_iff.2 ⟨front, hfront⟩)
    refine List.findSome?_eq_some_iff.2 ⟨earlier, rest, others, hafter, hfound, ?_⟩
    intro later hlater
    have hmem : later ∈ after word text := by simp [hafter, hlater]
    obtain ⟨before, hbefore⟩ := mem_after_iff.1 hmem
    apply hnone before later hbefore
    rw [hafter] at hpairs
    have hshort := (List.pairwise_append.1 hpairs).2.2 later hlater rest (by simp)
    have hlengths := congrArg List.length (hfront.symm.trans hbefore)
    simp only [List.length_append] at hlengths
    omega

end Occurrences

end Text

/-! ## The parts of a guard -/

/-- How the comparisons are written. Equality has two spellings. -/
inductive Comparison.SpelledAs : Comparison → List Char → Prop
  | le : SpelledAs .le ['<', '=']
  | ge : SpelledAs .ge ['>', '=']
  | eq : SpelledAs .eq ['=', '=']
  | lt : SpelledAs .lt ['<']
  | gt : SpelledAs .gt ['>']
  | eqShort : SpelledAs .eq ['=']

/-- What a guard is written of, from behind `#if` to a digit of its literal. -/
structure WrittenGuard where
  beforeVersion : List Char
  beforeComparison : List Char
  comparison : Comparison
  spelling : List Char
  beforeLiteral : List Char
  negative : Bool
  digits : List Char
  isBlank_beforeVersion : ∀ c ∈ beforeVersion, Text.isBlank c
  isBlank_beforeComparison : ∀ c ∈ beforeComparison, Text.isBlank c
  spelled : comparison.SpelledAs spelling
  isBlank_beforeLiteral : ∀ c ∈ beforeLiteral, Text.isBlank c
  isDigit_digits : ∀ c ∈ digits, c.isDigit
  digits_ne_nil : digits ≠ []

namespace WrittenGuard

/-- The number that digits denote, each of them with the weight of its place. -/
def magnitude (digits : List Char) : Nat :=
  Nat.ofDigits 10 (digits.reverse.map fun digit => digit.toNat - '0'.toNat)

variable (written : WrittenGuard)

/-- The sign and the digits. -/
def literal : List Char :=
  (if written.negative then ['-'] else []) ++ written.digits

def text : List Char :=
  written.beforeVersion ++ (Marker.versionWord ++ (written.beforeComparison ++
    (written.spelling ++ (written.beforeLiteral ++ written.literal))))

/-- The integer that is written. -/
def number : Int :=
  if written.negative then -magnitude written.digits else magnitude written.digits

def guard : Guard where
  comparison := written.comparison
  literal := .ofInt written.number

/-- The parts are the same, but some digits at the end may be missing. -/
structure Shortens (short long : WrittenGuard) : Prop where
  beforeVersion : short.beforeVersion = long.beforeVersion
  beforeComparison : short.beforeComparison = long.beforeComparison
  comparison : short.comparison = long.comparison
  spelling : short.spelling = long.spelling
  beforeLiteral : short.beforeLiteral = long.beforeLiteral
  negative : short.negative = long.negative
  digits : short.digits <+: long.digits

/-- The guard is written in a line, after an `#if` that is preceded by `front`. -/
def StandsIn (line front rest : List Char) : Prop :=
  line = front ++ Marker.openingWord ++ (written.text ++ rest)

/-- The guard is the first one that is written in a line, and has all its digits. -/
structure LeadsIn (line front rest : List Char) : Prop where
  stands : written.StandsIn line front rest
  first : ∀ {other : WrittenGuard} {before later : List Char}, other.StandsIn line before later →
    front.length ≤ before.length
  longest : rest.head?.any Char.isDigit = false

end WrittenGuard

/-- Reading the digits one after the other gives the number that they denote. -/
theorem Decimal.value_eq_magnitude (digits : List Char) :
    Decimal.value digits = WrittenGuard.magnitude digits := by
  induction digits using List.reverseRecOn with
  | nil => rfl
  | append_singleton digits digit ih =>
      rw [Decimal.value, List.foldl_append, ← Decimal.value, ih, WrittenGuard.magnitude,
        WrittenGuard.magnitude, List.reverse_concat, List.map_cons, Nat.ofDigits_cons]
      simp only [List.foldl_cons, List.foldl_nil]
      omega

/-! ## Reading the parts -/

namespace Comparison

variable {comparison other : Comparison} {spelling text rest : List Char}

/-- A comparison starts with a character that is no blank. -/
theorem SpelledAs.not_blank (h : comparison.SpelledAs spelling) (rest : List Char) :
    (spelling ++ rest).head?.any Text.isBlank = false := by
  cases h <;> rfl

theorem isPrefixOf?_eq_none {first : Char} (hrest : rest.head? ≠ some '=') :
    [first, '='].isPrefixOf? (first :: rest) = none := by
  rw [Option.eq_none_iff_forall_ne_some]
  intro after hafter
  have heq := Text.isPrefixOf?_iff.1 hafter
  rw [List.cons_append, List.cons.injEq] at heq
  exact hrest (by simp [heq.2])

/-- A comparison is read unless it can be read on: `<` before `=` is the start of another one. -/
theorem SpelledAs.read? (h : comparison.SpelledAs spelling) (hrest : rest.head? ≠ some '=') :
    Comparison.read? (spelling ++ rest) = some (comparison, rest) := by
  cases h with
  | le | ge | eq => rfl
  | lt =>
      rw [Comparison.read?, spellings, List.findSome?_cons]
      dsimp only [List.cons_append, List.nil_append]
      rw [isPrefixOf?_eq_none hrest]
      rfl
  | gt =>
      rw [Comparison.read?, spellings, List.findSome?_cons, List.findSome?_cons]
      dsimp only [List.cons_append, List.nil_append]
      rw [isPrefixOf?_eq_none hrest]
      rfl
  | eqShort =>
      rw [Comparison.read?, spellings, List.findSome?_cons, List.findSome?_cons,
        List.findSome?_cons]
      dsimp only [List.cons_append, List.nil_append]
      rw [isPrefixOf?_eq_none hrest]
      rfl

/-- What is read is a comparison, and the text after it. -/
theorem exists_spelledAs_of_read? (h : Comparison.read? text = some (comparison, rest)) :
    ∃ spelling, comparison.SpelledAs spelling ∧ text = spelling ++ rest := by
  obtain ⟨⟨spelling, found⟩, hmem, hread⟩ := List.exists_of_findSome?_eq_some h
  obtain ⟨after, hafter, heq⟩ := Option.map_eq_some_iff.1 hread
  cases heq
  refine ⟨spelling, ?_, Text.isPrefixOf?_iff.1 hafter⟩
  simp only [spellings, List.mem_cons, Prod.mk.injEq, List.not_mem_nil, or_false] at hmem
  rcases hmem with ⟨rfl, rfl⟩ | ⟨rfl, rfl⟩ | ⟨rfl, rfl⟩ | ⟨rfl, rfl⟩ | ⟨rfl, rfl⟩ | ⟨rfl, rfl⟩
  · exact .le
  · exact .ge
  · exact .eq
  · exact .lt
  · exact .gt
  · exact .eqShort

end Comparison

namespace Literal

variable {text digits rest : List Char} {literal : Literal} {n : Nat}

theorem magnitude?_run (hdigits : ∀ c ∈ digits, c.isDigit) (hne : digits ≠ [])
    (hrest : rest.head?.any Char.isDigit = false) :
    read?.magnitude? (digits ++ rest) = some (Decimal.value digits) := by
  rw [read?.magnitude?, Text.takeWhile_run hdigits hrest]
  cases digits with
  | nil => exact absurd rfl hne
  | cons digit digits => rfl

/-- As many digits are read as there are. -/
theorem exists_run_of_magnitude? (h : read?.magnitude? text = some n) :
    ∃ digits rest, text = digits ++ rest ∧ (∀ c ∈ digits, c.isDigit) ∧ digits ≠ [] ∧
      rest.head?.any Char.isDigit = false ∧ n = Decimal.value digits := by
  refine ⟨text.takeWhile Char.isDigit, text.dropWhile Char.isDigit,
    List.takeWhile_append_dropWhile.symm, fun _ hc => List.mem_takeWhile_imp hc, ?_,
    Text.head?_any_dropWhile _ _, ?_⟩
  · intro hnil
    rw [read?.magnitude?, hnil] at h
    cases h
  · rw [read?.magnitude?] at h
    split at h
    · cases h
    · next hne => exact (Option.some.inj h).symm

end Literal

namespace WrittenGuard

variable {written first second : WrittenGuard} {text rest more : List Char}

/-- The literal starts with a sign or a digit. -/
theorem exists_literal_eq_cons (written : WrittenGuard) :
    ∃ c tail, written.literal = c :: tail ∧ (c = '-' ∨ c.isDigit) := by
  unfold literal
  split
  · exact ⟨'-', written.digits, rfl, .inl rfl⟩
  · obtain ⟨digit, digits, hdigits⟩ := List.exists_cons_of_ne_nil written.digits_ne_nil
    exact ⟨digit, digits, hdigits, .inr (written.isDigit_digits digit (by simp [hdigits]))⟩

/-- Neither blanks nor what a comparison could be read on by are signs or digits. -/
theorem not_blank_of_literal {c : Char} (h : c = '-' ∨ c.isDigit) :
    Text.isBlank c = false ∧ c ≠ '=' := by
  rcases h with rfl | h
  · decide
  · have hrange : 48 ≤ c.toNat ∧ c.toNat ≤ 57 := by
      simpa [Char.isDigit, UInt32.le_iff_toNat_le] using h
    refine ⟨?_, fun heq => ?_⟩
    · simp [Text.isBlank, Text.blankRanges]
      omega
    · subst heq
      revert hrange
      decide

theorem not_blank_literal (written : WrittenGuard) (rest : List Char) :
    (written.literal ++ rest).head?.any Text.isBlank = false := by
  obtain ⟨c, tail, heq, hc⟩ := written.exists_literal_eq_cons
  rw [heq]
  exact (not_blank_of_literal hc).1

/-- No comparison is read on by what comes after it in a guard. -/
theorem head?_after_comparison (written : WrittenGuard) (rest : List Char) :
    (written.beforeLiteral ++ (written.literal ++ rest)).head? ≠ some '=' := by
  cases hblanks : written.beforeLiteral with
  | nil =>
      obtain ⟨c, tail, heq, hc⟩ := written.exists_literal_eq_cons
      rw [heq]
      simpa using (not_blank_of_literal hc).2
  | cons blank blanks =>
      have hblank := written.isBlank_beforeLiteral blank (by simp [hblanks])
      rintro heq
      obtain rfl : blank = '=' := by simpa using heq
      exact absurd hblank (by decide)

theorem read?_literal (written : WrittenGuard) (hrest : rest.head?.any Char.isDigit = false) :
    Literal.read? (written.literal ++ rest) = some (.ofInt written.number) := by
  have hdigits := Literal.magnitude?_run written.isDigit_digits written.digits_ne_nil hrest
  rw [Decimal.value_eq_magnitude] at hdigits
  unfold literal number
  cases written.negative with
  | true =>
      change Literal.read? ('-' :: (written.digits ++ rest)) = _
      rw [Literal.read?, hdigits]
      rfl
  | false =>
      change Literal.read? (written.digits ++ rest) = _
      unfold Literal.read?
      split
      · next after heq =>
          -- a digit is no sign
          obtain ⟨digit, digits, hcons⟩ := List.exists_cons_of_ne_nil written.digits_ne_nil
          have hdigit := written.isDigit_digits digit (by simp [hcons])
          rw [hcons, List.cons_append, List.cons.injEq] at heq
          rw [heq.1] at hdigit
          exact absurd hdigit (by decide)
      · rw [hdigits]
        rfl

/-- A guard at the front of a text is read, if it is written with all its digits. -/
theorem read?_text (written : WrittenGuard) (hrest : rest.head?.any Char.isDigit = false) :
    Guard.read? (written.text ++ rest) = some written.guard := by
  have hversion (after : List Char) :
      (Marker.versionWord ++ after).head?.any Text.isBlank = false := rfl
  simp only [Guard.read?, text, List.append_assoc]
  rw [Text.skipBlanks_append written.isBlank_beforeVersion, Text.skipBlanks_eq_self (hversion _),
    Text.isPrefixOf?_iff.2 rfl]
  dsimp only [Option.bind_eq_bind, Option.bind_some]
  rw [Text.skipBlanks_append written.isBlank_beforeComparison,
    Text.skipBlanks_eq_self (written.spelled.not_blank _),
    written.spelled.read? (written.head?_after_comparison rest)]
  dsimp only [Option.bind_some]
  rw [Text.skipBlanks_append written.isBlank_beforeLiteral,
    Text.skipBlanks_eq_self (written.not_blank_literal rest), written.read?_literal hrest]
  rfl

/-- What is read of a literal is its sign and all its digits. -/
theorem exists_of_read?_literal {literal : Literal} (h : Literal.read? text = some literal) :
    ∃ (negative : Bool) (digits rest : List Char),
      text = (if negative then ['-'] else []) ++ digits ++ rest ∧ (∀ c ∈ digits, c.isDigit) ∧
        digits ≠ [] ∧ rest.head?.any Char.isDigit = false ∧
        literal = .ofInt (if negative then -magnitude digits else magnitude digits) := by
  unfold Literal.read? at h
  split at h
  · next after =>
      cases hread : Literal.read?.magnitude? after with
      | none =>
          rw [hread] at h
          cases h
      | some n =>
          obtain ⟨digits, rest, rfl, hdigits, hne, hrest, rfl⟩ :=
            Literal.exists_run_of_magnitude? hread
          rw [hread, Decimal.value_eq_magnitude] at h
          exact ⟨true, digits, rest, rfl, hdigits, hne, hrest, (Option.some.inj h).symm⟩
  · cases hread : Literal.read?.magnitude? text with
    | none =>
        rw [hread] at h
        cases h
    | some n =>
        obtain ⟨digits, rest, rfl, hdigits, hne, hrest, rfl⟩ :=
          Literal.exists_run_of_magnitude? hread
        rw [hread, Decimal.value_eq_magnitude] at h
        exact ⟨false, digits, rest, rfl, hdigits, hne, hrest, (Option.some.inj h).symm⟩

/-- A guard that is read is written at the front of the text, and has all its digits there. -/
theorem exists_of_read? {guard : Guard} (h : Guard.read? text = some guard) :
    ∃ (written : WrittenGuard) (rest : List Char), text = written.text ++ rest ∧
      rest.head?.any Char.isDigit = false ∧ written.guard = guard := by
  obtain ⟨afterVersion, hversion, h⟩ := Option.bind_eq_some_iff.1 h
  obtain ⟨⟨comparison, afterComparison⟩, hcomparison, h⟩ := Option.bind_eq_some_iff.1 h
  obtain ⟨literal, hliteral, h⟩ := Option.bind_eq_some_iff.1 h
  obtain ⟨beforeVersion, hbeforeVersion, htext⟩ := Text.exists_blanks text
  obtain ⟨beforeComparison, hbeforeComparison, hafterVersion⟩ := Text.exists_blanks afterVersion
  obtain ⟨beforeLiteral, hbeforeLiteral, hafterComparison⟩ := Text.exists_blanks afterComparison
  obtain ⟨spelling, hspelled, hspelling⟩ := Comparison.exists_spelledAs_of_read? hcomparison
  obtain ⟨negative, digits, rest, hdigits, hrun, hne, hrest, rfl⟩ :=
    exists_of_read?_literal hliteral
  refine ⟨{ beforeVersion, beforeComparison, comparison, spelling, beforeLiteral, negative, digits,
            isBlank_beforeVersion := hbeforeVersion
            isBlank_beforeComparison := hbeforeComparison
            spelled := hspelled
            isBlank_beforeLiteral := hbeforeLiteral
            isDigit_digits := hrun
            digits_ne_nil := hne }, rest, ?_, hrest, Option.some.inj h⟩
  rw [htext, Text.isPrefixOf?_iff.1 hversion, hafterVersion, hspelling, hafterComparison, hdigits]
  simp only [WrittenGuard.text, WrittenGuard.literal, List.append_assoc]

/-- A guard of which some digits are left out is written out with all of them. -/
theorem exists_longest (written : WrittenGuard) (rest : List Char) :
    ∃ (longest : WrittenGuard) (after : List Char), written.text ++ rest = longest.text ++ after ∧
      after.head?.any Char.isDigit = false := by
  refine ⟨{ written with
            digits := written.digits ++ rest.takeWhile Char.isDigit
            isDigit_digits := fun c hc => ?_
            digits_ne_nil := by simp [written.digits_ne_nil] },
    rest.dropWhile Char.isDigit, ?_, Text.head?_any_dropWhile _ _⟩
  · rcases List.mem_append.1 hc with hc | hc
    · exact written.isDigit_digits c hc
    · exact List.mem_takeWhile_imp hc
  · simp only [WrittenGuard.text, literal, List.append_assoc, List.takeWhile_append_dropWhile]

/-! ## One way to read -/

theorem head?_literal_iff (written : WrittenGuard) (rest : List Char) :
    (written.literal ++ rest).head? = some '-' ↔ written.negative := by
  unfold literal
  cases written.negative with
  | true => simp
  | false =>
      obtain ⟨digit, digits, hcons⟩ := List.exists_cons_of_ne_nil written.digits_ne_nil
      have hdigit := written.isDigit_digits digit (by simp [hcons])
      have hsign : digit ≠ '-' := by
        rintro rfl
        exact absurd hdigit (by decide)
      simp [hcons, hsign]

/-- Two ways to take a text apart into a guard and what comes after it differ in nothing but where
the digits end. So they do not differ if all digits are taken. -/
theorem shortens_of_text_append (hrest : rest.head?.any Char.isDigit = false)
    (h : second.text ++ more = first.text ++ rest) : second.Shortens first := by
  have hversion (after : List Char) :
      (Marker.versionWord ++ after).head?.any Text.isBlank = false := rfl
  simp only [text, List.append_assoc] at h
  obtain ⟨hbeforeVersion, h⟩ := Text.run_inj second.isBlank_beforeVersion
    first.isBlank_beforeVersion (hversion _) (hversion _) h
  obtain ⟨hbeforeComparison, h⟩ := Text.run_inj second.isBlank_beforeComparison
    first.isBlank_beforeComparison (second.spelled.not_blank _) (first.spelled.not_blank _)
    (List.append_cancel_left h)
  -- the same text is read as one comparison and as the other
  have hread := second.spelled.read? (second.head?_after_comparison more)
  rw [h, first.spelled.read? (first.head?_after_comparison rest), Option.some.injEq,
    Prod.mk.injEq] at hread
  obtain ⟨hcomparison, hafter⟩ := hread
  rw [hafter] at h
  obtain ⟨hbeforeLiteral, hliteral⟩ := Text.run_inj second.isBlank_beforeLiteral
    first.isBlank_beforeLiteral (second.not_blank_literal more) (first.not_blank_literal rest)
    hafter.symm
  have hsign : second.negative = first.negative := by
    rw [Bool.eq_iff_iff, ← head?_literal_iff _ more, ← head?_literal_iff _ rest, hliteral]
  unfold literal at hliteral
  rw [hsign, List.append_assoc, List.append_assoc] at hliteral
  have hdigits := congrArg (List.takeWhile Char.isDigit) (List.append_cancel_left hliteral)
  rw [Text.takeWhile_run first.isDigit_digits hrest,
    List.takeWhile_append_of_pos second.isDigit_digits] at hdigits
  exact ⟨hbeforeVersion, hbeforeComparison, hcomparison.symm, List.append_cancel_right h,
    hbeforeLiteral, hsign, _, hdigits⟩

end WrittenGuard

/-! ## Lines -/

namespace Marker

variable {line : List Char} {guard : Guard}

/-- `VERSION` is written somewhere after an `#endif` that is preceded by `front`. -/
def ClosesAfter (line front : List Char) : Prop :=
  ∃ rest, line = front ++ closingWord ++ rest ∧ versionWord <:+: rest

theorem ofLine_eq_opening_iff :
    ofLine line = .opening guard ↔
      (Text.after openingWord line).findSome? Guard.read? = some guard := by
  unfold ofLine
  split
  · next found hfound => simp [hfound]
  · next hnone =>
      rw [hnone]
      split <;> simp

/-- The guard that a line opens is the first one that is written in it. -/
theorem ofLine_eq_opening_iff_leadsIn :
    ofLine line = .opening guard ↔ ∃ front written rest,
      WrittenGuard.LeadsIn written line front rest ∧ written.guard = guard := by
  rw [ofLine_eq_opening_iff, Text.findSome?_after_eq_some_iff]
  constructor
  · rintro ⟨front, after, hline, hread, hfirst⟩
    obtain ⟨written, rest, rfl, hrest, hguard⟩ := WrittenGuard.exists_of_read? hread
    refine ⟨front, written, rest, ⟨hline, fun {other before later} hother => ?_, hrest⟩, hguard⟩
    by_contra hshort
    obtain ⟨longest, tail, hlongest, hend⟩ := other.exists_longest later
    have hnone := hfirst before _ hother (Nat.lt_of_not_le hshort)
    rw [hlongest, longest.read?_text hend] at hnone
    cases hnone
  · rintro ⟨front, written, rest, hleads, rfl⟩
    refine ⟨front, written.text ++ rest, hleads.stands, written.read?_text hleads.longest, ?_⟩
    intro before later hbefore hshort
    by_contra hsome
    obtain ⟨guard, hguard⟩ := Option.ne_none_iff_exists'.1 hsome
    obtain ⟨other, after, rfl, -, -⟩ := WrittenGuard.exists_of_read? hguard
    exact absurd (hleads.first hbefore) (Nat.not_le_of_lt hshort)

/-- A line opens a guard if one is written anywhere in it. -/
theorem exists_ofLine_eq_opening_iff :
    (∃ guard, ofLine line = .opening guard) ↔
      ∃ front written rest, WrittenGuard.StandsIn written line front rest := by
  constructor
  · rintro ⟨guard, hguard⟩
    obtain ⟨front, written, rest, hleads, -⟩ := ofLine_eq_opening_iff_leadsIn.1 hguard
    exact ⟨front, written, rest, hleads.stands⟩
  · rintro ⟨front, written, rest, hstands⟩
    obtain ⟨longest, after, hlongest, hend⟩ := written.exists_longest rest
    have hmem : longest.text ++ after ∈ Text.after openingWord line :=
      Text.mem_after_iff.2 ⟨front, hlongest ▸ hstands⟩
    cases hfound : (Text.after openingWord line).findSome? Guard.read? with
    | some guard => exact ⟨guard, ofLine_eq_opening_iff.2 hfound⟩
    | none =>
        have hnone := List.findSome?_eq_none_iff.1 hfound _ hmem
        rw [longest.read?_text hend] at hnone
        cases hnone

/-- A line that opens no guard closes one if `VERSION` follows some `#endif`. -/
theorem ofLine_eq_closing_iff :
    ofLine line = .closing ↔
      (¬∃ guard, ofLine line = .opening guard) ∧ ∃ front, ClosesAfter line front := by
  have hcloses : (Text.after closingWord line).any (Text.hasWord versionWord) ↔
      ∃ front, ClosesAfter line front := by
    simp only [List.any_eq_true, Text.mem_after_iff, Text.hasWord_iff, ClosesAfter]
    constructor
    · rintro ⟨rest, ⟨front, hfront⟩, hrest⟩
      exact ⟨front, rest, hfront, hrest⟩
    · rintro ⟨front, rest, hfront, hrest⟩
      exact ⟨rest, ⟨front, hfront⟩, hrest⟩
  rw [← hcloses]
  unfold ofLine
  split
  · simp
  · split
    · next hany => simp [hany]
    · next hany => simp [hany]

/-- If `VERSION` follows any `#endif`, it follows the first one. -/
theorem exists_closesAfter_iff :
    (∃ front, ClosesAfter line front) ↔ ∃ front, ClosesAfter line front ∧
      ∀ before later, line = before ++ closingWord ++ later → front.length ≤ before.length := by
  refine ⟨?_, fun ⟨front, hcloses, _⟩ => ⟨front, hcloses⟩⟩
  rintro ⟨front, rest, hfront, hrest⟩
  have hmem : rest ∈ Text.after closingWord line := Text.mem_after_iff.2 ⟨front, hfront⟩
  cases hfound : (Text.after closingWord line).findSome? some with
  | none => cases List.findSome?_eq_none_iff.1 hfound rest hmem
  | some first =>
      obtain ⟨before, after, hbefore, -, hnone⟩ := Text.findSome?_after_eq_some_iff.1 hfound
      have hfirst (other later : List Char) (hother : line = other ++ closingWord ++ later) :
          before.length ≤ other.length := by
        by_contra hshort
        cases hnone other later hother (Nat.lt_of_not_le hshort)
      refine ⟨before, ⟨after, hbefore, hrest.trans ?_⟩, hfirst⟩
      -- what follows a later occurrence is the end of what follows the first one
      have hshort := hfirst front rest hfront
      have hlengths := congrArg List.length (hfront.symm.trans hbefore)
      simp only [List.length_append] at hlengths
      exact (List.suffix_of_suffix_length_le ⟨_, hfront.symm⟩ ⟨_, hbefore.symm⟩
        (by omega)).isInfix

/-- What a line is, told by what is written in it. A guard can be read in one way only where it
stands, apart from digits at its end that are left out. -/
theorem ofLine_grammar (line : List Char) :
    (∀ guard, ofLine line = .opening guard ↔ ∃ front written rest,
      WrittenGuard.LeadsIn written line front rest ∧ written.guard = guard) ∧
    ((∃ guard, ofLine line = .opening guard) ↔
      ∃ front written rest, WrittenGuard.StandsIn written line front rest) ∧
    (∀ front written rest other more, WrittenGuard.LeadsIn written line front rest →
      WrittenGuard.StandsIn other line front more → other.Shortens written) ∧
    (ofLine line = .closing ↔
      (¬∃ front written rest, WrittenGuard.StandsIn written line front rest) ∧
        ∃ front, ClosesAfter line front) ∧
    ((∃ front, ClosesAfter line front) ↔ ∃ front, ClosesAfter line front ∧
      ∀ before later, line = before ++ closingWord ++ later → front.length ≤ before.length) ∧
    (ofLine line = .ordinary ↔
      (¬∃ front written rest, WrittenGuard.StandsIn written line front rest) ∧
        ¬∃ front, ClosesAfter line front) := by
  refine ⟨fun guard => ofLine_eq_opening_iff_leadsIn, exists_ofLine_eq_opening_iff, ?_, ?_,
    exists_closesAfter_iff, ?_⟩
  · intro front written rest other more hleads hother
    have hsame := hother.symm.trans hleads.stands
    exact WrittenGuard.shortens_of_text_append hleads.longest (List.append_cancel_left hsame)
  · rw [ofLine_eq_closing_iff, exists_ofLine_eq_opening_iff]
  · -- what neither opens nor closes a guard is ordinary
    rw [← exists_ofLine_eq_opening_iff]
    cases hline : ofLine line with
    | opening guard => simp
    | closing =>
        have hcloses := (ofLine_eq_closing_iff.1 hline).2
        simp [hcloses]
    | ordinary =>
        have hnot : ¬∃ front, ClosesAfter line front := by
          intro hcloses
          have hclosing := ofLine_eq_closing_iff.2 ⟨by simp [hline], hcloses⟩
          rw [hline] at hclosing
          cases hclosing
        simp [hnot]

/-- An `#if` that no guard follows does not hide a later one. -/
example : ofLine "#if DEBUG /* #if VERSION >= 1 */".toList = .opening ⟨.ge, .within 1⟩ := by
  decide +kernel

end Marker

end Snapshot
