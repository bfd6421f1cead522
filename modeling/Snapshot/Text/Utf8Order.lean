import Mathlib.Data.Char
import Mathlib.Data.List.Lex
import Snapshot.Text.Utf8Lemmas

/-!
# The order of encoded texts

Texts that are compared byte by byte compare as their characters do: a greater code point has a
greater first byte, or the same one and then a greater byte before the characters are told apart.
-/

namespace Snapshot.Utf8

/-- The first byte of a character, which tells how many others follow. -/
def lead (code : Nat) : Nat :=
  if code ≤ 0x7F then code
  else if code ≤ 0x7FF then code / 64 + 0xC0
  else if code ≤ 0xFFFF then code / 4096 + 0xE0
  else code / 262144 + 0xF0

/-- A byte with the last six bits of a number. -/
def sixBits (code : Nat) : UInt8 :=
  .ofNat (code % 64 + 0x80)

/-- The bytes of a character after its first one. -/
def later (code : Nat) : List UInt8 :=
  if code ≤ 0x7F then []
  else if code ≤ 0x7FF then [sixBits code]
  else if code ≤ 0xFFFF then [sixBits (code / 64), sixBits code]
  else [sixBits (code / 4096), sixBits (code / 64), sixBits code]

theorem toNat_lt_of_char (c : Char) : c.toNat < 0x110000 := by
  have hvalid : c.toNat < 0xD800 ∨ 0xDFFF < c.toNat ∧ c.toNat < 0x110000 := c.valid
  omega

theorem utf8EncodeChar_eq (c : Char) :
    String.utf8EncodeChar c = .ofNat (lead c.toNat) :: later c.toNat := by
  have hmax := toNat_lt_of_char c
  have hval : c.val.toNat = c.toNat := rfl
  simp only [String.utf8EncodeChar, hval, lead, later, sixBits]
  generalize c.toNat = code at *
  split
  · rfl
  · split
    · rw [Nat.mod_eq_of_lt (by omega : code / 64 < 32)]
    · split
      · rw [Nat.mod_eq_of_lt (by omega : code / 4096 < 16)]
      · rw [Nat.mod_eq_of_lt (by omega : code / 262144 < 8)]

theorem cons_lt_cons_iff_of_lt {first second : Nat} (hfirst : first < 256) (hsecond : second < 256)
    {left right : List UInt8} : UInt8.ofNat first :: left < UInt8.ofNat second :: right ↔
      first < second ∨ first = second ∧ left < right := by
  rw [List.cons_lt_cons_iff, UInt8.lt_iff_toNat_lt, ← UInt8.toNat_inj, UInt8.toNat_ofNat',
    UInt8.toNat_ofNat', Nat.mod_eq_of_lt hfirst, Nat.mod_eq_of_lt hsecond]

theorem sixBits_cons_lt_iff {first second : Nat} {left right : List UInt8} :
    sixBits first :: left < sixBits second :: right ↔
      first % 64 < second % 64 ∨ first % 64 = second % 64 ∧ left < right := by
  rw [sixBits, sixBits, cons_lt_cons_iff_of_lt (by omega) (by omega), Nat.add_lt_add_iff_right,
    Nat.add_right_cancel_iff]

theorem lead_le {code other : Nat} (h : code < other) (hmax : other < 0x110000) :
    lead code ≤ lead other ∧ lead other < 256 := by
  unfold lead
  split_ifs <;> omega

/-- Characters with the same first byte differ in a later one. -/
theorem later_append_lt {code other : Nat} (h : code < other) (hmax : other < 0x110000)
    (hlead : lead code = lead other) (left right : List UInt8) :
    later code ++ left < later other ++ right := by
  unfold lead at hlead
  unfold later
  split_ifs at hlead ⊢ with hone hone' htwo htwo' hthree hthree' <;> try omega
  all_goals simp only [List.cons_append, List.nil_append, sixBits_cons_lt_iff]; omega

theorem utf8EncodeChar_append_lt {c d : Char} (h : c < d) (left right : List UInt8) :
    String.utf8EncodeChar c ++ left < String.utf8EncodeChar d ++ right := by
  have hless : c.toNat < d.toNat := h
  have hmax := toNat_lt_of_char d
  obtain ⟨hle, hlt⟩ := lead_le hless hmax
  rw [utf8EncodeChar_eq, utf8EncodeChar_eq, List.cons_append, List.cons_append,
    cons_lt_cons_iff_of_lt (Nat.lt_of_le_of_lt hle hlt) hlt]
  exact (Nat.lt_or_eq_of_le hle).imp_right fun heq =>
    ⟨heq, later_append_lt hless hmax heq left right⟩

theorem encode_lt_encode {left right : List Char} (h : left < right) :
    encode left < encode right := by
  induction h with
  | nil =>
      rw [encode_nil, encode_cons, utf8EncodeChar_eq]
      exact List.Lex.nil
  | rel h =>
      rw [encode_cons, encode_cons]
      exact utf8EncodeChar_append_lt h _ _
  | cons h ih =>
      rw [encode_cons, encode_cons]
      exact List.Lex.append_left _ ih _

/-- Texts are in the order of their bytes. -/
theorem encode_lt_encode_iff {left right : String} :
    encode left.toList < encode right.toList ↔ left < right := by
  rw [String.lt_iff]
  refine ⟨fun h => ?_, encode_lt_encode⟩
  rcases lt_trichotomy left.toList right.toList with hless | heq | hgreater
  · exact hless
  · rw [heq] at h
    exact absurd h (List.lt_irrefl _)
  · exact absurd h (List.lt_asymm (encode_lt_encode hgreater))

end Snapshot.Utf8
