import Snapshot.Text.Utf8

/-!
# Decoding what was encoded

The steps of the decoder as equations, one for each kind of byte that it can meet in valid text, and
from them that decoding undoes encoding.
-/

namespace Snapshot.Utf8

theorem decodeFrom_of_start {byte : UInt8} {state : Unfinished} {rest : List UInt8}
    (hstart : start byte = .unfinished state) :
    decodeFrom none (byte :: rest) = decodeFrom (some state) rest := by
  simp [decodeFrom, hstart, Progress.decoded, Progress.pending]

theorem decodeFrom_of_accepts {state : Unfinished} {byte : UInt8} {rest : List UInt8} {more : Nat}
    (haccepts : state.accepts byte) (hmore : state.more = more + 1) :
    decodeFrom (some state) (byte :: rest) =
      decodeFrom (some ⟨64 * state.bits + (byte.toNat - 0x80), 0x80, 0xBF, more⟩) rest := by
  simp [decodeFrom, haccepts, Unfinished.extend, hmore, Progress.decoded, Progress.pending]

theorem decodeFrom_of_accepts_last {state : Unfinished} {byte : UInt8} {rest : List UInt8}
    (haccepts : state.accepts byte) (hmore : state.more = 0) :
    decodeFrom (some state) (byte :: rest) =
      some (Char.ofNat (64 * state.bits + (byte.toNat - 0x80))) :: decodeFrom none rest := by
  simp [decodeFrom, haccepts, Unfinished.extend, hmore, Progress.decoded, Progress.pending]

theorem accepts_iff {state : Unfinished} {byte : UInt8} :
    state.accepts byte ↔ state.low.toNat ≤ byte.toNat ∧ byte.toNat ≤ state.high.toNat := by
  simp [Unfinished.accepts, UInt8.le_iff_toNat_le]

private theorem toNat_ofNat_of_lt {n : Nat} (h : n < 256) : (UInt8.ofNat n).toNat = n := by
  rw [UInt8.toNat_ofNat']
  exact Nat.mod_eq_of_lt h

/-- The byte of an ASCII character stands for it wherever a character starts. -/
theorem decodeFrom_ascii {byte : UInt8} {rest : List UInt8} (hascii : byte.toNat < 0x80) :
    decodeFrom none (byte :: rest) = some (Char.ofNat byte.toNat) :: decodeFrom none rest := by
  have hlt : byte < 0x80 := hascii
  simp [decodeFrom, start, hlt, Progress.decoded, Progress.pending]

theorem start_of_two {byte : UInt8} (hlow : 0xC2 ≤ byte.toNat) (hhigh : byte.toNat < 0xE0) :
    start byte = .unfinished ⟨byte.toNat - 0xC0, 0x80, 0xBF, 0⟩ := by
  simp only [start, UInt8.lt_iff_toNat_lt]
  rw [if_neg (by simp; omega), if_neg (by simp; omega), if_pos (by simpa using hhigh)]

theorem start_of_three {byte : UInt8} (hlow : 0xE0 ≤ byte.toNat) (hhigh : byte.toNat < 0xF0) :
    start byte = .unfinished ⟨byte.toNat - 0xE0, if byte = 0xE0 then 0xA0 else 0x80,
      if byte = 0xED then 0x9F else 0xBF, 1⟩ := by
  simp only [start, UInt8.lt_iff_toNat_lt]
  rw [if_neg (by simp; omega), if_neg (by simp; omega), if_neg (by simp; omega),
    if_pos (by simpa using hhigh)]

theorem start_of_four {byte : UInt8} (hlow : 0xF0 ≤ byte.toNat) (hhigh : byte.toNat < 0xF5) :
    start byte = .unfinished ⟨byte.toNat - 0xF0, if byte = 0xF0 then 0x90 else 0x80,
      if byte = 0xF4 then 0x8F else 0xBF, 2⟩ := by
  simp only [start, UInt8.lt_iff_toNat_lt]
  rw [if_neg (by simp; omega), if_neg (by simp; omega), if_neg (by simp; omega),
    if_neg (by simp; omega), if_pos (by simpa using hhigh)]

/-- The bytes of a character stand for it wherever a character starts. -/
theorem decodeFrom_utf8EncodeChar (c : Char) (rest : List UInt8) :
    decodeFrom none (String.utf8EncodeChar c ++ rest) = some c :: decodeFrom none rest := by
  have hvalid : c.toNat < 0xD800 ∨ 0xDFFF < c.toNat ∧ c.toNat < 0x110000 := c.valid
  have hc : Char.ofNat c.toNat = c := Char.ofNat_toNat c
  have hval : c.val.toNat = c.toNat := rfl
  rw [String.utf8EncodeChar, hval]
  generalize c.toNat = n at *
  subst hc
  split
  · have h0 := toNat_ofNat_of_lt (n := n) (by omega)
    rw [List.cons_append, decodeFrom_ascii (by omega), h0, List.nil_append]
  · split
    · have h1 := toNat_ofNat_of_lt (n := n / 64 % 32 + 192) (by omega)
      have h2 := toNat_ofNat_of_lt (n := n % 64 + 128) (by omega)
      have hsum : 64 * (n / 64 % 32 + 192 - 0xC0) + (n % 64 + 128 - 0x80) = n := by omega
      simp only [List.cons_append, List.nil_append]
      rw [decodeFrom_of_start (start_of_two (by omega) (by omega)),
        decodeFrom_of_accepts_last (accepts_iff.2 (by simp; omega)) rfl, h1, h2, hsum]
    · split
      · have h1 := toNat_ofNat_of_lt (n := n / 4096 % 16 + 224) (by omega)
        have h2 := toNat_ofNat_of_lt (n := n / 64 % 64 + 128) (by omega)
        have h3 := toNat_ofNat_of_lt (n := n % 64 + 128) (by omega)
        have hsum : 64 * (64 * (n / 4096 % 16 + 224 - 0xE0) + (n / 64 % 64 + 128 - 0x80)) +
            (n % 64 + 128 - 0x80) = n := by omega
        simp only [List.cons_append, List.nil_append]
        rw [decodeFrom_of_start (start_of_three (by omega) (by omega)),
          decodeFrom_of_accepts (accepts_iff.2 ?_) rfl,
          decodeFrom_of_accepts_last (accepts_iff.2 (by simp; omega)) rfl, h1, h2, h3, hsum]
        simp only [← UInt8.toNat_inj, h1, h2]
        constructor <;> split <;> simp_all <;> omega
      · have h1 := toNat_ofNat_of_lt (n := n / 262144 % 8 + 240) (by omega)
        have h2 := toNat_ofNat_of_lt (n := n / 4096 % 64 + 128) (by omega)
        have h3 := toNat_ofNat_of_lt (n := n / 64 % 64 + 128) (by omega)
        have h4 := toNat_ofNat_of_lt (n := n % 64 + 128) (by omega)
        have hsum : 64 * (64 * (64 * (n / 262144 % 8 + 240 - 0xF0) + (n / 4096 % 64 + 128 - 0x80)) +
            (n / 64 % 64 + 128 - 0x80)) + (n % 64 + 128 - 0x80) = n := by omega
        simp only [List.cons_append, List.nil_append]
        rw [decodeFrom_of_start (start_of_four (by omega) (by omega)),
          decodeFrom_of_accepts (accepts_iff.2 ?_) rfl,
          decodeFrom_of_accepts (accepts_iff.2 (by simp; omega)) rfl,
          decodeFrom_of_accepts_last (accepts_iff.2 (by simp; omega)) rfl, h1, h2, h3, h4, hsum]
        simp only [← UInt8.toNat_inj, h1, h2]
        constructor <;> split <;> simp_all <;> omega

/-- Decoding the bytes of a text gives the text, and finds nothing invalid. -/
theorem decode_encode (text : List Char) : decode (encode text) = text.map some := by
  induction text with
  | nil => rfl
  | cons c text ih =>
      rw [decode, encode_cons, decodeFrom_utf8EncodeChar, List.map_cons, ← ih, decode]

@[simp] theorem text?_encode (text : List Char) : text? (encode text) = some text := by
  rw [text?, decode_encode]
  induction text with
  | nil => rfl
  | cons c text ih => simp_all

@[simp] theorem lossyText_encode (text : List Char) : lossyText (encode text) = text := by
  simp [lossyText, decode_encode, Function.comp_def]

/-! ## Which bytes stand for a character -/

/-- Only a character that is ASCII has a byte that is. -/
theorem le_toNat_of_mem_utf8EncodeChar {c : Char} {byte : UInt8} (hc : 0x80 ≤ c.toNat)
    (h : byte ∈ String.utf8EncodeChar c) : 0x80 ≤ byte.toNat := by
  have hlarge {n : Nat} (hn : 0x80 ≤ n ∧ n < 0x100) : 0x80 ≤ (UInt8.ofNat n).toNat := by
    rw [toNat_ofNat_of_lt hn.2]
    exact hn.1
  have hval : c.val.toNat = c.toNat := rfl
  simp only [String.utf8EncodeChar, hval] at h
  rw [if_neg (by omega)] at h
  split at h
  · simp only [List.mem_cons, List.not_mem_nil, or_false] at h
    rcases h with rfl | rfl <;> exact hlarge (by omega)
  · split at h
    · simp only [List.mem_cons, List.not_mem_nil, or_false] at h
      rcases h with rfl | rfl | rfl <;> exact hlarge (by omega)
    · simp only [List.mem_cons, List.not_mem_nil, or_false] at h
      rcases h with rfl | rfl | rfl | rfl <;> exact hlarge (by omega)

theorem newline_not_mem_utf8EncodeChar {c : Char} (hc : c ≠ '\n') :
    0x0A ∉ String.utf8EncodeChar c := by
  intro h
  by_cases hascii : c.toNat < 0x80
  · have hbytes : String.utf8EncodeChar c = [UInt8.ofNat c.toNat] :=
      if_pos (Nat.le_of_lt_succ hascii)
    rw [hbytes, List.mem_singleton, ← UInt8.toNat_inj, toNat_ofNat_of_lt (by omega)] at h
    exact hc (Char.toNat_inj.1 h.symm)
  · exact absurd (le_toNat_of_mem_utf8EncodeChar (Nat.le_of_not_lt hascii) h) (by decide)

theorem flatten_map_encode (lines : List (List Char)) :
    (lines.map encode).flatten = encode lines.flatten := by
  induction lines with
  | nil => rfl
  | cons line lines ih => simp [ih]

end Snapshot.Utf8
