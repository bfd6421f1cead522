import Mathlib.Algebra.GroupWithZero.Nat
import Snapshot.Text.Utf8Lemmas
import Snapshot.Text.Words

/-!
# Invalid bytes beside ASCII

The decoder reads a byte at a time. What a byte adds to the text, and what it leaves unfinished, is
told here for every byte and every state that decoding can be in. An ASCII byte always adds its own
character last and leaves nothing unfinished; any other byte adds no ASCII character at all. So an
ASCII word is found in the decoded text where it is found in the bytes, whatever stands around it:
characters, strays, overlong forms, or the start of a character that is broken off.
-/

namespace Snapshot

namespace Utf8

/-! ## One byte -/

/-- What a byte adds to the decoded text. -/
def emits : Option Unfinished → UInt8 → List (Option Char)
  | none, byte => (start byte).decoded
  | some state, byte =>
      if state.accepts byte then (state.extend byte).decoded else none :: (start byte).decoded

/-- What a byte leaves unfinished. -/
def leaves : Option Unfinished → UInt8 → Option Unfinished
  | none, byte => (start byte).pending
  | some state, byte =>
      if state.accepts byte then (state.extend byte).pending else (start byte).pending

/-- What is decoded where an unfinished character is broken off. -/
def flush (pending : Option Unfinished) : List (Option Char) :=
  pending.toList.map fun _ => none

theorem decodeFrom_cons (pending : Option Unfinished) (byte : UInt8) (rest : List UInt8) :
    decodeFrom pending (byte :: rest) =
      emits pending byte ++ decodeFrom (leaves pending byte) rest := by
  cases pending with
  | none => rfl
  | some state =>
      rw [decodeFrom, emits, leaves]
      split
      · rfl
      · rfl

/-! ## What may be unfinished -/

theorem toNat_charOfNat {n : Nat} (h : n.isValidChar) : (Char.ofNat n).toNat = n := by
  rw [Char.ofNat, dif_pos h]
  rfl

/-- Neither an invalid part nor a character that is not ASCII. -/
def IsForeign (char? : Option Char) : Prop :=
  ∀ c ∈ char?, 0x80 ≤ c.toNat

namespace Unfinished

variable {state : Unfinished} {byte : UInt8}

/-- The least code point that the character can still have. -/
def least (state : Unfinished) : Nat :=
  (64 * state.bits + (state.low.toNat - 0x80)) * 64 ^ state.more

/-- The least number above the code points that the character can still have. -/
def limit (state : Unfinished) : Nat :=
  (64 * state.bits + (state.high.toNat - 0x80) + 1) * 64 ^ state.more

/-- Only continuation bytes go on with the character, and whichever they are, it is a character of
more than one byte: neither overlong, nor a surrogate, nor above the last code point. -/
structure Sound (state : Unfinished) : Prop where
  low_le : 0x80 ≤ state.low.toNat
  le_high : state.high.toNat ≤ 0xBF
  le_least : 0x80 ≤ state.least
  scalar : state.limit ≤ 0xD800 ∨ 0xE000 ≤ state.least ∧ state.limit ≤ 0x110000

theorem sound_of_two (hlow : 0xC2 ≤ byte.toNat) (hhigh : byte.toNat < 0xE0) :
    Sound ⟨byte.toNat - 0xC0, 0x80, 0xBF, 0⟩ where
  low_le := Nat.le_refl _
  le_high := Nat.le_refl _
  le_least := by
    simp only [least, UInt8.reduceToNat]
    omega
  scalar := by
    simp only [least, limit, UInt8.reduceToNat]
    omega

/-- The bounds of the second byte keep out overlong forms and surrogates. -/
theorem sound_of_three (hlow : 0xE0 ≤ byte.toNat) (hhigh : byte.toNat < 0xF0) :
    Sound ⟨byte.toNat - 0xE0, if byte = 0xE0 then 0xA0 else 0x80,
      if byte = 0xED then 0x9F else 0xBF, 1⟩ := by
  have hfirst : byte = 0xE0 ↔ byte.toNat = 0xE0 := UInt8.toNat_inj.symm
  have hsurrogate : byte = 0xED ↔ byte.toNat = 0xED := UInt8.toNat_inj.symm
  refine ⟨?_, ?_, ?_, ?_⟩ <;> simp only [least, limit, hfirst, hsurrogate, apply_ite UInt8.toNat,
    UInt8.reduceToNat]
  · split <;> omega
  · split <;> omega
  · split <;> omega
  · split <;> split <;> omega

/-- The bounds of the second byte keep out overlong forms and what is above the last code point. -/
theorem sound_of_four (hlow : 0xF0 ≤ byte.toNat) (hhigh : byte.toNat < 0xF5) :
    Sound ⟨byte.toNat - 0xF0, if byte = 0xF0 then 0x90 else 0x80,
      if byte = 0xF4 then 0x8F else 0xBF, 2⟩ := by
  have hfirst : byte = 0xF0 ↔ byte.toNat = 0xF0 := UInt8.toNat_inj.symm
  have hlast : byte = 0xF4 ↔ byte.toNat = 0xF4 := UInt8.toNat_inj.symm
  refine ⟨?_, ?_, ?_, ?_⟩ <;> simp only [least, limit, hfirst, hlast, apply_ite UInt8.toNat,
    UInt8.reduceToNat]
  · split <;> omega
  · split <;> omega
  · split <;> omega
  · split <;> split <;> omega

/-- A continuation byte narrows down which character it can be. -/
theorem Sound.narrow {more : Nat} (h : state.Sound) (haccepts : state.accepts byte)
    (hmore : state.more = more + 1) :
    Sound ⟨64 * state.bits + (byte.toNat - 0x80), 0x80, 0xBF, more⟩ := by
  obtain ⟨hlow, hhigh⟩ := accepts_iff.1 haccepts
  have hleast : state.least ≤ (64 * state.bits + (byte.toNat - 0x80)) * 64 ^ (more + 1) := by
    rw [least, hmore]
    exact Nat.mul_le_mul_right _ (by omega)
  have hlimit : (64 * state.bits + (byte.toNat - 0x80) + 1) * 64 ^ (more + 1) ≤ state.limit := by
    rw [limit, hmore]
    exact Nat.mul_le_mul_right _ (by omega)
  generalize 64 * state.bits + (byte.toNat - 0x80) = bits at hleast hlimit ⊢
  have hpow (n : Nat) : n * 64 ^ (more + 1) = 64 * n * 64 ^ more := by
    rw [Nat.pow_succ', ← Nat.mul_assoc, Nat.mul_comm n 64]
  have hnewLeast : least ⟨bits, 0x80, 0xBF, more⟩ = bits * 64 ^ (more + 1) := by
    simp only [hpow, least, UInt8.reduceToNat, Nat.sub_self, Nat.add_zero]
  have hnewLimit : limit ⟨bits, 0x80, 0xBF, more⟩ = (bits + 1) * 64 ^ (more + 1) := by
    have hfill : 64 * bits + (0xBF - 0x80) + 1 = 64 * (bits + 1) := by omega
    simp only [hpow, limit, UInt8.reduceToNat, hfill]
  refine ⟨Nat.le_refl _, Nat.le_refl _, ?_, ?_⟩
  · rw [hnewLeast]
    exact Nat.le_trans h.le_least hleast
  · rw [hnewLeast, hnewLimit]
    exact h.scalar.imp (Nat.le_trans hlimit) fun ⟨habove, hbelow⟩ =>
      ⟨Nat.le_trans habove hleast, Nat.le_trans hlimit hbelow⟩

/-- The last continuation byte makes it that character. -/
theorem Sound.complete (h : state.Sound) (haccepts : state.accepts byte) (hmore : state.more = 0) :
    0x80 ≤ (Char.ofNat (64 * state.bits + (byte.toNat - 0x80))).toNat := by
  obtain ⟨hlow, hhigh⟩ := accepts_iff.1 haccepts
  have hle := h.le_least
  have hscalar := h.scalar
  simp only [least, limit, hmore, Nat.pow_zero, Nat.mul_one] at hle hscalar
  generalize hn : 64 * state.bits + (byte.toNat - 0x80) = n
  have hvalid : n.isValidChar := by
    rw [Nat.isValidChar]
    omega
  rw [toNat_charOfNat hvalid]
  omega

end Unfinished

/-- Nothing ASCII comes of the step, now or later. -/
structure Progress.Foreign (progress : Progress) : Prop where
  decoded : ∀ char? ∈ progress.decoded, IsForeign char?
  pending : ∀ state ∈ progress.pending, state.Sound

namespace Progress

theorem foreign_done {char? : Option Char} (h : IsForeign char?) : (done char?).Foreign where
  decoded := by simpa [Progress.decoded] using h
  pending := by simp [Progress.pending]

theorem foreign_unfinished {state : Unfinished} (h : state.Sound) : (unfinished state).Foreign where
  decoded := by simp [Progress.decoded]
  pending := by simpa [Progress.pending] using h

end Progress

variable {pending : Option Unfinished} {state : Unfinished} {byte : UInt8}

theorem isForeign_none : IsForeign none := by
  simp [IsForeign]

theorem foreign_start (hbyte : 0x80 ≤ byte.toNat) : (start byte).Foreign := by
  by_cases hstray : byte.toNat < 0xC2 ∨ 0xF5 ≤ byte.toNat
  · have hdone : start byte = .done none := by
      simp only [start, UInt8.lt_iff_toNat_lt, UInt8.reduceToNat]
      rw [if_neg (by omega)]
      rcases hstray with hlow | hhigh
      · rw [if_pos hlow]
      · rw [if_neg (by omega), if_neg (by omega), if_neg (by omega), if_neg (by omega)]
    rw [hdone]
    exact Progress.foreign_done isForeign_none
  · by_cases htwo : byte.toNat < 0xE0
    · rw [start_of_two (by omega) htwo]
      exact Progress.foreign_unfinished (Unfinished.sound_of_two (by omega) htwo)
    · by_cases hthree : byte.toNat < 0xF0
      · rw [start_of_three (by omega) hthree]
        exact Progress.foreign_unfinished (Unfinished.sound_of_three (by omega) hthree)
      · rw [start_of_four (by omega) (by omega)]
        exact Progress.foreign_unfinished (Unfinished.sound_of_four (by omega) (by omega))

theorem Unfinished.Sound.foreign_extend (h : state.Sound) (haccepts : state.accepts byte) :
    (state.extend byte).Foreign := by
  cases hmore : state.more with
  | zero =>
      have hdone : state.extend byte =
          .done (some (Char.ofNat (64 * state.bits + (byte.toNat - 0x80)))) := by
        simp [extend, hmore]
      rw [hdone]
      refine Progress.foreign_done fun c hc => ?_
      obtain rfl := Option.some.inj hc
      exact h.complete haccepts hmore
  | succ more =>
      have hnarrow : state.extend byte =
          .unfinished ⟨64 * state.bits + (byte.toNat - 0x80), 0x80, 0xBF, more⟩ := by
        simp [extend, hmore]
      rw [hnarrow]
      exact Progress.foreign_unfinished (h.narrow haccepts hmore)

/-! ## Any bytes -/

/-- What decoding can be in the middle of. -/
def Reachable (pending : Option Unfinished) : Prop :=
  ∀ state ∈ pending, state.Sound

theorem reachable_none : Reachable none := by
  simp [Reachable]

theorem Unfinished.Sound.not_accepts (h : state.Sound) (hascii : byte.toNat < 0x80) :
    ¬state.accepts byte := by
  rw [accepts_iff]
  have hlow := h.low_le
  omega

theorem start_of_ascii (hascii : byte.toNat < 0x80) :
    start byte = .done (some (Char.ofNat byte.toNat)) :=
  if_pos hascii

/-- An ASCII byte ends what was unfinished and stands for its character. -/
theorem emits_of_ascii (hpending : Reachable pending) (hascii : byte.toNat < 0x80) :
    emits pending byte = flush pending ++ [some (Char.ofNat byte.toNat)] := by
  cases pending with
  | none =>
      rw [emits, start_of_ascii hascii]
      rfl
  | some state =>
      rw [emits, if_neg ((hpending state rfl).not_accepts hascii), start_of_ascii hascii]
      rfl

theorem leaves_of_ascii (hpending : Reachable pending) (hascii : byte.toNat < 0x80) :
    leaves pending byte = none := by
  cases pending with
  | none =>
      rw [leaves, start_of_ascii hascii]
      rfl
  | some state =>
      rw [leaves, if_neg ((hpending state rfl).not_accepts hascii), start_of_ascii hascii]
      rfl

/-- Any other byte stands for nothing that is ASCII. -/
theorem isForeign_of_mem_emits (hpending : Reachable pending) (hbyte : 0x80 ≤ byte.toNat) :
    ∀ char? ∈ emits pending byte, IsForeign char? := by
  cases pending with
  | none => exact (foreign_start hbyte).decoded
  | some state =>
      rw [emits]
      split
      · next haccepts => exact ((hpending state rfl).foreign_extend haccepts).decoded
      · exact List.forall_mem_cons.2 ⟨isForeign_none, (foreign_start hbyte).decoded⟩

theorem Reachable.leaves (hpending : Reachable pending) (byte : UInt8) :
    Reachable (leaves pending byte) := by
  by_cases hascii : byte.toNat < 0x80
  · rw [leaves_of_ascii hpending hascii]
    exact reachable_none
  · have hstart := foreign_start (Nat.le_of_not_lt hascii)
    cases pending with
    | none => exact hstart.pending
    | some state =>
        rw [Utf8.leaves]
        split
        · next haccepts => exact ((hpending state rfl).foreign_extend haccepts).pending
        · exact hstart.pending

/-! ## Text -/

/-- The text that bytes stand for after an unfinished character. -/
def lossyFrom (pending : Option Unfinished) (bytes : List UInt8) : List Char :=
  (decodeFrom pending bytes).map (·.getD '\uFFFD')

theorem lossyText_eq_lossyFrom (bytes : List UInt8) : lossyText bytes = lossyFrom none bytes := rfl

@[simp] theorem lossyText_nil : lossyText [] = [] := rfl

/-- What stands in the text for a character that is broken off. -/
def brokenOff (pending : Option Unfinished) : List Char :=
  pending.toList.map fun _ => '\uFFFD'

theorem le_toNat_of_mem_brokenOff {c : Char} (h : c ∈ brokenOff pending) : 0x80 ≤ c.toNat := by
  obtain ⟨state, -, rfl⟩ := List.mem_map.1 h
  decide

@[simp] theorem lossyFrom_nil (pending : Option Unfinished) :
    lossyFrom pending [] = brokenOff pending := by
  cases pending <;> rfl

variable {bytes rest : List UInt8}

theorem IsForeign.le_toNat {char? : Option Char} (h : IsForeign char?) :
    0x80 ≤ (char?.getD '\uFFFD').toNat := by
  cases char? with
  | none => decide
  | some c => exact h c rfl

theorem lossyFrom_cons_of_ascii (hpending : Reachable pending) (hascii : byte.toNat < 0x80) :
    lossyFrom pending (byte :: rest) =
      brokenOff pending ++ Char.ofNat byte.toNat :: lossyText rest := by
  simp [lossyFrom, lossyText, decode, decodeFrom_cons, emits_of_ascii hpending hascii,
    leaves_of_ascii hpending hascii, brokenOff, flush]

@[simp] theorem lossyText_cons_of_ascii (hascii : byte.toNat < 0x80) :
    lossyText (byte :: rest) = Char.ofNat byte.toNat :: lossyText rest :=
  lossyFrom_cons_of_ascii reachable_none hascii

/-- What a byte that is not ASCII adds to the text does not depend on what comes after it. -/
theorem exists_lossyFrom_cons (hpending : Reachable pending) (hbyte : 0x80 ≤ byte.toNat) :
    ∃ front, (∀ c ∈ front, 0x80 ≤ c.toNat) ∧ ∀ rest,
      lossyFrom pending (byte :: rest) = front ++ lossyFrom (leaves pending byte) rest := by
  refine ⟨(emits pending byte).map (·.getD '\uFFFD'), ?_, fun rest => ?_⟩
  · rw [List.forall_mem_map]
    exact fun char? hmem => (isForeign_of_mem_emits hpending hbyte char? hmem).le_toNat
  · simp [lossyFrom, decodeFrom_cons]

/-- A byte that adds nothing to the text leaves something unfinished. -/
theorem exists_leaves_of_emits_eq_nil (h : emits pending byte = []) :
    ∃ state, leaves pending byte = some state := by
  have hprogress {progress : Progress} (h : progress.decoded = []) :
      ∃ state, progress.pending = some state := by
    cases progress with
    | done char? => cases h
    | unfinished state => exact ⟨state, rfl⟩
  cases pending with
  | none => exact hprogress h
  | some state =>
      rw [emits] at h
      rw [leaves]
      split
      · next haccepts => exact hprogress (by rwa [if_pos haccepts] at h)
      · next haccepts =>
          rw [if_neg haccepts] at h
          cases h

/-- Only an ASCII byte makes an ASCII character the first one, and only if nothing is unfinished
before it. -/
theorem le_toNat_of_mem_head?_lossyFrom {c : Char} (hpending : Reachable pending)
    (hstarts : pending = none → ∀ byte ∈ bytes.head?, 0x80 ≤ byte.toNat)
    (h : c ∈ (lossyFrom pending bytes).head?) : 0x80 ≤ c.toNat := by
  induction bytes generalizing pending with
  | nil =>
      cases pending with
      | none => cases h
      | some state =>
          obtain rfl : '\uFFFD' = c := Option.some.inj h
          decide
  | cons byte rest ih =>
      by_cases hascii : byte.toNat < 0x80
      · cases pending with
        | none => exact absurd (hstarts rfl byte rfl) (Nat.not_le_of_lt hascii)
        | some state =>
            rw [lossyFrom_cons_of_ascii hpending hascii] at h
            obtain rfl : '\uFFFD' = c := Option.some.inj h
            decide
      · have hforeign := isForeign_of_mem_emits hpending (Nat.le_of_not_lt hascii)
        rw [lossyFrom, decodeFrom_cons, List.map_append] at h
        cases hemits : emits pending byte with
        | nil =>
            obtain ⟨next, hnext⟩ := exists_leaves_of_emits_eq_nil hemits
            rw [hemits] at h
            exact ih (hpending.leaves byte) (by simp [hnext]) h
        | cons char? others =>
            rw [hemits] at h hforeign
            obtain rfl : char?.getD '\uFFFD' = c := Option.some.inj h
            exact (hforeign char? List.mem_cons_self).le_toNat

/-! ## ASCII words -/

def IsAscii (text : List Char) : Prop :=
  ∀ c ∈ text, c.toNat < 0x80

instance (text : List Char) : Decidable (IsAscii text) :=
  inferInstanceAs (Decidable (∀ c ∈ text, _))

variable {c : Char} {text word : List Char}

theorem encode_cons_of_ascii (hc : c.toNat < 0x80) :
    encode (c :: text) = UInt8.ofNat c.toNat :: encode text := by
  have hbytes : String.utf8EncodeChar c = [UInt8.ofNat c.toNat] :=
    if_pos (Nat.le_of_lt_succ hc)
  rw [encode_cons, hbytes, List.singleton_append]

theorem toNat_ofNat_of_ascii (hc : c.toNat < 0x80) : (UInt8.ofNat c.toNat).toNat = c.toNat := by
  rw [UInt8.toNat_ofNat']
  exact Nat.mod_eq_of_lt (Nat.lt_trans hc (by decide))

/-- An ASCII character is the first one of a text exactly if its byte is the first one. -/
theorem lossyText_eq_cons_iff (hc : c.toNat < 0x80) :
    lossyText bytes = c :: text ↔
      ∃ rest, bytes = UInt8.ofNat c.toNat :: rest ∧ lossyText rest = text := by
  constructor
  · intro h
    have hhead : c ∈ (lossyFrom none bytes).head? := by
      rw [← lossyText_eq_lossyFrom, h]
      rfl
    cases bytes with
    | nil => cases h
    | cons byte rest =>
        have hascii : byte.toNat < 0x80 := Nat.lt_of_not_le fun hbyte =>
          Nat.not_le_of_lt hc <|
            le_toNat_of_mem_head?_lossyFrom reachable_none (by simpa using hbyte) hhead
        rw [lossyText_cons_of_ascii hascii, List.cons.injEq] at h
        obtain ⟨rfl, hrest⟩ := h
        refine ⟨rest, ?_, hrest⟩
        rw [toNat_charOfNat (.inl (by omega)), UInt8.ofNat_toNat]
  · rintro ⟨rest, rfl, rfl⟩
    have hbyte := toNat_ofNat_of_ascii hc
    rw [lossyText_cons_of_ascii (by omega), hbyte, Char.ofNat_toNat]

/-- So is an ASCII word. -/
theorem lossyText_eq_append_iff (hword : IsAscii word) :
    lossyText bytes = word ++ text ↔
      ∃ rest, bytes = encode word ++ rest ∧ lossyText rest = text := by
  induction word generalizing bytes with
  | nil => simp
  | cons c word ih =>
      obtain ⟨hc, hword⟩ := List.forall_mem_cons.1 hword
      rw [List.cons_append, lossyText_eq_cons_iff hc, encode_cons_of_ascii hc]
      constructor
      · rintro ⟨rest, rfl, hrest⟩
        obtain ⟨tail, rfl, htail⟩ := (ih hword).1 hrest
        exact ⟨tail, rfl, htail⟩
      · rintro ⟨tail, rfl, htail⟩
        exact ⟨encode word ++ tail, rfl, (ih hword).2 ⟨tail, rfl, htail⟩⟩

theorem isPrefixOf?_lossyText (hword : IsAscii word) (bytes : List UInt8) :
    word.isPrefixOf? (lossyText bytes) = ((encode word).isPrefixOf? bytes).map lossyText := by
  apply Option.ext
  intro text
  rw [Text.isPrefixOf?_iff, lossyText_eq_append_iff hword, Option.map_eq_some_iff]
  simp only [Text.isPrefixOf?_iff]

end Utf8

end Snapshot
