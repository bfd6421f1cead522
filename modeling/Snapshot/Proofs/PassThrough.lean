import Snapshot.Proofs.Decoding
import Snapshot.Proofs.Filtering
import Snapshot.Proofs.GuardGrammar

/-!
# Bytes that are no text

Markers are looked for in the text of a line, in which every invalid part is one character. The
words of the markers are ASCII, and decoding neither makes up an ASCII word nor hides one: they
occur in the text where they occur in the bytes. Without the word `VERSION` a line is no marker, and
so a file that has it in no line is copied as it is, whatever else its bytes are.
-/

namespace Snapshot

namespace Text

section Occurrences

variable {α : Type _} [BEq α] {words : List (List α)} {word text rest : List α}

/-- The words that stand at the front of a text, each with what follows it. -/
def leading (words : List (List α)) (text : List α) : List (List α × List α) :=
  words.filterMap fun word => (word.isPrefixOf? text).map (word, ·)

/-- Every occurrence of one of the words, with what follows it, from left to right. -/
def occurrences (words : List (List α)) : List α → List (List α × List α)
  | [] => leading words []
  | a :: rest => leading words (a :: rest) ++ occurrences words rest

/-- The occurrences of a single word. -/
theorem after_eq_map_occurrences (word text : List α) :
    after word text = (occurrences [word] text).map Prod.snd := by
  have hleading (text : List α) :
      (leading [word] text).map Prod.snd = (word.isPrefixOf? text).toList := by
    cases hfound : word.isPrefixOf? text <;> simp [leading, hfound]
  induction text with
  | nil => rw [after, occurrences, hleading]
  | cons a rest ih => rw [after, occurrences, List.map_append, hleading, ih]

variable [LawfulBEq α]

/-- No word stands where the first character starts none. -/
theorem leading_eq_nil (h : ∀ word ∈ words, word ≠ [] ∧ ∀ a ∈ text.head?, a ∉ word) :
    leading words text = [] := by
  refine List.filterMap_eq_nil_iff.2 fun word hword => ?_
  obtain ⟨hne, hfirst⟩ := h word hword
  rw [Option.map_eq_none_iff, Option.eq_none_iff_forall_ne_some]
  intro rest hrest
  obtain ⟨a, tail, rfl⟩ := List.exists_cons_of_ne_nil hne
  rw [isPrefixOf?_iff.1 hrest] at hfirst
  exact hfirst a rfl List.mem_cons_self

/-- Characters that are in no word can be left out. -/
theorem occurrences_append {front : List α} (hne : ∀ word ∈ words, word ≠ [])
    (hfront : ∀ a ∈ front, ∀ word ∈ words, a ∉ word) :
    occurrences words (front ++ text) = occurrences words text := by
  induction front with
  | nil => rfl
  | cons a front ih =>
      obtain ⟨ha, hfront⟩ := List.forall_mem_cons.1 hfront
      rw [List.cons_append, occurrences, ih hfront, leading_eq_nil, List.nil_append]
      intro word hword
      refine ⟨hne word hword, fun b hb => ?_⟩
      obtain rfl : a = b := Option.some.inj hb
      exact ha word hword

end Occurrences

end Text

namespace Utf8

open Text

variable {words : List (List Char)} {word text : List Char} {bytes : List UInt8}

theorem leading_lossyText (hascii : ∀ word ∈ words, IsAscii word) (bytes : List UInt8) :
    leading words (lossyText bytes) =
      (leading (words.map encode) bytes).map (Prod.map lossyText lossyText) := by
  rw [leading, leading, List.filterMap_map, List.map_filterMap]
  refine List.filterMap_congr fun word hword => ?_
  rw [isPrefixOf?_lossyText (hascii word hword), Function.comp_apply, Option.map_map,
    Option.map_map]
  exact Option.map_congr fun rest _ => by simp

/-- The bytes of an ASCII word are ASCII. -/
theorem toNat_lt_of_mem_encode {byte : UInt8} (hascii : IsAscii word) (h : byte ∈ encode word) :
    byte.toNat < 0x80 := by
  induction word with
  | nil => cases h
  | cons c word ih =>
      obtain ⟨hc, hword⟩ := List.forall_mem_cons.1 hascii
      rw [encode_cons_of_ascii hc] at h
      rcases List.mem_cons.1 h with rfl | h
      · rwa [toNat_ofNat_of_ascii hc]
      · exact ih hword h

theorem encode_eq_nil_iff : encode text = [] ↔ text = [] := by
  constructor
  · intro h
    rw [← lossyText_encode text, h, lossyText_nil]
  · rintro rfl
    rfl

/-- Wherever decoding begins, ASCII words are found in the text as they are found in the bytes. -/
theorem occurrences_lossyFrom (hwords : ∀ word ∈ words, word ≠ [] ∧ IsAscii word)
    {pending : Option Unfinished} (hpending : Reachable pending) (bytes : List UInt8) :
    occurrences words (lossyFrom pending bytes) =
      (occurrences (words.map encode) bytes).map (Prod.map lossyText lossyText) := by
  have hne : ∀ word ∈ words, word ≠ [] := fun word hword => (hwords word hword).1
  have hascii : ∀ word ∈ words, IsAscii word := fun word hword => (hwords word hword).2
  have hforeign {front : List Char} (hfront : ∀ c ∈ front, 0x80 ≤ c.toNat) :
      ∀ c ∈ front, ∀ word ∈ words, c ∉ word := fun c hc word hword hmem =>
    Nat.not_le_of_lt (hascii word hword c hmem) (hfront c hc)
  induction bytes generalizing pending with
  | nil =>
      rw [lossyFrom_nil, ← List.append_nil (brokenOff pending),
        occurrences_append hne (hforeign fun _ => le_toNat_of_mem_brokenOff)]
      exact leading_lossyText hascii []
  | cons byte rest ih =>
      rw [occurrences, List.map_append, ← ih reachable_none, ← leading_lossyText hascii]
      by_cases hbyte : byte.toNat < 0x80
      · rw [lossyFrom_cons_of_ascii hpending hbyte,
          occurrences_append hne (hforeign fun _ => le_toNat_of_mem_brokenOff), occurrences,
          lossyText_cons_of_ascii hbyte]
        rfl
      · obtain ⟨front, hfront, hcons⟩ :=
          exists_lossyFrom_cons hpending (Nat.le_of_not_lt hbyte)
        rw [hcons, occurrences_append hne (hforeign hfront), ih (hpending.leaves byte),
          leading_lossyText hascii, leading_eq_nil, List.map_nil, List.nil_append,
          ih reachable_none]
        rw [List.forall_mem_map]
        refine fun word hword =>
          ⟨mt encode_eq_nil_iff.1 (hne word hword), fun first hfirst hmem => ?_⟩
        obtain rfl : byte = first := Option.some.inj hfirst
        exact hbyte (toNat_lt_of_mem_encode (hascii word hword) hmem)

/-- What follows a word in the text is what follows it in the bytes. -/
theorem after_lossyText (hword : word ≠ [] ∧ IsAscii word) (bytes : List UInt8) :
    after word (lossyText bytes) = (after (encode word) bytes).map lossyText := by
  have hwords : ∀ other ∈ [word], other ≠ [] ∧ IsAscii other := by simpa using hword
  rw [after_eq_map_occurrences, after_eq_map_occurrences, lossyText_eq_lossyFrom,
    occurrences_lossyFrom hwords reachable_none, List.map_map, List.map_map]
  rfl

theorem infix_lossyText_iff (hword : word ≠ [] ∧ IsAscii word) :
    word <:+: lossyText bytes ↔ encode word <:+: bytes := by
  rw [← hasWord_iff, ← hasWord_iff, hasWord, hasWord, after_lossyText hword, List.isEmpty_map]

end Utf8

/-! ## Lines without a marker word -/

namespace Marker

/-- The words that make a line a marker. -/
def words : List (List Char) :=
  [openingWord, closingWord, versionWord]

theorem isAscii_of_mem_words : ∀ word ∈ words, word ≠ [] ∧ Utf8.IsAscii word := by
  simp [words, openingWord, closingWord, versionWord, Utf8.IsAscii]

/-- Every marker has the word `VERSION` in it. -/
theorem ofLine_eq_ordinary {line : List Char} (h : ¬versionWord <:+: line) :
    ofLine line = .ordinary := by
  cases hline : ofLine line with
  | ordinary => rfl
  | opening guard =>
      obtain ⟨front, written, rest, rfl⟩ := exists_ofLine_eq_opening_iff.1 ⟨guard, hline⟩
      have hversion : versionWord <:+: written.text ++ rest :=
        ⟨written.beforeVersion, _, by simp only [WrittenGuard.text, List.append_assoc]; rfl⟩
      exact absurd (hversion.trans (List.suffix_append _ _).isInfix) h
  | closing =>
      obtain ⟨-, front, rest, rfl, hversion⟩ := ofLine_eq_closing_iff.1 hline
      exact absurd (hversion.trans (List.suffix_append _ _).isInfix) h

end Marker

/-- Nothing becomes of ordinary lines outside of guards but that they are emitted. -/
theorem LineFilter.actions_of_ordinary {filter : LineFilter} {lines : List (List Char)}
    (hopen : filter.openGuards = []) (hlines : ∀ line ∈ lines, Marker.ofLine line = .ordinary) :
    filter.actions lines = .ok (lines.map fun _ => .emit) := by
  induction lines generalizing filter with
  | nil => simp [LineFilter.actions, finish, hopen, Except.map]
  | cons line rest ih =>
      obtain ⟨hline, hrest⟩ := List.forall_mem_cons.1 hlines
      have hemitting : filter.isEmitting = true := by simp [isEmitting, hopen]
      have hlater : ({ filter with line := filter.line + 1 } : LineFilter).actions rest =
          .ok (rest.map fun _ => .emit) := ih hopen hrest
      rw [LineFilter.actions, feed_of_ordinary hline, hemitting]
      dsimp only
      rw [hlater]
      rfl

theorem Action.select_emit {α : Type} (lines : List α) :
    select (lines.map fun _ => .emit) lines = lines := by
  induction lines with
  | nil => rfl
  | cons line rest ih => rw [List.map_cons, select_cons_emit, ih]

/-- Nothing is taken from a file in no line of which the bytes of `VERSION` stand. -/
theorem exists_actions_of_no_version (version : Int64) {content : List UInt8}
    (h : ∀ line ∈ Text.lines 0x0A content, ¬Utf8.encode Marker.versionWord <:+: line) :
    ∃ actions, fileActions version content = .ok actions ∧
      emittedBytes actions content = content := by
  have hword := Marker.isAscii_of_mem_words Marker.versionWord (by simp [Marker.words])
  have hordinary : ∀ line ∈ (Text.lines 0x0A content).map Utf8.lossyText,
      Marker.ofLine line = .ordinary := by
    rw [List.forall_mem_map]
    exact fun line hline =>
      Marker.ofLine_eq_ordinary (mt (Utf8.infix_lossyText_iff hword).1 (h line hline))
  refine ⟨_, LineFilter.actions_of_ordinary rfl hordinary, ?_⟩
  rw [emittedBytes, List.map_map]
  exact (congrArg List.flatten (Action.select_emit _)).trans (Text.flatten_lines content)

/-! ## Files without a marker word -/

namespace FileCopy

/-- All the bytes of a file are saved, if they can be saved. -/
structure CopiesAll (fs : FileSystem) (output : Path) (content : List UInt8)
    (result : FileSystem × Except Report Bool) : Prop where
  saved : ∀ after, fs.Saves output content after → result = (after, .ok true) ∧
    (after.open? output = .ok (.ok content) ∨ after.entryAt .follow output = .ok .sink)
  unsaved : (∀ after, ¬fs.Saves output content after) →
    ∃ report, result.2 = .error report ∧ report.AtStage .writing

variable {fs : FileSystem} {input : Path} {content : List UInt8}

theorem copiesAll_of_no_version (hinput : fs.open? input = .ok (.ok content))
    (hcontent : content ≠ [])
    (hplain : ∀ line ∈ Text.lines 0x0A content, ¬Utf8.encode Marker.versionWord <:+: line)
    (output : Path) (name : String) (version : Int64) :
    CopiesAll fs output content (run fs input output name version) := by
  obtain ⟨actions, hactions, hbytes⟩ := exists_actions_of_no_version version hplain
  obtain ⟨done, hdone, houtput, -, hrun⟩ := exists_run_eq_finish hinput hactions
  rw [hbytes] at hdone
  rw [hrun, ← houtput, ← hdone]
  rw [← hdone] at hcontent
  constructor
  · intro after hsaves
    refine ⟨(finish_eq_ok_true_iff hcontent).2 hsaves, ?_⟩
    obtain ⟨middle, -, hwrite⟩ := hsaves
    exact FileSystem.open?_of_write hwrite
  · exact exists_finish_eq_error hcontent

/-- Decoding neither makes up a word of a marker nor hides one: those of the text are those of the
bytes, as many and in the same order, and what follows each of them in the text is the text of what
follows it in the bytes. So a file that has `VERSION` in no line is copied byte for byte, for every
version, whatever its bytes stand for. -/
theorem foreign_bytes_pass_through :
    (∀ line : List UInt8,
      Text.occurrences Marker.words (Utf8.lossyText line) =
          (Text.occurrences (Marker.words.map Utf8.encode) line).map
            (Prod.map Utf8.lossyText Utf8.lossyText) ∧
        ∀ word ∈ Marker.words, word <:+: Utf8.lossyText line ↔ Utf8.encode word <:+: line) ∧
    ∀ (fs : FileSystem) (input output : Path) (name : String) (version : Int64)
      (content : List UInt8), fs.open? input = .ok (.ok content) → content ≠ [] →
        (∀ line ∈ Text.lines 0x0A content, ¬Utf8.encode Marker.versionWord <:+: line) →
          CopiesAll fs output content (run fs input output name version) := by
  refine ⟨fun line => ⟨?_, fun word hword => ?_⟩, ?_⟩
  · exact Utf8.occurrences_lossyFrom Marker.isAscii_of_mem_words Utf8.reachable_none line
  · exact Utf8.infix_lossyText_iff (Marker.isAscii_of_mem_words word hword)
  · intro fs input output name version content hinput hcontent hplain
    exact copiesAll_of_no_version hinput hcontent hplain output name version

/-- An invalid byte, `#if`, the start of a character that the line ends in, and an overlong form
before `#endif`. -/
def foreignFile : List UInt8 :=
  [0xFF, 0x23, 0x69, 0x66, 0x20, 0xE2, 0x82, 0x0A, 0xC0, 0x80, 0x23, 0x65, 0x6E, 0x64, 0x69, 0x66]

def foreignProject : FileSystem :=
  .ofTree
    { entries := [(.ofString "a.bin", .file foreignFile)]
      wellFormed := ⟨by decide +kernel, by decide +kernel, by decide +kernel, by decide +kernel⟩ }
    []

theorem foreign_bytes_pass_through_foreignProject :
    let result := run foreignProject (.ofString "a.bin") (.ofString "out/a.bin") "a.bin" 1
    foreignProject.open? (.ofString "a.bin") = .ok (.ok foreignFile) ∧ foreignFile ≠ [] ∧
      (∀ line ∈ Text.lines 0x0A foreignFile, ¬Utf8.encode Marker.versionWord <:+: line) ∧
      CopiesAll foreignProject (.ofString "out/a.bin") foreignFile result ∧
      result.2 = .ok true ∧ result.1.open? (.ofString "out/a.bin") = .ok (.ok foreignFile) := by
  intro result
  have hinput : foreignProject.open? (.ofString "a.bin") = .ok (.ok foreignFile) :=
    eq_ok_of_toOption (by decide +kernel)
  have hplain : ∀ line ∈ Text.lines 0x0A foreignFile,
      ¬Utf8.encode Marker.versionWord <:+: line := by
    decide +kernel
  have hcopies := foreign_bytes_pass_through.2 foreignProject (.ofString "a.bin")
    (.ofString "out/a.bin") "a.bin" 1 foreignFile hinput (by decide) hplain
  exact ⟨hinput, by decide, hplain, hcopies, eq_ok_of_toOption (by decide +kernel),
    eq_ok_of_toOption (by decide +kernel)⟩

/-- The words that occur in it, in the order in which they do. -/
example : (Text.occurrences Marker.words (Utf8.lossyText foreignFile)).map Prod.fst =
    [Marker.openingWord, Marker.closingWord] := by
  decide +kernel

end FileCopy

end Snapshot
