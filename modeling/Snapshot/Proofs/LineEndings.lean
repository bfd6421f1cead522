import Snapshot.Proofs.Decoding
import Snapshot.Proofs.Filtering

/-!
# Line endings

In some texts a carriage return stands before each newline. Every step of reading a marker either
looks for a word or for digits, in which neither character is, or skips blanks, which both are. So a
line is the same marker with a carriage return at its end as without, and what is left of a text is
the same lines, each with the line ending that it had.
-/

namespace Snapshot

/-! ## Carriage returns before newlines -/

namespace Text

variable {α : Type _} [DecidableEq α] {ret newline a : α} {text other : List α}

/-- The text with a carriage return before each newline. One that is there already stays. -/
def crlf (ret newline : α) (text : List α) : List α :=
  text.flatMap fun a => if a = newline then [ret, newline] else [a]

@[simp] theorem crlf_nil : crlf ret newline [] = [] := rfl

@[simp] theorem crlf_cons_newline :
    crlf ret newline (newline :: text) = ret :: newline :: crlf ret newline text := by
  simp [crlf]

theorem crlf_cons_of_ne (ha : a ≠ newline) :
    crlf ret newline (a :: text) = a :: crlf ret newline text := by
  simp [crlf, ha]

theorem crlf_append : crlf ret newline (text ++ other) =
    crlf ret newline text ++ crlf ret newline other :=
  List.flatMap_append

theorem crlf_eq_self (h : newline ∉ text) : crlf ret newline text = text := by
  induction text with
  | nil => rfl
  | cons a text ih =>
      obtain ⟨hne, hrest⟩ := not_or.1 (mt List.mem_cons.2 h)
      rw [crlf_cons_of_ne (Ne.symm hne), ih hrest]

theorem flatten_map_crlf (texts : List (List α)) :
    (texts.map (crlf ret newline)).flatten = crlf ret newline texts.flatten := by
  induction texts with
  | nil => rfl
  | cons text texts ih => rw [List.map_cons, List.flatten_cons, List.flatten_cons, crlf_append, ih]

/-- A carriage return belongs to the line that it ends. -/
theorem lines_crlf (hret : ret ≠ newline) (text : List α) :
    lines newline (crlf ret newline text) = (lines newline text).map (crlf ret newline) := by
  induction text with
  | nil => rfl
  | cons a rest ih =>
      by_cases ha : a = newline
      · subst ha
        rw [crlf_cons_newline, lines, if_neg hret, lines, if_pos rfl, ih, lines, if_pos rfl]
        simp
      · rw [crlf_cons_of_ne ha, lines, if_neg ha, ih, lines, if_neg ha]
        cases lines newline rest with
        | nil => simp [crlf_cons_of_ne ha]
        | cons line others => simp [crlf_cons_of_ne ha]

/-! ## Words -/

/-- A word in which neither character of a line ending is. -/
structure WithinLine (ret newline : α) (word : List α) : Prop where
  ret : ret ∉ word
  newline : newline ∉ word

instance (word : List α) : Decidable (WithinLine ret newline word) :=
  decidable_of_iff (ret ∉ word ∧ newline ∉ word) ⟨fun h => ⟨h.1, h.2⟩, fun h => ⟨h.1, h.2⟩⟩

variable {word : List α}

theorem isPrefixOf?_crlf (hword : WithinLine ret newline word) (text : List α) :
    word.isPrefixOf? (crlf ret newline text) =
      (word.isPrefixOf? text).map (crlf ret newline) := by
  induction word generalizing text with
  | nil => rfl
  | cons first word ih =>
      obtain ⟨hret, hrets⟩ := not_or.1 (mt List.mem_cons.2 hword.ret)
      obtain ⟨hnewline, hnewlines⟩ := not_or.1 (mt List.mem_cons.2 hword.newline)
      cases text with
      | nil => rfl
      | cons a text =>
          by_cases ha : a = newline
          · subst ha
            simp [List.isPrefixOf?, Ne.symm hret, Ne.symm hnewline]
          · rw [crlf_cons_of_ne ha]
            by_cases hfirst : first = a
            · simp [List.isPrefixOf?, hfirst, ih ⟨hrets, hnewlines⟩]
            · simp [List.isPrefixOf?, hfirst]

theorem after_crlf (hne : word ≠ []) (hword : WithinLine ret newline word) (text : List α) :
    after word (crlf ret newline text) = (after word text).map (crlf ret newline) := by
  have hnone {a : α} (rest : List α) (ha : a ∉ word) : word.isPrefixOf? (a :: rest) = none := by
    obtain ⟨first, others, rfl⟩ := List.exists_cons_of_ne_nil hne
    have hfirst : first ≠ a := fun heq => ha (heq ▸ List.mem_cons_self)
    simp [List.isPrefixOf?, hfirst]
  induction text with
  | nil => rw [crlf_nil, after, ← Option.toList_map, ← isPrefixOf?_crlf hword, crlf_nil]
  | cons a text ih =>
      by_cases ha : a = newline
      · subst ha
        rw [crlf_cons_newline, after, after, after, hnone _ hword.ret, hnone _ hword.newline,
          hnone _ hword.newline, ih]
        rfl
      · have hhere := isPrefixOf?_crlf hword (a :: text)
        rw [crlf_cons_of_ne ha] at hhere ⊢
        rw [after, after, hhere, ih, List.map_append, Option.toList_map]

theorem hasWord_crlf (hne : word ≠ []) (hword : WithinLine ret newline word) (text : List α) :
    hasWord word (crlf ret newline text) = hasWord word text := by
  rw [hasWord, hasWord, after_crlf hne hword, List.isEmpty_map]

/-! ## Blanks and digits -/

theorem skipBlanks_crlf (text : List Char) :
    skipBlanks (crlf '\r' '\n' text) = crlf '\r' '\n' (skipBlanks text) := by
  induction text with
  | nil => rfl
  | cons c text ih =>
      by_cases hc : c = '\n'
      · subst hc
        rw [crlf_cons_newline, skipBlanks_cons_of_blank (by decide),
          skipBlanks_cons_of_blank (by decide), skipBlanks_cons_of_blank (by decide), ih]
      · by_cases hblank : isBlank c
        · rw [crlf_cons_of_ne hc, skipBlanks_cons_of_blank hblank, skipBlanks_cons_of_blank hblank,
            ih]
        · rw [crlf_cons_of_ne hc, skipBlanks_cons_of_not_blank hblank,
            skipBlanks_cons_of_not_blank hblank, crlf_cons_of_ne hc]

theorem takeWhile_crlf {p : α → Bool} (hret : p ret = false) (hnewline : p newline = false)
    (text : List α) : (crlf ret newline text).takeWhile p = text.takeWhile p := by
  induction text with
  | nil => rfl
  | cons a text ih =>
      by_cases ha : a = newline
      · subst ha
        rw [crlf_cons_newline, List.takeWhile_cons_of_neg (by simp [hret]),
          List.takeWhile_cons_of_neg (by simp [hnewline])]
      · rw [crlf_cons_of_ne ha, List.takeWhile_cons, List.takeWhile_cons, ih]

end Text

/-! ## Markers -/

open Text

theorem Comparison.read?_crlf (text : List Char) :
    Comparison.read? (crlf '\r' '\n' text) =
      (Comparison.read? text).map (Prod.map id (crlf '\r' '\n')) := by
  have hspellings : ∀ spelling ∈ spellings, WithinLine '\r' '\n' spelling.1 := by decide
  unfold Comparison.read?
  generalize spellings = spellings at hspellings ⊢
  induction spellings with
  | nil => rfl
  | cons first others ih =>
      obtain ⟨hfirst, hothers⟩ := List.forall_mem_cons.1 hspellings
      rw [List.findSome?_cons, List.findSome?_cons, ih hothers]
      dsimp only
      rw [isPrefixOf?_crlf hfirst]
      cases first.1.isPrefixOf? text with
      | none => rfl
      | some rest => rfl

namespace Literal

theorem magnitude?_crlf (text : List Char) :
    read?.magnitude? (crlf '\r' '\n' text) = read?.magnitude? text := by
  rw [read?.magnitude?, takeWhile_crlf (by decide) (by decide), ← read?.magnitude?]

theorem read?_of_ne_minus {c : Char} {rest : List Char} (hc : c ≠ '-') :
    Literal.read? (c :: rest) = (read?.magnitude? (c :: rest)).map fun n => ofInt n := by
  unfold Literal.read?
  split
  · next heq =>
      cases heq
      exact absurd rfl hc
  · rfl

theorem read?_crlf (text : List Char) :
    Literal.read? (crlf '\r' '\n' text) = Literal.read? text := by
  cases text with
  | nil => rfl
  | cons c rest =>
      have hmagnitude := magnitude?_crlf (c :: rest)
      by_cases hc : c = '\n'
      · subst hc
        rw [crlf_cons_newline] at hmagnitude ⊢
        rw [read?_of_ne_minus (by decide), read?_of_ne_minus (by decide), hmagnitude]
      · rw [crlf_cons_of_ne hc] at hmagnitude ⊢
        by_cases hminus : c = '-'
        · subst hminus
          rw [Literal.read?, Literal.read?, magnitude?_crlf]
        · rw [read?_of_ne_minus hminus, read?_of_ne_minus hminus, hmagnitude]

end Literal

theorem Guard.read?_crlf (text : List Char) :
    Guard.read? (crlf '\r' '\n' text) = Guard.read? text := by
  have hversion : WithinLine '\r' '\n' Marker.versionWord := by decide
  simp only [Guard.read?, skipBlanks_crlf, isPrefixOf?_crlf hversion, Option.bind_eq_bind,
    Option.bind_map, Function.comp_def, Comparison.read?_crlf, Prod.map, id_eq, Literal.read?_crlf]

/-- A line ending does not make another marker of a line. -/
theorem Marker.ofLine_crlf (line : List Char) : ofLine (crlf '\r' '\n' line) = ofLine line := by
  have hopening : openingWord ≠ [] ∧ WithinLine '\r' '\n' openingWord := by decide
  have hclosing : closingWord ≠ [] ∧ WithinLine '\r' '\n' closingWord := by decide
  have hversion : versionWord ≠ [] ∧ WithinLine '\r' '\n' versionWord := by decide
  have hread : Guard.read? ∘ crlf '\r' '\n' = Guard.read? := funext Guard.read?_crlf
  have hword : hasWord versionWord ∘ crlf '\r' '\n' = hasWord versionWord :=
    funext (hasWord_crlf hversion.1 hversion.2)
  rw [ofLine, ofLine, after_crlf hopening.1 hopening.2, after_crlf hclosing.1 hclosing.2,
    List.findSome?_map, List.any_map, hread, hword]

/-! ## Filtering -/

/-- Lines that are the same markers are treated alike. -/
theorem LineFilter.actions_map {render : List Char → List Char}
    (hrender : ∀ line, Marker.ofLine (render line) = Marker.ofLine line) (filter : LineFilter)
    (lines : List (List Char)) : filter.actions (lines.map render) = filter.actions lines := by
  induction lines generalizing filter with
  | nil => rfl
  | cons line rest ih =>
      have hfeed : filter.feed (render line) = filter.feed line := by
        rw [feed, feed, hrender]
      rw [List.map_cons, LineFilter.actions, LineFilter.actions, hfeed]
      rcases filter.feed line with ⟨next, error | action⟩
      · rfl
      · dsimp only
        rw [ih next]

theorem filterText_crlf (version : Int64) (text : List Char) :
    filterText version (crlf '\r' '\n' text) =
      (filterText version text).map (crlf '\r' '\n') := by
  rw [filterText, filterText, lines_crlf (by decide), LineFilter.emitted_eq_select,
    LineFilter.emitted_eq_select, LineFilter.actions_map Marker.ofLine_crlf]
  cases (LineFilter.start version).actions (lines '\n' text) with
  | error error => rfl
  | ok actions => simp [Except.map, Action.select_map, flatten_map_crlf]

/-! ## Files -/

namespace Utf8

/-- A byte that is not ASCII stands for no newline. -/
theorem newline_not_mem {front : List Char} (h : ∀ c ∈ front, 0x80 ≤ c.toNat) : '\n' ∉ front :=
  fun hmem => absurd (h '\n' hmem) (by decide)

theorem lossyFrom_crlf {pending : Option Unfinished} (hpending : Reachable pending)
    (bytes : List UInt8) :
    lossyFrom pending (crlf 0x0D 0x0A bytes) = crlf '\r' '\n' (lossyFrom pending bytes) := by
  have hbroken : '\n' ∉ brokenOff pending := newline_not_mem fun _ => le_toNat_of_mem_brokenOff
  induction bytes generalizing pending with
  | nil => rw [crlf_nil, lossyFrom_nil, crlf_eq_self hbroken]
  | cons byte rest ih =>
      have hrest := ih reachable_none (by simp [brokenOff])
      rw [← lossyText_eq_lossyFrom, ← lossyText_eq_lossyFrom] at hrest
      by_cases hnewline : byte = 0x0A
      · subst hnewline
        rw [crlf_cons_newline, lossyFrom_cons_of_ascii hpending (by decide),
          lossyText_cons_of_ascii (by decide), hrest,
          lossyFrom_cons_of_ascii hpending (by decide), crlf_append, crlf_eq_self hbroken]
        exact congrArg (brokenOff pending ++ ·) crlf_cons_newline.symm
      · rw [crlf_cons_of_ne hnewline]
        by_cases hascii : byte.toNat < 0x80
        · have hc : Char.ofNat byte.toNat ≠ '\n' := by
            intro heq
            have hcode := congrArg Char.toNat heq
            rw [toNat_charOfNat (.inl (by omega))] at hcode
            exact hnewline (UInt8.toNat_inj.1 hcode)
          rw [lossyFrom_cons_of_ascii hpending hascii, hrest,
            lossyFrom_cons_of_ascii hpending hascii, crlf_append, crlf_eq_self hbroken,
            crlf_cons_of_ne hc]
        · obtain ⟨front, hfront, hcons⟩ :=
            exists_lossyFrom_cons hpending (Nat.le_of_not_lt hascii)
          rw [hcons, hcons, crlf_append, crlf_eq_self (newline_not_mem hfront),
            ih (hpending.leaves byte) (newline_not_mem fun _ => le_toNat_of_mem_brokenOff)]

/-- Invalid bytes at the end of a line do not swallow its ending. -/
theorem lossyText_crlf (bytes : List UInt8) :
    lossyText (crlf 0x0D 0x0A bytes) = crlf '\r' '\n' (lossyText bytes) :=
  lossyFrom_crlf reachable_none bytes

end Utf8

theorem fileActions_crlf (version : Int64) (content : List UInt8) :
    fileActions version (crlf 0x0D 0x0A content) = fileActions version content := by
  have hlines : ((lines 0x0A content).map (crlf 0x0D 0x0A)).map Utf8.lossyText =
      ((lines 0x0A content).map Utf8.lossyText).map (crlf '\r' '\n') := by
    rw [List.map_map, List.map_map]
    exact List.map_congr_left fun line _ => Utf8.lossyText_crlf line
  rw [fileActions, fileActions, lines_crlf (by decide), hlines,
    LineFilter.actions_map Marker.ofLine_crlf]

theorem emittedBytes_crlf (actions : List Action) (content : List UInt8) :
    emittedBytes actions (crlf 0x0D 0x0A content) =
      crlf 0x0D 0x0A (emittedBytes actions content) := by
  rw [emittedBytes, lines_crlf (by decide), Action.select_map, flatten_map_crlf, emittedBytes]

/-- A carriage return before each newline changes neither which lines are left of a text nor which
line it is refused for, if it is. Nor does it in a file, whatever bytes are in it. -/
theorem filtering_commutes_with_crlf (version : Int64) :
    (∀ text, filterText version (crlf '\r' '\n' text) =
      (filterText version text).map (crlf '\r' '\n')) ∧
    ∀ content, fileActions version (crlf 0x0D 0x0A content) = fileActions version content ∧
      ∀ actions, emittedBytes actions (crlf 0x0D 0x0A content) =
        crlf 0x0D 0x0A (emittedBytes actions content) :=
  ⟨filterText_crlf version, fun content =>
    ⟨fileActions_crlf version content, fun actions => emittedBytes_crlf actions content⟩⟩

/-- The guard is cut off by the line ending in the first line and is complete in the third. -/
example : filterText 1 (crlf '\r' '\n' "#if VERSION\nx\n#if VERSION>1\ny\n#endif VERSION".toList) =
    .ok "#if VERSION\r\nx\r\n".toList :=
  eq_ok_of_toOption (by decide +kernel)

end Snapshot
