/-!
# Blank characters

The characters with the Unicode property `White_Space`. Blanks may stand around the parts of a
version guard and around an answer to a question, and are skipped there. A line feed and a
carriage return are blanks too, so the line terminator of a line never decides how it is read.
-/

namespace Snapshot.Text

/-- The ranges of code points with the property `White_Space`, ends included, in increasing
order. -/
def blankRanges : List (Nat × Nat) :=
  [(0x09, 0x0D), (0x20, 0x20), (0x85, 0x85), (0xA0, 0xA0), (0x1680, 0x1680), (0x2000, 0x200A),
    (0x2028, 0x2029), (0x202F, 0x202F), (0x205F, 0x205F), (0x3000, 0x3000)]

def isBlank (c : Char) : Bool :=
  blankRanges.any fun range => range.1 ≤ c.toNat && c.toNat ≤ range.2

def skipBlanks (text : List Char) : List Char :=
  text.dropWhile isBlank

def trim (text : List Char) : List Char :=
  (skipBlanks (skipBlanks text).reverse).reverse

/-- Every character that core counts as whitespace is a blank. -/
theorem isBlank_of_isWhitespace {c : Char} (hspace : c.isWhitespace) : isBlank c := by
  simp only [Char.isWhitespace, Bool.or_eq_true, decide_eq_true_eq] at hspace
  rcases hspace with ((rfl | rfl) | rfl) | rfl <;> decide

@[simp] theorem skipBlanks_nil : skipBlanks [] = [] := rfl

theorem skipBlanks_cons_of_blank {c : Char} {text : List Char} (hblank : isBlank c) :
    skipBlanks (c :: text) = skipBlanks text :=
  List.dropWhile_cons_of_pos hblank

theorem skipBlanks_cons_of_not_blank {c : Char} {text : List Char} (hblank : ¬isBlank c) :
    skipBlanks (c :: text) = c :: text :=
  List.dropWhile_cons_of_neg hblank

end Snapshot.Text
