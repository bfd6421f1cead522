import Snapshot.Guard.Basic
import Snapshot.Text.Blank
import Snapshot.Text.Words

/-!
# Marker lines

A line opens a guard if somewhere in it stands `#if VERSION`, a comparison and an integer, with
blanks allowed between the parts; the first such place counts and the rest of the line is ignored.
Otherwise it closes a guard if `VERSION` stands somewhere after an `#endif`. All other lines are
ordinary, whatever they look like: neither `#ifdef VERSION` nor a bare `#endif` is a marker.
-/

namespace Snapshot

inductive Marker where
  | opening (guard : Guard)
  | closing
  | ordinary
deriving DecidableEq, Repr

namespace Marker

def openingWord : List Char := ['#', 'i', 'f']

def closingWord : List Char := ['#', 'e', 'n', 'd', 'i', 'f']

/-- The word that tells a version guard from other conditions. -/
def versionWord : List Char := ['V', 'E', 'R', 'S', 'I', 'O', 'N']

end Marker

/-- The spellings of the comparisons. A spelling stands before its own beginnings, so that the
longest one is read. -/
def Comparison.spellings : List (List Char × Comparison) :=
  [(['<', '='], .le), (['>', '='], .ge), (['=', '='], .eq), (['<'], .lt), (['>'], .gt),
    (['='], .eq)]

/-- Reads a comparison at the front of a text; gives the text after it too. -/
def Comparison.read? (text : List Char) : Option (Comparison × List Char) :=
  spellings.findSome? fun (spelling, comparison) =>
    (spelling.isPrefixOf? text).map (comparison, ·)

/-- Reads a literal at the front of a text: an optional minus sign and as many digits as there are.
What comes after them does not matter. -/
def Literal.read? (text : List Char) : Option Literal :=
  match text with
  | '-' :: rest => (magnitude? rest).map fun n => ofInt (-n)
  | rest => (magnitude? rest).map fun n => ofInt n
where
  /-- The number written by the digits at the front of a text. -/
  magnitude? (text : List Char) : Option Nat :=
    match text.takeWhile Char.isDigit with
    | [] => none
    | digits => some (Decimal.value digits)

def Guard.read? (text : List Char) : Option Guard := do
  let rest ← Marker.versionWord.isPrefixOf? (Text.skipBlanks text)
  let (comparison, rest) ← Comparison.read? (Text.skipBlanks rest)
  let literal ← Literal.read? (Text.skipBlanks rest)
  return { comparison, literal }

/-- What a line is to the filter. Opening a guard goes before closing one. -/
def Marker.ofLine (line : List Char) : Marker :=
  match (Text.after openingWord line).findSome? Guard.read? with
  | some guard => .opening guard
  | none =>
      if (Text.after closingWord line).any (Text.hasWord versionWord) then .closing else .ordinary

end Snapshot
