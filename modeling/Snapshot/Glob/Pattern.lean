/-!
# Parts of a file name pattern

Patterns and names are compared byte by byte. A byte is written here as the character below U+0100
with its value, so that the marks of a pattern can be written as they look.

A backslash takes the byte after it literally, except that `\b`, `\n`, `\r` and `\t` stand for
control bytes. A bracket lists bytes and ranges; a `]` that comes first is an element of it.
-/

namespace Snapshot.Glob

/-- The byte that a backslash and `c` stand for. -/
def escaped (c : Char) : Char :=
  match c with
  | 'b' => '\x08'
  | 'n' => '\n'
  | 'r' => '\r'
  | 't' => '\t'
  | c => c

/-- Reads one literal byte whose first character has been taken off already, and gives what is left
after it. A backslash at the end of the pattern stands for nothing. -/
def literal? (c : Char) (rest : List Char) :
    Option (Char × { left : List Char // left.length ≤ rest.length }) :=
  if c = '\\' then
    match rest with
    | [] => none
    | d :: left => some (escaped d, ⟨left, by simp⟩)
  else
    some (c, ⟨rest, Nat.le_refl _⟩)

/-- Reads the upper end of a range in a bracket, or gives `low` back if no range is written. -/
def rangeEnd? (low : Char) (rest : List Char) :
    Option (Char × { left : List Char // left.length ≤ rest.length }) :=
  match rest with
  | '-' :: c :: left =>
      if c = ']' then
        some (low, ⟨_, Nat.le_refl _⟩)
      else
        (literal? c left).map fun (high, ⟨after, hafter⟩) =>
          (high, ⟨after, by simp only [List.length_cons]; omega⟩)
  | rest => some (low, ⟨rest, Nat.le_refl _⟩)

/-- Reads the elements of a bracket up to its end: whether one of them is `c`, and what is left of
the pattern. `first` says that no element has been read. -/
def bracket? (c : Char) (first found : Bool) (pattern : List Char) : Option (Bool × List Char) :=
  match pattern with
  | [] => none
  | d :: rest =>
      if d = ']' ∧ ¬first then
        some (found, rest)
      else
        match literal? d rest with
        | none => none
        | some (low, ⟨afterLow, _⟩) =>
            match rangeEnd? low afterLow with
            | none => none
            | some (high, ⟨afterHigh, _⟩) =>
                bracket? c false (found || (low ≤ c && c ≤ high)) afterHigh
termination_by pattern.length
decreasing_by
  simp only [List.length_cons]
  omega

/-- Reads a bracket after its opening mark: whether it admits `c`, and what is left. A `^` or `!` in
front admits the bytes that are not listed. -/
def admits? (c : Char) (pattern : List Char) : Option (Bool × List Char) :=
  match pattern with
  | '^' :: elements | '!' :: elements =>
      (bracket? c true false elements).map fun (found, rest) => (!found, rest)
  | elements => bracket? c true false elements

/-- How many bytes of `/**` repetitions stand at the front. -/
def starRun : List Char → Nat
  | '/' :: '*' :: '*' :: rest => starRun rest + 3
  | _ => 0

/-- Where a search for the end of an alternative stops. -/
inductive AlternativeEnd where
  | comma
  | brace
deriving DecidableEq, Repr

/-- Passes over the rest of an alternative that is `depth` braces deep: whether it ends after a
comma of its own, where `atComma` asks for that, or after the last of those braces, and how many
bytes that takes. -/
def alternativeEnd? (atComma : Bool) : Nat → Bool → List Char → Option (AlternativeEnd × Nat)
  | 0, _, _ => some (.brace, 0)
  | _ + 1, _, [] => none
  | depth + 1, inBracket, '\\' :: _ :: rest =>
      shift 2 (alternativeEnd? atComma (depth + 1) inBracket rest)
  | depth + 1, true, c :: rest => shift 1 (alternativeEnd? atComma (depth + 1) (c ≠ ']') rest)
  | depth + 1, false, c :: rest =>
      if c = '{' then
        shift 1 (alternativeEnd? atComma (depth + 2) false rest)
      else if c = '}' then
        shift 1 (alternativeEnd? atComma depth false rest)
      else if c = ',' ∧ atComma ∧ depth = 0 then
        some (.comma, 1)
      else
        shift 1 (alternativeEnd? atComma (depth + 1) (c = '[') rest)
where
  shift (n : Nat) (found : Option (AlternativeEnd × Nat)) : Option (AlternativeEnd × Nat) :=
    found.map fun (stop, count) => (stop, count + n)

end Snapshot.Glob
