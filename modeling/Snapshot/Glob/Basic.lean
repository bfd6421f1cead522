import Snapshot.Glob.Pattern
import Snapshot.Text.Utf8

/-!
# File name patterns

A pattern is matched against a whole name. `?` stands for one byte other than `/`, `*` for any
number of them, `**` between slashes for any number of directories, `[…]` for one byte of a set,
`{…,…}` for one of several alternatives, and leading `!` marks turn the answer round. Braces nest at
most ten deep, and a pattern that is malformed where the matcher gets to it matches nothing.

The matcher keeps one place to go back to: the last star, which then takes one byte more. Each pair
of open braces has such a place of its own, and an alternative that fails gives way to the next one.
-/

namespace Snapshot.Glob

/-- The place of a star, and how far into the name the match goes on when the star is tried again.
-/
structure Retry where
  pattern : Nat
  name : Nat
deriving DecidableEq, Repr

/-- How far a match has come: places in the pattern and the name, and the last star and the last
double star to go back to. -/
structure Cursor where
  pattern : Nat
  name : Nat := 0
  star : Option Retry := none
  doubleStar : Option Retry := none
deriving DecidableEq, Repr

/-- A match under way. Each open brace keeps the cursor from before it, innermost first, and
`longest` is the farthest place in the name that an alternative has reached. -/
structure Match where
  cursor : Cursor
  braces : List Cursor := []
  longest : Nat := 0
deriving DecidableEq, Repr

inductive Step where
  | goOn (state : Match)
  | mismatch
  | malformed
deriving DecidableEq, Repr

structure Problem where
  /-- What the pattern holds from each of its places on. -/
  pattern : Array (List Char)
  name : Array Char

namespace Problem

variable (problem : Problem)

/-- What the pattern holds from a place on. -/
def rest (place : Nat) : List Char :=
  problem.pattern[place]?.getD []

/-- What the pattern holds at a place. -/
def mark? (place : Nat) : Option Char :=
  (problem.rest place).head?

/-- The star to go back to, unless the name is too short for it. -/
def retry? (cursor : Cursor) : Option Cursor :=
  match cursor.star with
  | some star =>
      if star.name ≤ problem.name.size then
        some { cursor with pattern := star.pattern, name := star.name }
      else
        none
  | none => none

/-- Leaves the innermost braces at the farthest place an alternative has reached. -/
def close (outer : Cursor) (braces : List Cursor) (longest place : Nat) : Match :=
  { cursor := { outer with pattern := place, name := longest }
    braces
    longest := if braces.isEmpty then 0 else longest }

/-- Goes back after a mismatch: to the last star, else to the next alternative of the innermost
braces, else out of them. -/
def giveWay (state : Match) : Step :=
  match problem.retry? state.cursor with
  | some cursor => .goOn { state with cursor }
  | none =>
      match state.braces with
      | [] => .mismatch
      | outer :: braces =>
          match alternativeEnd? true 1 false (problem.rest state.cursor.pattern) with
          | none => .malformed
          | some (.comma, count) =>
              .goOn { state with
                cursor := { state.cursor with
                  pattern := state.cursor.pattern + count, name := outer.name } }
          | some (.brace, count) =>
              if state.longest > 0 then
                .goOn (close outer braces state.longest (state.cursor.pattern + count))
              else
                match problem.retry? outer with
                | some cursor => .goOn { state with cursor, braces }
                | none => .mismatch

/-- Reads a star. A double star goes back past slashes if it stands at the end of the pattern or
between slashes; a single star that meets a slash leaves the match to the double star before it. -/
def star (state : Match) : Step :=
  let cursor := state.cursor
  let isDouble := problem.mark? (cursor.pattern + 1) = some '*'
  let place :=
    cursor.pattern +
      if isDouble then starRun (problem.rest (cursor.pattern + 2)) else 0
  let here : Retry := { pattern := place, name := cursor.name + 1 }
  let next := place + if isDouble then 2 else 1
  let atEnd := next = problem.pattern.size
  let betweenSlashes :=
    (next < 3 ∨ problem.mark? (next - 3) = some '/') ∧ problem.mark? next = some '/'
  let startsName :=
    cursor.name = 0 ∨
      (cursor.name < problem.name.size ∧ problem.name[cursor.name - 1]? = some '/')
  let doubleStar := if isDouble ∧ (atEnd ∨ betweenSlashes) then some here else cursor.doubleStar
  -- a double star before a slash may stand for no directory at all
  let next := if isDouble ∧ ¬atEnd ∧ betweenSlashes ∧ startsName then next + 1 else next
  let (next, last) :=
    if doubleStar.map Retry.name ≠ some here.name ∧ problem.name[cursor.name]? = some '/' then
      match doubleStar with
      | some double =>
          if cursor.name + 1 < problem.name.size then
            (double.pattern, some { here with pattern := double.pattern })
          else
            (next, none)
      | none => (next, none)
    else
      (next, some here)
  let moved := { cursor with pattern := next, star := last, doubleStar }
  let endsAlternative := problem.mark? next = some ',' ∨ problem.mark? next = some '}'
  if state.braces ≠ [] ∧ endsAlternative then
    match alternativeEnd? false 1 false (problem.rest next) with
    | none => .malformed
    | some (_, count) => .goOn { state with cursor := { moved with pattern := next + count } }
  else
    .goOn { state with cursor := moved }

def literal (state : Match) (c d : Char) : Step :=
  let cursor := state.cursor
  let place := if c = '\\' then cursor.pattern + 1 else cursor.pattern
  let byte? := if c = '\\' then (problem.mark? place).map escaped else some c
  match byte? with
  | none => .malformed
  | some byte =>
      if d = byte then
        let state :=
          match state.braces with
          | outer :: braces =>
              if place > 0 ∧ problem.mark? (place - 1) = some '}' then
                close outer braces cursor.name place
              else
                { state with cursor := { cursor with pattern := place } }
          | [] => { state with cursor := { cursor with pattern := place } }
        .goOn { state with
          cursor := { state.cursor with
            pattern := place + 1
            name := state.cursor.name + 1
            doubleStar := if byte = '/' then state.cursor.doubleStar else none } }
      else
        problem.giveWay { state with cursor := { cursor with pattern := place } }

def bracket (state : Match) (d : Char) : Step :=
  let cursor := state.cursor
  match admits? d (problem.rest (cursor.pattern + 1)) with
  | none => .malformed
  | some (admitted, rest) =>
      let cursor := { cursor with pattern := problem.pattern.size - rest.length }
      if admitted then
        .goOn { state with cursor := { cursor with name := cursor.name + 1 } }
      else
        problem.giveWay { state with cursor }

/-- Reads the mark at the current place of the pattern. -/
def advance (state : Match) : Step :=
  let cursor := state.cursor
  match problem.mark? cursor.pattern, problem.name[cursor.name]? with
  | some '*', _ => problem.star state
  | some '?', some d =>
      if d = '/' then
        problem.giveWay state
      else
        .goOn { state with
          cursor := { cursor with pattern := cursor.pattern + 1, name := cursor.name + 1 } }
  | some '[', some d => problem.bracket state d
  | some '{', some _ =>
      if state.braces.length ≥ 10 then
        .malformed
      else
        .goOn { state with
          cursor := { pattern := cursor.pattern + 1, name := cursor.name }
          braces := cursor :: state.braces }
  | some c, d? =>
      match c, state.braces, d? with
      | '}', outer :: braces, _ =>
          .goOn (close outer braces (max state.longest cursor.name) (cursor.pattern + 1))
      | ',', outer :: _, _ =>
          .goOn { state with
            cursor := { pattern := cursor.pattern + 1, name := outer.name }
            longest := max state.longest cursor.name }
      | _, _, some d => problem.literal state c d
      | _, _, none => problem.giveWay state
  | none, _ => problem.giveWay state

/-- Steps until pattern and name are both used up. Each step moves forward in the pattern or lets a
star take one byte more, so `fuel` runs out only if it is chosen too small. -/
def run : Nat → Match → Step
  | 0, _ => .mismatch
  | fuel + 1, state =>
      if state.cursor.pattern < problem.pattern.size ∨ state.cursor.name < problem.name.size then
        match problem.advance state with
        | .goOn next => run fuel next
        | stop => stop
      else
        .goOn state

/-- Enough steps for every match: each star is tried at most once for each byte of the name, and so
is each star inside braces whenever the braces are entered. -/
def fuel : Nat :=
  let braces := min 10 ((problem.rest 0).count '{')
  let width := problem.name.size + 2
  Nat.pow (4 * (problem.pattern.size + 2) * width * width) (1 + braces)

end Problem

/-- The bytes of a text, each as the character with its value. -/
def bytesOf (text : List Char) : List Char :=
  (Utf8.encode text).map fun byte => Char.ofNat byte.toNat

/-- The list itself and what is left of it after each of its elements, down to the last one. -/
def tails : List Char → List (List Char)
  | [] => []
  | c :: rest => (c :: rest) :: tails rest

def isMatch (pattern name : List Char) : Bool :=
  let problem : Problem :=
    { pattern := (tails (bytesOf pattern)).toArray, name := (bytesOf name).toArray }
  let marks := (pattern.takeWhile (· = '!')).length
  let isNegated := marks % 2 = 1
  match problem.run problem.fuel { cursor := { pattern := marks } } with
  | .goOn _ => !isNegated
  | .mismatch => isNegated
  | .malformed => false

end Snapshot.Glob
