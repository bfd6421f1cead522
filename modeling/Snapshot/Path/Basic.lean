/-!
# Paths

A path is kept as it is written: the segments between its slashes, empty ones and dots included. How
a path is written shows in messages and decides how the system treats it, so spellings of one place
stay different paths. `Path.components` is the reading in which repeated slashes, slashes at the end
and dots, except one at the front of a relative path, disappear.
-/

namespace Snapshot

structure Segment where
  text : String
  slashFree : '/' ∉ text.toList := by decide
deriving DecidableEq

instance : ToString Segment where
  toString segment := segment.text

namespace Segment

/-- The segment between two slashes that follow one another. -/
def empty : Segment := { text := "" }

/-- The segment that names the directory it stands in. -/
def dot : Segment := { text := "." }

/-- The segment that names the directory above. -/
def dotDot : Segment := { text := ".." }

/-- Whether the segment names no entry and leaves the place as it is. -/
def isBlank (segment : Segment) : Bool :=
  segment = empty || segment = dot

/-- The number of bytes in segments that are written with a slash each. -/
def sizeWithSlashes : List Segment → Nat
  | [] => 0
  | segment :: rest => segment.text.utf8ByteSize + 1 + sizeWithSlashes rest

end Segment

/-- A path as it is written. The empty path has one empty segment. -/
structure Path where
  segments : List Segment
  nonempty : segments ≠ []
deriving DecidableEq

/-- One part of the reading of a path. -/
inductive Component where
  | root
  | current
  | parent
  | name (segment : Segment)
deriving DecidableEq

def Component.ofSegment? (segment : Segment) : Option Component :=
  if segment.isBlank then none
  else if segment = Segment.dotDot then some .parent
  else some (.name segment)

namespace Path

def ofString (text : String) : Path where
  segments := (text.toList.splitOn '/').attach.map fun ⟨piece, hpiece⟩ =>
    { text := String.ofList piece
      slashFree := by
        rw [String.toList_ofList]
        exact not_mem_piece hpiece }
  nonempty := by
    simp only [ne_eq, List.map_eq_nil_iff, List.attach_eq_nil_iff]
    exact List.splitOn_ne_nil _ _
where
  /-- No piece between separators holds the separator. -/
  not_mem_piece {text piece : List Char} (hpiece : piece ∈ text.splitOn '/') : '/' ∉ piece := by
    induction text generalizing piece with
    | nil =>
        rw [List.splitOn_nil, List.mem_singleton] at hpiece
        simp [hpiece]
    | cons c text ih =>
        rw [List.splitOn_cons_eq_if_modifyHead] at hpiece
        split at hpiece
        · rcases List.mem_cons.1 hpiece with rfl | hpiece
          · simp
          · exact ih hpiece
        · next hc =>
            cases hsplit : text.splitOn '/' with
            | nil => simp [hsplit] at hpiece
            | cons first others =>
                simp only [hsplit, List.modifyHead_cons, List.mem_cons] at hpiece
                rcases hpiece with rfl | hpiece
                · have hfirst : '/' ∉ first := ih (by simp [hsplit])
                  simp only [List.mem_cons, not_or]
                  exact ⟨fun heq => hc (by simp [← heq]), hfirst⟩
                · exact ih (by simp [hsplit, hpiece])

def text (path : Path) : String :=
  String.ofList (['/'].intercalate (path.segments.map fun segment => segment.text.toList))

instance : ToString Path where
  toString := text

/-- The number of bytes in the text of a path. -/
def size (path : Path) : Nat :=
  Segment.sizeWithSlashes path.segments - 1

def hasNul (path : Path) : Bool :=
  path.segments.any fun segment => '\x00' ∈ segment.text.toList

def ofSegment (segment : Segment) : Path where
  segments := [segment]
  nonempty := by simp

def isEmpty (path : Path) : Bool :=
  path.segments = [Segment.empty]

def isAbsolute (path : Path) : Bool :=
  match path.segments with
  | first :: _ :: _ => first = Segment.empty
  | _ => false

/-- The segments after the slash of an absolute path, and all segments of a relative one. -/
def body (path : Path) : List Segment :=
  if path.isAbsolute then path.segments.tail else path.segments

def components (path : Path) : List Component :=
  if path.isAbsolute then
    .root :: path.segments.tail.filterMap Component.ofSegment?
  else if path.segments.head? = some Segment.dot then
    .current :: path.segments.tail.filterMap Component.ofSegment?
  else
    path.segments.filterMap Component.ofSegment?

/-- The name that the path ends in, if it ends in one. -/
def fileName? (path : Path) : Option Segment :=
  match path.components.getLast? with
  | some (.name segment) => some segment
  | _ => none

/-- The segments to which others can be added: a slash at the end is not doubled. -/
def openEnd (path : Path) : List Segment :=
  if path.segments.getLast? = some Segment.empty then path.segments.dropLast else path.segments

/-- Writes `right` after `left` with one slash between them. An absolute `right` stands alone. -/
def join (left right : Path) : Path :=
  if right.isAbsolute then right
  else
    { segments := left.openEnd ++ right.segments
      nonempty := by simp [right.nonempty] }

instance : Append Path where
  append := join

/-! ## Shorter paths -/

/-- How many segments of its body the path itself and the paths above it keep, most first. A path
above another one ends where a component does, or keeps nothing. -/
def cuts (path : Path) : List Nat :=
  let ends := path.body.zipIdx.filterMap fun (segment, place) =>
    let isFrontDot := place = 0 && !path.isAbsolute && segment = Segment.dot
    if segment.isBlank && !isFrontDot then none else some (place + 1)
  path.body.length :: (0 :: ends).dropLast.reverse

/-- The path up to the first `count` segments of its body. With none of them it is the root of an
absolute path, and the empty path otherwise. -/
def upTo (path : Path) (count : Nat) : Path where
  segments :=
    let front := path.body.take count
    if path.isAbsolute then
      Segment.empty :: if front.isEmpty then [Segment.empty] else front
    else
      if front.isEmpty then [Segment.empty] else front
  nonempty := by
    dsimp only
    split
    · simp
    · split
      · simp
      · simp_all

/-- The components that the path up to the first `count` segments of its body lacks. -/
def after (path : Path) (count : Nat) : List Component :=
  (path.body.drop count).filterMap Component.ofSegment?

/-- The path without its last component. -/
def parent? (path : Path) : Option Path :=
  path.cuts[1]?.map path.upTo

end Path

end Snapshot
