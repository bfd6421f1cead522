import Snapshot.Proofs.Acceptance
import Snapshot.Proofs.Resolution
import Snapshot.Proofs.Sources

/-!
# Lexical normal forms

A path can be normalized by its text alone: empty segments and dots are dropped, and two dots take
back the name before them. Resolving a path does more, since it follows what exists of the path in
the tree and takes only the rest as it reads. Without links the two come to the same, wherever the
part that exists ends: at a missing name, at a regular file that is gone into, at a name that is too
long, or in the middle of a way up.
-/

namespace Snapshot

/-- The location after one more segment is read. Above the root there is nothing to take back. -/
def Location.read (location : Location) (segment : Segment) : Location :=
  if segment = Segment.empty ∨ segment = Segment.dot then location
  else if segment = Segment.dotDot then location.dropLast
  else location ++ [segment]

/-- What the text of a path comes to, read from the root. No tree is looked at. -/
def Path.normalForm (path : Path) : Location :=
  path.segments.foldl Location.read []

/-- A segment is read as its hop leads. -/
theorem Location.read_eq_hop (location : Location) (segment : Segment) :
    location.read segment = location.hop (Hop.ofSegment segment) := by
  by_cases hempty : segment = Segment.empty
  · rw [hempty]
    rfl
  · by_cases hdot : segment = Segment.dot
    · rw [hdot]
      rfl
    · by_cases hdots : segment = Segment.dotDot
      · rw [hdots]
        rfl
      · simp [read, Hop.ofSegment, hop, hempty, hdot, hdots]

namespace Path

variable {path : Path} {location : Location}

theorem foldl_read (segments : List Segment) :
    segments.foldl Location.read location = location.follow (segments.map Hop.ofSegment) := by
  rw [Location.follow, List.foldl_map]
  exact congrArg (segments.foldl · location) (funext₂ Location.read_eq_hop)

/-- The first slash of a path from the root reads as nothing. -/
theorem normalForm_eq_placeFrom (path : Path) : path.normalForm = path.placeFrom [] := by
  rw [normalForm, foldl_read, placeFrom, ite_self, hops]
  cases habsolute : path.isAbsolute with
  | false => rw [body_of_not_isAbsolute habsolute]
  | true =>
      obtain ⟨second, rest, hsegments⟩ := isAbsolute_iff.1 habsolute
      rw [(body_of_isAbsolute hsegments (List.cons_ne_nil _ _)).2, hsegments]
      rfl

/-- A location that is spelled out is its own normal form. -/
theorem normalForm_ofLocation (h : location.IsPlain) :
    (ofLocation location).normalForm = location := by
  rw [normalForm_eq_placeFrom, placeFrom_ofLocation h]

end Path

namespace FileSystem

variable {fs : FileSystem} {path : Path}

/-- From the root a path reads as it does from the current directory. -/
theorem normalForm_absolute (fs : FileSystem) (path : Path) :
    (fs.absolute path).normalForm = fs.place path := by
  rw [Path.normalForm_eq_placeFrom, absolute, Path.placeFrom_join_ofLocation fs.isPlain_anchor,
    place]

/-- Some part of a path always exists, and without links the rest of it makes up for what that part
lacks. -/
theorem resolveLenient_eq_place (hlinks : fs.tree.LinkFree)
    (hleads : (path.isAbsolute || fs.hasCurrent) = true) :
    fs.resolveLenient path = .ok (fs.place path) := by
  obtain ⟨location, rest, hexists⟩ := fs.exists_existsUpTo path
  have hresolved := hexists.resolveLenient hleads
  rw [hresolved, (resolveLenient_eq_ok hlinks hresolved).2]

/-- Without links every path is resolved, and to its lexical normal form, read from the current
directory: an absolute location in which nothing is left to normalize. So what the path is resolved
to does not depend on what exists. -/
theorem resolved_to_normalForm (hlinks : fs.tree.LinkFree)
    (hleads : (path.isAbsolute || fs.hasCurrent) = true) :
    fs.resolveLenient path = .ok (fs.absolute path).normalForm ∧
      (∀ name ∈ (fs.absolute path).normalForm,
        name ≠ Segment.empty ∧ name ≠ Segment.dot ∧ name ≠ Segment.dotDot) ∧
      (Path.ofLocation (fs.absolute path).normalForm).isAbsolute = true ∧
      (Path.ofLocation (fs.absolute path).normalForm).normalForm = (fs.absolute path).normalForm ∧
      ∀ other : FileSystem, other.tree.LinkFree → other.current = fs.current →
        other.resolveLenient path = fs.resolveLenient path := by
  have hresolved := resolveLenient_eq_place hlinks hleads
  have hplain : (fs.place path).IsPlain := fs.isPlain_place path
  rw [normalForm_absolute]
  refine ⟨hresolved, fun name hname => ?_, Path.isAbsolute_ofLocation,
    Path.normalForm_ofLocation hplain, fun other hother hcurrent => ?_⟩
  · have hinto := hplain name hname
    refine ⟨?_, ?_, ?_⟩
    · rintro rfl
      cases hinto
    · rintro rfl
      cases hinto
    · rintro rfl
      cases hinto
  · have hotherLeads : (path.isAbsolute || other.hasCurrent) = true := by
      rwa [hasCurrent, hcurrent]
    have hsame : other.place path = fs.place path := by rw [place, place, hcurrent]
    rw [hresolved, resolveLenient_eq_place hother hotherLeads, hsame]

/-- A way up out of a regular file, and out of a missing directory, and past the root. -/
theorem resolved_to_normalForm_smallProject :
    let fs := FileSystem.ofTree Export.smallProject.tree (.ofString "p/src")
    let path := Path.ofString "main.c/../.././missing/..//../../..//out/./new/"
    fs.tree.LinkFree ∧ path.isAbsolute = false ∧ fs.hasCurrent = true ∧
      (fs.absolute path).normalForm = [{ text := "out" }, { text := "new" }] ∧
      fs.resolveLenient path = .ok [{ text := "out" }, { text := "new" }] := by
  intro fs path
  have hlinks : fs.tree.LinkFree := FileTree.linkFree_of_entries (by decide)
  have hcurrent : fs.hasCurrent = true := by decide +kernel
  have hform : (fs.absolute path).normalForm = [{ text := "out" }, { text := "new" }] := by
    decide +kernel
  have hleads : (path.isAbsolute || fs.hasCurrent) = true := by rw [hcurrent, Bool.or_true]
  refine ⟨hlinks, by decide +kernel, hcurrent, hform, ?_⟩
  rw [← hform]
  exact (resolved_to_normalForm hlinks hleads).1

end FileSystem

end Snapshot
