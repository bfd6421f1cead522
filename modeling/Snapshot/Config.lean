import Snapshot.Glob.Basic
import Snapshot.Report
import Snapshot.Status

/-!
# Settings of an export

What is exported, from where, to where, and for which version. The roots are paths inside the
project; they are what is copied, and what is removed from a destination that is overwritten, so
none of them may lead out of the directory that it is taken in.
-/

namespace Snapshot

namespace Path

/-- Whether the path goes down and nowhere else: it is relative, never goes up, and names something.
-/
def IsDescent (path : Path) : Prop :=
  (∀ component ∈ path.components, component ≠ .root ∧ component ≠ .parent) ∧
    ∃ segment, Component.name segment ∈ path.components

instance (path : Path) : Decidable path.IsDescent :=
  decidable_of_iff
    ((path.components.all fun component => component ≠ .root ∧ component ≠ .parent) ∧
      path.components.any fun component => component matches .name _) <| by
    simp only [List.all_eq_true, decide_eq_true_eq, List.any_eq_true, IsDescent]
    refine and_congr_right fun _ => ⟨?_, ?_⟩
    · rintro ⟨component, hmem, hname⟩
      cases component with
      | name segment => exact ⟨segment, hmem⟩
      | root | current | parent => simp at hname
    · rintro ⟨segment, hmem⟩
      exact ⟨_, hmem, rfl⟩

end Path

structure Config where
  /-- The project, in which the roots are taken. -/
  baseDirectory : Path := Path.ofString "."
  destination : Path := Path.ofString "export"
  /-- The version at which guards are evaluated. -/
  version : Int64 := 0
  /-- What is exported, in this order. -/
  roots : List Path :=
    ["CMakeLists.txt", "LICENSE", "local", "src", "README.md", "tests", ".gitignore",
      "assignments"].map Path.ofString
  /-- Patterns of file names that are left out at any depth. -/
  ignore : List String := ["*.swp", "*.swo", "*~"]
  /-- Whether a pattern, given first, matches a name. An export works with any matcher. -/
  matchesName : List Char → List Char → Bool := Glob.isMatch
  verbosity : Verbosity := .normal

/-- The file in the destination that records the version. -/
def versionFile : Path := Path.ofString ".version"

namespace Config

/-- Checks that every root goes down from where it is taken, and names the first that does not. -/
def validate (config : Config) : Except Report Unit :=
  match config.roots.find? fun root => ¬root.IsDescent with
  | some root => .error ((Report.of (.path root)).noting (.rootOutsideProject root))
  | none => .ok ()

def isIgnored (config : Config) (name : Segment) : Bool :=
  config.ignore.any fun pattern => config.matchesName pattern.toList name.text.toList

end Config

end Snapshot
