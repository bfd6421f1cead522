import Snapshot.FileTree.Lemmas
import Snapshot.FileTree.Walk

/-!
# Leaps

A leap saves steps and changes nothing: `travel` goes where `descend` goes, so a walk is `descend`
with a walk of one link less wherever a link has to be followed.
-/

namespace Snapshot

namespace FileTree

variable {tree : FileTree} {location : Location} {ending : Ending}

/-- What has something below it is a directory. -/
theorem get?_of_get?_append {name : Segment} {below : Location} {entry : Entry}
    (h : tree.get? (location ++ name :: below) = some entry) :
    tree.get? location = some .directory := by
  induction below generalizing location name with
  | nil => simpa using get?_dropLast h
  | cons next below ih =>
      rw [List.append_cons] at h
      simpa using get?_dropLast (ih h)

theorem isName_of_get? {name : Segment} {below : Location} {entry : Entry}
    (h : tree.get? (location ++ name :: below) = some entry) : name.IsName :=
  tree.wellFormed.isName _ ((get?_eq_some_iff_mem (by simp)).1 h) name (by simp)

theorem sizeWithSlashes_append (left right : List Segment) :
    Segment.sizeWithSlashes (left ++ right) =
      Segment.sizeWithSlashes left + Segment.sizeWithSlashes right := by
  induction left with
  | nil => simp [Segment.sizeWithSlashes]
  | cons first left ih => simp [Segment.sizeWithSlashes, ih, Nat.add_assoc]

/-- Where a walk can look at a location, it can look at those above it. -/
theorem admits_of_append {below : Location} (h : ending.admits (location ++ below)) :
    ending.admits location := by
  simp only [Ending.admits, Location.size, sizeWithSlashes_append, Bool.or_eq_true] at h ⊢
  refine h.imp_right fun hsize => decide_eq_true ?_
  exact Nat.le_trans (Nat.le_add_right _ _) (of_decide_eq_true hsize)

theorem travel_eq_descend {chase : Location → Path → List Hop → Except Fault Spot}
    {here : Location} {hops : List Hop} :
    tree.travel ending chase here hops = tree.descend ending chase here hops := by
  unfold travel leap
  dsimp only
  split
  · next h =>
      obtain ⟨hplace, hadmits⟩ := h
      fun_induction leadingNames hops generalizing here with
      | case1 name next rest names left heq ih =>
          dsimp only at hplace hadmits ⊢
          rw [heq] at ih
          rw [List.append_cons] at hplace hadmits ⊢
          rw [ih hplace hadmits]
          have hdirectory : tree.get? (here ++ [name]) = some .directory := by
            cases names with
            | nil => simpa using hplace
            | cons => exact get?_of_get?_append hplace
          have hsize := (isName_of_get? hdirectory).size_le
          have hhere := admits_of_append hadmits
          simp [descend, hdirectory, hhere, Nat.not_lt.2 hsize]
      | case2 hops hne => simp
  · rfl

theorem walk_zero (here : Location) (hops : List Hop) :
    tree.walk ending 0 here hops =
      tree.descend ending (fun _ _ _ => .error .tooManyLinks) here hops :=
  travel_eq_descend

theorem walk_succ (links : Nat) (here : Location) (hops : List Hop) :
    tree.walk ending (links + 1) here hops =
      tree.descend ending
        (fun here target rest =>
          tree.walk ending links (if target.isAbsolute then [] else here) (target.hops ++ rest))
        here hops :=
  travel_eq_descend

end FileTree

end Snapshot
