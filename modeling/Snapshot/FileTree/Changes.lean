import Snapshot.FileTree.Lemmas

/-!
# From one tree to another

Where two file trees differ: what one of them loses on the way to the other, leaves first, and what
it gains, from the root down. In this order each single step can be carried out when its turn comes.
A regular file with other content is not lost, but is written again.
-/

namespace Snapshot

/-- Whether an entry can turn into another one where it stands. -/
def Entry.canBecome : Entry → Entry → Bool
  | .file _, .file _ => true
  | before, after => before = after

theorem Entry.canBecome_self (entry : Entry) : entry.canBecome entry := by
  cases entry <;> simp [Entry.canBecome]

theorem Entry.canBecome_iff {before after : Entry} : before.canBecome after = true ↔
    before = after ∨ ∃ old new, before = .file old ∧ after = .file new := by
  cases before with
  | file old =>
      cases after with
      | file new => simp [Entry.canBecome]
      | directory | link target | socket | sink => simp [Entry.canBecome]
  | directory | link target | socket | sink => simp [Entry.canBecome]

theorem Entry.canBecome_trans {before middle after : Entry} (hfirst : before.canBecome middle)
    (hsecond : middle.canBecome after) : before.canBecome after := by
  rw [Entry.canBecome_iff] at hfirst hsecond ⊢
  rcases hfirst with rfl | ⟨old, new, rfl, rfl⟩
  · exact hsecond
  · rcases hsecond with rfl | ⟨_, last, -, rfl⟩
    · exact .inr ⟨old, new, rfl, rfl⟩
    · exact .inr ⟨old, last, rfl, rfl⟩

namespace FileTree

variable {before after : FileTree} {location : Location} {entry : Entry}

def losses (before after : FileTree) : List (Location × Entry) :=
  let gone := before.entries.filter fun entry => !(after.get? entry.1).any entry.2.canBecome
  gone.mergeSort fun left right => right.1.length ≤ left.1.length

def gains (before after : FileTree) : List (Location × Entry) :=
  let made := after.entries.filter fun entry => before.get? entry.1 ≠ some entry.2
  made.mergeSort fun left right => left.1.length ≤ right.1.length

theorem mem_losses_iff (hroot : location ≠ []) :
    (location, entry) ∈ losses before after ↔
      before.get? location = some entry ∧ ¬(after.get? location).any entry.canBecome := by
  simp [losses, get?_eq_some_iff_mem hroot]

theorem mem_gains_iff (hroot : location ≠ []) :
    (location, entry) ∈ gains before after ↔
      after.get? location = some entry ∧ before.get? location ≠ some entry := by
  simp [gains, get?_eq_some_iff_mem hroot]

/-- Nothing has to be done where nothing changed. -/
theorem losses_self (tree : FileTree) : losses tree tree = [] := by
  refine List.eq_nil_iff_forall_not_mem.2 fun ⟨location, entry⟩ hmem => ?_
  simp only [losses, List.mem_mergeSort, List.mem_filter] at hmem
  simp [get?_of_mem hmem.1, Entry.canBecome_self] at hmem

theorem gains_self (tree : FileTree) : gains tree tree = [] := by
  refine List.eq_nil_iff_forall_not_mem.2 fun ⟨location, entry⟩ hmem => ?_
  simp only [gains, List.mem_mergeSort, List.mem_filter] at hmem
  simp [get?_of_mem hmem.1] at hmem

end FileTree

end Snapshot
