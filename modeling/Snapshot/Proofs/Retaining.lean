import Snapshot.FileTree.Changes
import Snapshot.Proofs.Requests

/-!
# What requests leave in place

An export takes nothing away once its destination is ready: it creates directories and writes files.
Of whatever stands in the tree this says what stands there afterwards. Directories and links are
what they were, so paths lead where they led.
-/

namespace Snapshot

open FileTree

namespace FileSystem

variable {fs after : FileSystem} {path : Path} {content : List UInt8}

/-- Nothing is gone, and so the current directory is the same. A file may hold something else, and
what is new is a file or a directory. -/
structure Retains (after fs : FileSystem) : Prop where
  current : after.current = fs.current
  keeps : ∀ {place entry}, fs.tree.get? place = some entry →
    ∃ found, after.tree.get? place = some found ∧ entry.canBecome found
  adds : ∀ {place entry}, fs.tree.get? place = none → after.tree.get? place = some entry →
    entry = .directory ∨ ∃ content, entry = .file content

namespace Retains

theorem refl (fs : FileSystem) : fs.Retains fs where
  current := rfl
  keeps h := ⟨_, h, Entry.canBecome_self _⟩
  adds hnone hentry := by
    rw [hnone] at hentry
    cases hentry

theorem trans {middle : FileSystem} (hsecond : after.Retains middle) (hfirst : middle.Retains fs) :
    after.Retains fs where
  current := hsecond.current.trans hfirst.current
  keeps h := by
    obtain ⟨found, hfound, hbecomes⟩ := hfirst.keeps h
    obtain ⟨last, hlast, hgoesOn⟩ := hsecond.keeps hfound
    exact ⟨last, hlast, Entry.canBecome_trans hbecomes hgoesOn⟩
  adds {place entry} hnone hentry := by
    cases hmiddle : middle.tree.get? place with
    | none => exact hsecond.adds hmiddle hentry
    | some found =>
        obtain ⟨last, hlast, hbecomes⟩ := hsecond.keeps hmiddle
        obtain rfl : last = entry := Option.some.inj (hlast.symm.trans hentry)
        rcases Entry.canBecome_iff.1 hbecomes with rfl | ⟨-, new, -, rfl⟩
        · exact hfirst.adds hnone hmiddle
        · exact .inr ⟨new, rfl⟩

/-- What is no regular file is what it was. -/
theorem get?_eq (h : after.Retains fs) {place : Location} {entry : Entry}
    (hentry : fs.tree.get? place = some entry) (hfile : ∀ content, entry ≠ .file content) :
    after.tree.get? place = some entry := by
  obtain ⟨found, hfound, hbecomes⟩ := h.keeps hentry
  rcases Entry.canBecome_iff.1 hbecomes with rfl | ⟨old, -, rfl, -⟩
  · exact hfound
  · exact absurd rfl (hfile old)

/-- What is neither a regular file nor a directory was there already. -/
theorem old (h : after.Retains fs) {place : Location} {entry : Entry}
    (hentry : after.tree.get? place = some entry) (hdirectory : entry ≠ .directory)
    (hfile : ∀ content, entry ≠ .file content) : fs.tree.get? place = some entry := by
  cases hold : fs.tree.get? place with
  | none =>
      rcases h.adds hold hentry with rfl | ⟨content, rfl⟩
      · exact absurd rfl hdirectory
      · exact absurd rfl (hfile content)
  | some found =>
      obtain ⟨last, hlast, hbecomes⟩ := h.keeps hold
      obtain rfl : last = entry := Option.some.inj (hlast.symm.trans hentry)
      rcases Entry.canBecome_iff.1 hbecomes with rfl | ⟨-, new, -, rfl⟩
      · rfl
      · exact absurd rfl (hfile new)

theorem directories (h : after.Retains fs) {place : Location}
    (hdirectory : fs.tree.get? place = some .directory) :
    after.tree.get? place = some .directory :=
  h.get?_eq hdirectory (by simp)

theorem links (h : after.Retains fs) {place : Location} {target : Path} :
    after.tree.get? place = some (.link target) ↔ fs.tree.get? place = some (.link target) :=
  ⟨fun hlink => h.old hlink (by simp) (by simp), fun hlink => h.get?_eq hlink (by simp)⟩

theorem linkFree (h : after.Retains fs) (hlinks : fs.tree.LinkFree) : after.tree.LinkFree :=
  fun place target hlink => hlinks place target (h.links.1 hlink)

/-- Where hops led, they go on to lead. -/
theorem leads (h : after.Retains fs) {here there : Location} {hops : List Hop} {links : Nat}
    (hleads : fs.tree.Leads here hops links there) : after.tree.Leads here hops links there :=
  hleads.mono h.directories h.links.2

theorem straight (h : after.Retains fs) {here : Location} {hops : List Hop}
    (hstraight : fs.tree.Straight here hops) : after.tree.Straight here hops :=
  fun way hway target hlink => hstraight way hway target (h.links.1 hlink)

theorem createDirectories (fs : FileSystem) (path : Path) :
    (fs.createDirectories path).1.Retains fs := by
  obtain ⟨hadded, hcurrent⟩ := fs.createDirectories_leads path
  refine ⟨hcurrent, fun hentry => ⟨_, hadded.keeps hentry, Entry.canBecome_self _⟩, ?_⟩
  intro place entry hnone hentry
  rcases hadded.adds hentry with hold | ⟨hdirectory, -⟩
  · rw [hnone] at hold
    cases hold
  · exact .inl hdirectory

/-- A file that is put at a free place changes nothing else. -/
theorem put {location : Location} (hfree : fs.tree.get? location = none)
    (h : fs.put (.free location) (.file content) = .ok after) : after.Retains fs := by
  obtain ⟨place, hplace, hget, hcurrent⟩ := put_eq_ok h
  obtain rfl := Spot.free.inj hplace
  have hkeeps {place : Location} {entry : Entry} (hentry : fs.tree.get? place = some entry) :
      after.tree.get? place = some entry := by
    rw [hget, if_neg fun heq => ?_]
    · exact hentry
    · rw [← heq, hentry] at hfree
      cases hfree
  refine ⟨hcurrent.trans (Place.settledIn_eq_self (hkeeps fs.anchored)),
    fun hentry => ⟨_, hkeeps hentry, Entry.canBecome_self _⟩, ?_⟩
  intro place entry hnone hentry
  rw [hget, hnone] at hentry
  split at hentry
  · exact .inr ⟨content, (Option.some.inj hentry).symm⟩
  · cases hentry

/-- A regular file that holds something else is one still. -/
theorem setContent (location : Location) :
    (fs.withTree (fs.tree.setContent location content)).Retains fs := by
  have hbecomes (entry : Entry) : entry.canBecome (entry.withContent content) := by
    cases entry <;> simp [Entry.withContent, Entry.canBecome]
  have hkeeps {place : Location} {entry : Entry} (hentry : fs.tree.get? place = some entry) :
      ∃ found, (fs.tree.setContent location content).get? place = some found ∧
        entry.canBecome found := by
    rw [get?_setContent, hentry]
    split
    · exact ⟨_, rfl, hbecomes entry⟩
    · exact ⟨_, rfl, Entry.canBecome_self entry⟩
  have hcurrent : (fs.tree.setContent location content).get? fs.current.anchor =
      some .directory := by
    obtain ⟨found, hfound, hdirectory⟩ := hkeeps fs.anchored
    rcases Entry.canBecome_iff.1 hdirectory with rfl | ⟨_, _, heq, -⟩
    · exact hfound
    · cases heq
  refine ⟨Place.settledIn_eq_self hcurrent, hkeeps, ?_⟩
  intro place entry hnone hentry
  rw [withTree, get?_setContent, hnone] at hentry
  split at hentry <;> cases hentry

theorem write (h : fs.write path content = .ok after) : after.Retains fs := by
  unfold FileSystem.write at h
  cases hspot : fs.locate .write path with
  | error fault => simp [hspot, Except.bind] at h
  | ok spot =>
      rw [hspot] at h
      cases spot with
      | removed => cases h
      | free location => exact .put (by simpa using get?_of_reach hspot) h
      | taken location entry =>
          cases entry with
          | directory | link target | socket => cases h
          | sink =>
              cases h
              exact .refl fs
          | file old =>
              cases h
              exact .setContent location

end Retains

end FileSystem

end Snapshot
