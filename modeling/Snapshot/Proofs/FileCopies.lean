import Snapshot.Proofs.Ensures
import Snapshot.Proofs.Retaining
import Snapshot.Proofs.Success

/-!
# Copies of single files

What is kept of a file is a function of its bytes and the version, `filterBytes`. Copying a file of
the project reads these bytes, and writes what is kept of them to the place of the file in the
destination, after the missing directories above it. A file of which nothing is kept leaves no trace
there, and a copy that fails leaves at most some of the directories.
-/

namespace Snapshot

/-- The lines of a file that are emitted. A line is judged by its text, and kept as its bytes. -/
def LineFilter.emittedLines (filter : LineFilter) :
    List (List UInt8) → Except FilterError (List (List UInt8))
  | [] => filter.finish.map fun _ => []
  | line :: rest =>
      match filter.feed (Utf8.lossyText line) with
      | (_, .error error) => .error error
      | (next, .ok .emit) => (next.emittedLines rest).map (line :: ·)
      | (next, .ok _) => next.emittedLines rest

/-- What is left of the bytes of a file for a version. -/
def filterBytes (version : Int64) (content : List UInt8) : Except FilterError (List UInt8) :=
  ((LineFilter.start version).emittedLines (Text.lines 0x0A content)).map List.flatten

namespace FileCopy

variable {copy done : FileCopy} {version : Int64}

@[simp] theorem content_keep (bytes : List UInt8) :
    (copy.keep bytes).content = copy.content ++ bytes := by
  simp [content, keep]

theorem filterLines_eq_ok {filter : LineFilter} {lines : List (List UInt8)}
    (h : copy.filterLines filter lines = .ok done) :
    ∃ out, filter.emittedLines lines = .ok out ∧ done.content = copy.content ++ out.flatten ∧
      done.output = copy.output := by
  induction lines generalizing copy filter with
  | nil =>
      unfold filterLines at h
      cases hfinish : filter.finish with
      | error error => simp [hfinish] at h
      | ok _ =>
          obtain rfl : copy = done := by simpa [hfinish] using h
          exact ⟨[], by simp [LineFilter.emittedLines, hfinish, Except.map], by simp, rfl⟩
  | cons line rest ih =>
      unfold filterLines at h
      dsimp only at h
      split at h
      · cases h
      · next filter' hfeed =>
          obtain ⟨out, hout, hcontent, houtput⟩ := ih h
          refine ⟨line :: out, by simp [LineFilter.emittedLines, hfeed, hout, Except.map], ?_,
            houtput⟩
          rw [hcontent, content_keep]
          simp [content, advance]
      · next filter' action hne hfeed =>
          obtain ⟨out, hout, hcontent, houtput⟩ := ih h
          refine ⟨out, ?_, hcontent, houtput⟩
          cases action with
          | emit => exact absurd rfl hne
          | drop => simp [LineFilter.emittedLines, hfeed, hout]
          | marker => simp [LineFilter.emittedLines, hfeed, hout]

/-- Reading the whole file keeps what is left of it for the version. -/
theorem filtered_eq_ok (hkept : copy.kept = []) {unread : Except Fault (List UInt8)}
    (hunread : copy.unread = unread.map (Text.lines 0x0A))
    (h : copy.filtered version = .ok done) :
    ∃ content, unread = .ok content ∧ filterBytes version content = .ok done.content ∧
      done.output = copy.output := by
  unfold filtered at h
  cases unread with
  | error fault => simp [hunread, Except.map] at h
  | ok content =>
      simp only [hunread, Except.map] at h
      obtain ⟨out, hout, hcontent, houtput⟩ := filterLines_eq_ok h
      have hempty : copy.content = [] := by simp [FileCopy.content, hkept]
      refine ⟨content, rfl, ?_, houtput⟩
      rw [hcontent, hempty]
      simp [filterBytes, hout, Except.map]

/-- Filtering settles what is written, not where. -/
theorem output_of_filtered (h : copy.filtered version = .ok done) : done.output = copy.output := by
  unfold filtered at h
  split at h
  · cases h
  · obtain ⟨-, -, -, houtput⟩ := filterLines_eq_ok h
    exact houtput

/-- The directory of the output is created like any other. -/
theorem createOutputDirectory_eq_ok_iff {fs after : FileSystem} {parent : Path}
    (hparent : copy.output.parent? = some parent) :
    copy.createOutputDirectory fs = (after, .ok ()) ↔
      fs.createDirectories parent = (after, .ok ()) := by
  rw [createOutputDirectory, hparent]
  dsimp only
  generalize fs.createDirectories parent = result
  obtain ⟨created, outcome⟩ := result
  cases outcome <;> simp [Except.mapError]

theorem retains_createOutputDirectory (fs : FileSystem) :
    (copy.createOutputDirectory fs).1.Retains fs := by
  unfold createOutputDirectory
  split
  · exact .refl fs
  · exact .createDirectories fs _

/-- Copying goes well if there is nothing to write, or if both requests for it go well. -/
theorem finish_eq_ok_iff {fs after : FileSystem} {written : Bool} :
    copy.finish fs = (after, .ok written) ↔
      written = false ∧ copy.content = [] ∧ after = fs ∨
        written = true ∧ copy.content ≠ [] ∧ ∃ middle,
          copy.createOutputDirectory fs = (middle, .ok ()) ∧
            middle.write copy.output copy.content = .ok after := by
  unfold finish
  by_cases hcontent : copy.content = []
  · simp [hcontent, eq_comm, and_comm]
  · simp only [hcontent, if_false, ne_eq, not_false_eq_true, true_and, false_and, and_false,
      false_or]
    cases hcreate : copy.createOutputDirectory fs with
    | mk middle outcome =>
        cases outcome with
        | error fault => simp
        | ok _ =>
            cases hwrite : middle.write copy.output copy.content <;>
              simp [hwrite, eq_comm, and_comm]

/-- What the two requests keep up, copying keeps up, however it ends. -/
theorem finish_keeps {fs after : FileSystem} {outcome : Except Report Bool}
    (kept : FileSystem → Prop) (hfs : kept fs)
    (hcreate : kept (copy.createOutputDirectory fs).1)
    (hwrite : ∀ middle written, kept middle →
      middle.write copy.output copy.content = .ok written → kept written)
    (h : copy.finish fs = (after, outcome)) : kept after := by
  unfold finish at h
  dsimp only at h
  split at h
  · cases h
    exact hfs
  · split at h
    · next created parent fault heq =>
        rw [heq] at hcreate
        cases h
        exact hcreate
    · next created heq =>
        rw [heq] at hcreate
        split at h
        · next written hwritten =>
            cases h
            exact hwrite _ _ hcreate hwritten
        · cases h
          exact hcreate

theorem retains_of_finish {fs after : FileSystem} {outcome : Except Report Bool}
    (h : copy.finish fs = (after, outcome)) : after.Retains fs :=
  finish_keeps (·.Retains fs) (.refl fs) (copy.retains_createOutputDirectory fs)
    (fun _ _ hmiddle hwrite => (FileSystem.Retains.write hwrite).trans hmiddle) h

end FileCopy

namespace FileTree

/-- A file was written, and directories above it were added. A sink swallows what is written. -/
structure FileWritten (before after : FileTree) (location : Location) (content : List UInt8) :
    Prop where
  written : before.get? location ≠ some .sink → after.get? location = some (.file content)
  swallowed : before.get? location = some .sink → after.get? location = some .sink
  keeps : ∀ {other entry}, other ≠ location → before.get? other = some entry →
    after.get? other = some entry
  adds : ∀ {other entry}, other ≠ location → after.get? other = some entry →
    before.get? other = some entry ∨ (entry = .directory ∧ other <+: location)

theorem FileWritten.linkFree {before after : FileTree} {location : Location}
    {content : List UInt8} (h : before.FileWritten after location content)
    (hlinks : before.LinkFree) : after.LinkFree := by
  intro place target hlink
  by_cases hplace : place = location
  · subst hplace
    by_cases hsink : before.get? place = some .sink
    · simp [h.swallowed hsink] at hlink
    · simp [h.written hsink] at hlink
  · rcases h.adds hplace hlink with hold | ⟨hdirectory, -⟩
    · exact hlinks _ _ hold
    · cases hdirectory

end FileTree

namespace FileSystem

open FileTree

variable {fs after : FileSystem} {start : Location} {copy : FileCopy}

/-- Creating the directory of an output adds directories above the output only. -/
theorem createOutputDirectory_added
    (hstraight : fs.tree.Straight (copy.output.startFrom start) copy.output.hops)
    (hstart : fs.current.IsLeftOf start) (hup : Hop.up ∉ copy.output.hops) :
    fs.tree.DirectoriesAdded (copy.createOutputDirectory fs).1.tree
        (· <+: copy.output.placeFrom start) ∧
      (copy.createOutputDirectory fs).1.current.IsLeftOf start := by
  unfold FileCopy.createOutputDirectory
  split
  · exact ⟨.refl _, hstart⟩
  · next parent hparent =>
      obtain ⟨count, -, rfl⟩ := Option.map_eq_some_iff.1 hparent
      have hparentUp := Path.up_not_mem_hops_upTo hup count
      have hparentStraight := hstraight.startFrom_upTo count
      refine ⟨?_, (createDirectories_added _ hparentStraight hstart).2⟩
      refine (createDirectories_added_above hparentStraight hstart hparentUp).mono ?_
      intro place hplace
      exact hplace.trans (Path.placeFrom_upTo_prefix hup count)

/-- How writing what was kept of a file can end. -/
theorem finish_cases (hstraight : fs.tree.Straight (copy.output.startFrom start) copy.output.hops)
    (hstart : fs.current.IsLeftOf start) (hup : Hop.up ∉ copy.output.hops)
    {outcome : Except Report Bool} (h : copy.finish fs = (after, outcome)) :
    (copy.content = [] ∧ outcome = .ok false ∧ after = fs) ∨
      copy.content ≠ [] ∧ after.current.IsLeftOf start ∧
        ((outcome = .ok true ∧
            fs.tree.FileWritten after.tree (copy.output.placeFrom start) copy.content) ∨
          (∃ report, outcome = .error report) ∧
            fs.tree.DirectoriesAdded after.tree (· <+: copy.output.placeFrom start)) := by
  unfold FileCopy.finish at h
  dsimp only at h
  split at h
  · next hempty =>
      cases h
      exact .inl ⟨hempty, rfl, rfl⟩
  · next hcontent =>
      refine .inr ⟨hcontent, ?_⟩
      obtain ⟨hadded, hmiddle⟩ := createOutputDirectory_added hstraight hstart hup
      split at h
      · next middle parent fault hcreate =>
          rw [hcreate] at hadded hmiddle
          cases h
          exact ⟨hmiddle, .inr ⟨⟨_, rfl⟩, hadded⟩⟩
      · next middle hcreate =>
          rw [hcreate] at hadded hmiddle
          split at h
          · next written hwrite =>
              cases h
              obtain ⟨-, hafter, hcurrent⟩ := write_eq_ok (hadded.straight hstraight) hmiddle hwrite
              refine ⟨hcurrent, .inl ⟨rfl, ?_, ?_, ?_, ?_⟩⟩
              · intro hsink
                have hmiddleSink := fun h => hsink ((hadded.adds h).resolve_right (by simp))
                rw [hafter, if_pos ⟨rfl, hmiddleSink⟩]
              · intro hsink
                rw [hafter, if_neg (by simp [hadded.keeps hsink])]
                exact hadded.keeps hsink
              · intro other entry hother hentry
                rw [hafter, if_neg (by simp [hother])]
                exact hadded.keeps hentry
              · intro other entry hother hentry
                rw [hafter, if_neg (by simp [hother])] at hentry
                exact hadded.adds hentry
          · cases h
            exact ⟨hmiddle, .inr ⟨⟨_, rfl⟩, hadded⟩⟩

end FileSystem

end Snapshot
