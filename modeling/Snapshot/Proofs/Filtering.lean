import Snapshot.Filter.Lemmas
import Snapshot.Proofs.Refusals
import Snapshot.Text.Utf8Lemmas

/-!
# Filtering files

A file is read as bytes, a line at a time, while `filterText` is given a text as a whole. What
becomes of a line, `LineFilter.actions`, does not depend on which of them feeds it: both keep the
lines that are emitted and fail as the filter does. So filtering a file is filtering its text, if it
is the encoding of one, and bytes that are no text are kept as they are. What is kept can be read
where it was written, unless the path leads to a sink.
-/

namespace Snapshot

/-! ## What becomes of the lines -/

/-- What becomes of each line when all of them are fed, up to the check at the end. -/
def LineFilter.actions (filter : LineFilter) : List (List Char) → Except FilterError (List Action)
  | [] => filter.finish.map fun _ => []
  | line :: rest =>
      match filter.feed line with
      | (_, .error error) => .error error
      | (next, .ok action) => (next.actions rest).map (action :: ·)

/-- What becomes of the lines of a file. A line is judged by its text. -/
def fileActions (version : Int64) (content : List UInt8) : Except FilterError (List Action) :=
  (LineFilter.start version).actions ((Text.lines 0x0A content).map Utf8.lossyText)

namespace Action

variable {α β : Type} {action : Action} {actions : List Action} {line : α} {lines : List α}

/-- The lines that are emitted, when this becomes of them. -/
def select (actions : List Action) (lines : List α) : List α :=
  ((actions.zip lines).filter (·.1 = .emit)).map Prod.snd

@[simp] theorem select_nil : select actions ([] : List α) = [] := by
  simp [select]

@[simp] theorem select_cons_emit :
    select (.emit :: actions) (line :: lines) = line :: select actions lines := by
  simp [select]

theorem select_cons_of_ne_emit (haction : action ≠ .emit) :
    select (action :: actions) (line :: lines) = select actions lines := by
  simp [select, haction]

theorem select_map (f : α → β) : select actions (lines.map f) = (select actions lines).map f := by
  induction lines generalizing actions with
  | nil => simp
  | cons line lines ih =>
      cases actions with
      | nil => rfl
      | cons action actions =>
          rw [List.map_cons]
          by_cases haction : action = .emit
          · rw [haction, select_cons_emit, select_cons_emit, ih, List.map_cons]
          · rw [select_cons_of_ne_emit haction, select_cons_of_ne_emit haction, ih]

theorem mem_of_mem_select (h : line ∈ select actions lines) : line ∈ lines := by
  obtain ⟨⟨action, kept⟩, hmem, rfl⟩ := List.mem_map.1 h
  exact (List.of_mem_zip (List.mem_filter.1 hmem).1).2

theorem select_eq_nil_iff (hlength : actions.length = lines.length) :
    select actions lines = [] ↔ .emit ∉ actions := by
  induction lines generalizing actions with
  | nil =>
      obtain rfl := List.eq_nil_of_length_eq_zero hlength
      simp
  | cons line lines ih =>
      cases actions with
      | nil => cases hlength
      | cons action actions =>
          by_cases haction : action = .emit
          · simp [haction]
          · rw [select_cons_of_ne_emit haction, ih (Nat.succ.inj hlength)]
            simp [Ne.symm haction]

end Action

namespace LineFilter

variable {filter : LineFilter} {lines : List (List Char)} {actions : List Action}

/-- One thing becomes of each line. -/
theorem length_of_actions (h : filter.actions lines = .ok actions) :
    actions.length = lines.length := by
  induction lines generalizing filter actions with
  | nil =>
      unfold LineFilter.actions at h
      cases hfinish : filter.finish with
      | error error => simp [hfinish, Except.map] at h
      | ok _ =>
          obtain rfl : [] = actions := by simpa [hfinish, Except.map] using h
          rfl
  | cons line rest ih =>
      unfold LineFilter.actions at h
      split at h
      · cases h
      · next next action hfeed =>
          cases hrest : next.actions rest with
          | error error => simp [hrest, Except.map] at h
          | ok others =>
              obtain rfl : action :: others = actions := by simpa [hrest, Except.map] using h
              rw [List.length_cons, List.length_cons, ih hrest]

/-- The lines of a text that are emitted. -/
theorem emitted_eq_select (filter : LineFilter) (lines : List (List Char)) :
    filter.emitted lines = (filter.actions lines).map (Action.select · lines) := by
  induction lines generalizing filter with
  | nil =>
      rw [emitted, LineFilter.actions]
      cases filter.finish with
      | error error => rfl
      | ok _ => rfl
  | cons line rest ih =>
      rw [emitted, LineFilter.actions]
      rcases filter.feed line with ⟨next, error | action⟩
      · rfl
      · cases hrest : next.actions rest with
        | error error => cases action <;> simp [ih, hrest, Except.map]
        | ok others => cases action <;> simp [ih, hrest, Except.map, Action.select_cons_of_ne_emit]

/-- The lines of a file that are emitted. -/
theorem emittedLines_eq_select (filter : LineFilter) (lines : List (List UInt8)) :
    filter.emittedLines lines =
      (filter.actions (lines.map Utf8.lossyText)).map (Action.select · lines) := by
  induction lines generalizing filter with
  | nil =>
      rw [emittedLines, List.map_nil, LineFilter.actions]
      cases filter.finish with
      | error error => rfl
      | ok _ => rfl
  | cons line rest ih =>
      rw [emittedLines, List.map_cons, LineFilter.actions]
      rcases filter.feed (Utf8.lossyText line) with ⟨next, error | action⟩
      · rfl
      · cases hrest : next.actions (rest.map Utf8.lossyText) with
        | error error => cases action <;> simp [ih, hrest, Except.map]
        | ok others => cases action <;> simp [ih, hrest, Except.map, Action.select_cons_of_ne_emit]

end LineFilter

/-! ## Files that are texts -/

/-- The encoding of a text has the encodings of its lines. -/
theorem Utf8.lines_encode (text : List Char) :
    Text.lines 0x0A (encode text) = (Text.lines '\n' text).map encode := by
  induction text with
  | nil => rfl
  | cons c text ih =>
      by_cases hc : c = '\n'
      · subst hc
        have hbytes : String.utf8EncodeChar '\n' = [0x0A] := rfl
        rw [encode_cons, hbytes, List.singleton_append, Text.lines, if_pos rfl, ih, Text.lines,
          if_pos rfl]
        rfl
      · rw [encode_cons, Text.lines_append_of_not_mem String.utf8EncodeChar_ne_nil
          (newline_not_mem_utf8EncodeChar hc), ih, Text.lines, if_neg hc]
        cases Text.lines '\n' text with
        | nil => simp
        | cons line others => simp

/-- What is left of a text is what is left of the file that holds it. -/
theorem filterText_map_encode (version : Int64) (text : List Char) :
    (filterText version text).map Utf8.encode =
      (fileActions version (Utf8.encode text)).map fun actions =>
        (Action.select actions (Text.lines 0x0A (Utf8.encode text))).flatten := by
  have hlines : ((Text.lines '\n' text).map Utf8.encode).map Utf8.lossyText =
      Text.lines '\n' text := by
    simp [Function.comp_def]
  rw [filterText, fileActions, Utf8.lines_encode, hlines, LineFilter.emitted_eq_select]
  cases (LineFilter.start version).actions (Text.lines '\n' text) with
  | error error => rfl
  | ok actions => simp [Except.map, Action.select_map, Utf8.flatten_map_encode]

/-! ## Reading what was written -/

namespace FileSystem

open FileTree

variable {fs after : FileSystem} {path : Path} {hops : List Hop} {here location : Location}
  {links : Nat} {ending other : Ending} {spot found : Spot} {content : List UInt8}

/-- Where a file has been put, the hops that led there lead to it. -/
theorem Retains.walk_put (h : after.Retains fs)
    (hspot : spot = .free location ∨ ∃ old, spot = .taken location (.file old))
    (hput : after.tree.get? location = some (.file content))
    (hwalk : fs.tree.walk .follow links here hops = .ok spot) :
    after.tree.walk .follow links here hops = .ok (.taken location (.file content)) := by
  induction links, here, hops using walk_induction with
  | nil links here =>
      rw [walk_nil] at hwalk
      cases hwalk
      simp at hspot
  | step links here hop rest hhop ih =>
      rw [walk_step hhop] at hwalk ⊢
      exact ih hwalk
  | into links here name rest ih ihLink =>
      rcases walk_into_eq_ok hwalk with
        ⟨hdirectory, hrest⟩ | ⟨target, fewer, hlink, -, rfl, hrest⟩ | ⟨rfl, hend⟩
      · rw [walk_into_directory (by simp) (by simp [Ending.admits]) (h.directories hdirectory)]
        exact ih hrest
      · rw [walk_into_link (by simp) (by simp [Ending.admits]) (h.links.2 hlink) (.inr (by simp))]
        exact ihLink fewer rfl target hrest
      · -- the last name is that of the file
        have hplace : here ++ [name] = location := by
          rcases hend with ⟨entry, -, -, -, rfl⟩ | ⟨-, rfl⟩
          · rcases hspot with heq | ⟨old, heq⟩
            · cases heq
            · exact (Spot.taken.inj heq).1
          · simpa using hspot
        have hsize := (isName_of_get? (hplace ▸ hput)).size_le
        rw [walk_into, if_neg (by simp), if_neg (by simp [Nat.not_lt.2 hsize, Ending.admits]),
          hplace, hput]
        rfl

/-- A path is followed as the walks from the directories go that it can start in. -/
theorem reach_of_walks (hcurrent : after.current = fs.current)
    (haccepts : path.Acceptable ending → path.Acceptable other)
    (hwalks : ∀ here hops, fs.tree.walk ending linkLimit here hops = .ok spot →
      after.tree.walk other linkLimit here hops = .ok found)
    (hspot : spot ≠ .removed) (h : fs.reach ending path hops = .ok spot) :
    after.reach other path hops = .ok found := by
  obtain ⟨haccepted, hwalk⟩ := reach_eq_ok_iff.1 h
  refine reach_eq_ok_iff.2 ⟨haccepts haccepted, ?_⟩
  rw [hcurrent]
  split at hwalk
  · next habsolute =>
      rw [if_pos habsolute]
      exact hwalks _ _ hwalk
  · next habsolute =>
      rw [if_neg habsolute]
      rcases hwalk with ⟨rest, hleave, hwalk⟩ | ⟨-, hremoved⟩
      · exact .inl ⟨rest, hleave, hwalks _ _ hwalk⟩
      · exact absurd hremoved hspot

/-- Where a path leads for writing, it leads for reading. -/
theorem locate_follow_of_write (hspot : spot ≠ .removed) (h : fs.locate .write path = .ok spot) :
    fs.locate .follow path = .ok spot :=
  reach_of_walks rfl (fun haccepted => ⟨haccepted.nulFree, haccepted.nonempty,
    .inr (haccepted.size_le.resolve_left (by simp))⟩)
    (fun _ _ => walk_follow_of_ok (by simp)) hspot h

theorem Retains.open?_of_put (h : after.Retains fs)
    (hspot : spot = .free location ∨ ∃ old, spot = .taken location (.file old))
    (hput : after.tree.get? location = some (.file content))
    (hlocate : fs.locate .write path = .ok spot) : after.open? path = .ok (.ok content) := by
  have hthere : spot ≠ .removed := by
    rcases hspot with rfl | ⟨old, rfl⟩
    · simp
    · simp
  have hfollow : after.locate .follow path = .ok (.taken location (.file content)) :=
    reach_of_walks h.current id (fun _ _ => h.walk_put hspot hput) hthere
      (locate_follow_of_write hthere hlocate)
  simp [open?, entryAt, hfollow, Except.bind, Spot.entry?]

/-- What is written can be read, unless a sink has swallowed it. -/
theorem open?_of_write (h : fs.write path content = .ok after) :
    after.open? path = .ok (.ok content) ∨ after.entryAt .follow path = .ok .sink := by
  have hretains := Retains.write h
  unfold write at h
  cases hlocate : fs.locate .write path with
  | error fault => simp [hlocate, Except.bind] at h
  | ok spot =>
      rw [hlocate] at h
      have hholds := get?_of_reach hlocate
      cases spot with
      | removed => cases h
      | free location =>
          have hput : fs.put (.free location) (.file content) = .ok after := h
          obtain ⟨place, hplace, hget, -⟩ := put_eq_ok hput
          obtain rfl := Spot.free.inj hplace
          exact .inl (hretains.open?_of_put (.inl rfl) (by rw [hget, if_pos rfl]) hlocate)
      | taken location entry =>
          cases entry with
          | directory | link target | socket => cases h
          | sink =>
              obtain rfl : fs = after := Except.ok.inj h
              have hfollow := locate_follow_of_write (by simp) hlocate
              exact .inr (by simp [entryAt, hfollow, Except.bind, Spot.entry?])
          | file old =>
              obtain rfl : fs.withTree (fs.tree.setContent location content) = after :=
                Except.ok.inj h
              have hfile : fs.tree.get? location = some (.file old) := by simpa using hholds
              refine .inl (hretains.open?_of_put (.inr ⟨old, rfl⟩) ?_ hlocate)
              rw [withTree, get?_setContent, if_pos rfl, hfile]
              rfl

end FileSystem

/-! ## Copying a file -/

/-- Copies a file, from opening it to writing what was kept of it. -/
def FileCopy.run (fs : FileSystem) (input output : Path) (name : String) (version : Int64) :
    FileSystem × Except Report Bool :=
  match open? fs input output name with
  | .error report => (fs, .error report)
  | .ok copy =>
      match copy.filtered version with
      | .error report => (fs, .error report)
      | .ok done => done.finish fs

namespace ExportM

variable {α β : Type} (session : Session)

theorem query_bind (answer : FileSystem → Except Report α) (next : α → ExportM β) :
    (query answer >>= next) session =
      match answer session.fileSystem with
      | .ok a => next a session
      | .error report => .error report session := by
  change EStateM.bind (query answer) next session = _
  unfold EStateM.bind query
  cases answer session.fileSystem with
  | error report => rfl
  | ok a => rfl

theorem modify_bind (update : Session → Session) (next : Unit → ExportM β) :
    (modify update >>= next) session = next () (update session) := rfl

end ExportM

/-- A file of the project is copied in this way. -/
theorem Export.copyFile_eq_run (job : Export) (path : Path) (session : Session) :
    ∃ inputs, job.copyFile path session =
      match FileCopy.run session.fileSystem (job.pathOf path) (job.targetOf path) path.text
          job.config.version with
      | (after, .ok written) => .ok written { session with fileSystem := after, inputs }
      | (after, .error report) => .error report { session with fileSystem := after, inputs } := by
  unfold FileCopy.run copyFile
  rw [ExportM.query_bind]
  cases hopen : FileCopy.open? session.fileSystem (job.pathOf path) (job.targetOf path)
      path.text with
  | error report => exact ⟨session.inputs, rfl⟩
  | ok copy =>
      refine ⟨session.inputs ++ [{ path, content := copy.unread.map List.flatten }], ?_⟩
      dsimp only
      rw [ExportM.modify_bind, ExportM.query_bind]
      cases hfiltered : copy.filtered job.config.version with
      | error report => rfl
      | ok done =>
          dsimp only
          unfold ExportM.change
          dsimp only
          rcases done.finish session.fileSystem with ⟨after, report | written⟩
          · rfl
          · rfl

/-- The bytes of the lines of a file that are emitted. -/
def emittedBytes (actions : List Action) (content : List UInt8) : List UInt8 :=
  (Action.select actions (Text.lines 0x0A content)).flatten

/-- The line that has been reached when an error is noticed, in a file of so many lines. -/
def FilterError.noticedAt (count : Nat) : FilterError → Nat
  | .unbalancedEndif line => line
  | .unclosedEndif _ => count

/-- The report is about a file that was at the given stage of being copied. -/
def Report.AtStage (report : Report) (stage : FileStage) : Prop :=
  ∃ name line, report.contexts.head? = some (.file stage name line)

theorem Report.AtStage.unique {report : Report} {stage other : FileStage}
    (h : report.AtStage stage) (hother : report.AtStage other) : stage = other := by
  obtain ⟨name, line, hfirst⟩ := h
  obtain ⟨name', line', hfirst'⟩ := hother
  rw [hfirst] at hfirst'
  cases hfirst'
  rfl

/-- The requests to save a file, first for the directory that is to hold it, go well. -/
def FileSystem.Saves (fs : FileSystem) (output : Path) (content : List UInt8)
    (after : FileSystem) : Prop :=
  ∃ middle, (output.parent? = none ∧ middle = fs ∨
      ∃ parent, output.parent? = some parent ∧ fs.createDirectories parent = (middle, .ok ())) ∧
    middle.write output content = .ok after

theorem emittedBytes_eq_nil_iff {version : Int64} {content : List UInt8} {actions : List Action}
    (h : fileActions version content = .ok actions) :
    emittedBytes actions content = [] ↔ .emit ∉ actions := by
  have hlength : actions.length = (Text.lines 0x0A content).length := by
    rw [LineFilter.length_of_actions h, List.length_map]
  rw [emittedBytes, List.flatten_eq_nil_iff, ← Action.select_eq_nil_iff hlength]
  constructor
  · intro hempty
    refine List.eq_nil_iff_forall_not_mem.2 fun line hline => ?_
    exact Text.ne_nil_of_mem_lines (Action.mem_of_mem_select hline) (hempty line hline)
  · intro hnone line hline
    rw [hnone] at hline
    cases hline

namespace FileCopy

variable {copy done : FileCopy} {fs after : FileSystem} {filter : LineFilter}
  {lines : List (List UInt8)} {actions : List Action} {error : FilterError} {report : Report}

/-- Reading lines fails as feeding them does, at the line that has been reached. The lines that the
filter has counted are those that have been read. -/
theorem filterLines_of_actions_eq_error (hline : copy.line = filter.line)
    (h : filter.actions (lines.map Utf8.lossyText) = .error error) :
    copy.filterLines filter lines =
      .error ((Report.of (.filter error)).within
        (.file .filtering copy.name (error.noticedAt (copy.line + lines.length)))) := by
  induction lines generalizing copy filter with
  | nil =>
      rw [List.map_nil, LineFilter.actions] at h
      unfold LineFilter.finish at h
      split at h
      · cases h
      · next innermost outer hopen =>
          obtain rfl : FilterError.unclosedEndif innermost.line = error := Except.error.inj h
          simp only [filterLines, LineFilter.finish, hopen]
          rfl
  | cons line rest ih =>
      rw [List.map_cons, LineFilter.actions] at h
      rw [filterLines]
      have hcount : copy.line + (line :: rest).length = (copy.advance rest).line + rest.length := by
        simp only [advance, List.length_cons]
        omega
      split at h
      · next next refused hfeed =>
          -- this line is refused
          obtain rfl : refused = error := Except.error.inj h
          obtain rfl := LineFilter.eq_of_feed_eq_error hfeed
          rw [hfeed, ← hline]
          rfl
      · next next action hfeed =>
          -- a later one is
          have hrest : next.actions (rest.map Utf8.lossyText) = .error error := by
            cases hrest : next.actions (rest.map Utf8.lossyText) with
            | error _ => simpa [hrest, Except.map] using h
            | ok _ => simp [hrest, Except.map] at h
          have hnext : (copy.advance rest).line = next.line := by
            have hcounted : (filter.feed (Utf8.lossyText line)).1.line = filter.line + 1 :=
              LineFilter.line_feed
            rw [hfeed] at hcounted
            rw [hcounted, ← hline, advance]
          rw [hfeed, hcount]
          cases action with
          | emit => exact ih hnext hrest
          | drop | marker => exact ih hnext hrest

/-- If no line is refused, those that are emitted are kept. -/
theorem filterLines_of_actions_eq_ok (copy : FileCopy)
    (h : filter.actions (lines.map Utf8.lossyText) = .ok actions) :
    ∃ done, copy.filterLines filter lines = .ok done ∧
      done.content = copy.content ++ (Action.select actions lines).flatten ∧
      done.output = copy.output := by
  have hemitted : filter.emittedLines lines = .ok (Action.select actions lines) := by
    rw [LineFilter.emittedLines_eq_select, h]
    rfl
  cases hdone : copy.filterLines filter lines with
  | error report =>
      obtain ⟨error, line, herror, -⟩ := filterLines_eq_error hdone
      rw [hemitted] at herror
      cases herror
  | ok done =>
      obtain ⟨out, hout, hcontent, houtput⟩ := filterLines_eq_ok hdone
      rw [hemitted] at hout
      cases hout
      exact ⟨done, rfl, hcontent, houtput⟩

theorem createOutputDirectory_eq_ok_or :
    copy.createOutputDirectory fs = (after, .ok ()) ↔
      copy.output.parent? = none ∧ after = fs ∨
        ∃ parent, copy.output.parent? = some parent ∧
          fs.createDirectories parent = (after, .ok ()) := by
  cases hparent : copy.output.parent? with
  | none => simp [createOutputDirectory, hparent, eq_comm]
  | some parent => simp [createOutputDirectory_eq_ok_iff hparent]

/-- What was kept is written exactly if the requests to save it go well. -/
theorem finish_eq_ok_true_iff (hcontent : copy.content ≠ []) :
    copy.finish fs = (after, .ok true) ↔ fs.Saves copy.output copy.content after := by
  simp [finish_eq_ok_iff, FileSystem.Saves, createOutputDirectory_eq_ok_or, hcontent]

theorem atStage_writing_of_finish (h : copy.finish fs = (after, .error report)) :
    report.AtStage .writing := by
  obtain ⟨fault, hcontexts⟩ := contexts_of_finish h
  exact ⟨copy.name, copy.line, by rw [hcontexts]; rfl⟩

theorem exists_finish_eq_error (hcontent : copy.content ≠ [])
    (hunsaved : ∀ after, ¬fs.Saves copy.output copy.content after) :
    ∃ report, (copy.finish fs).2 = .error report ∧ report.AtStage .writing := by
  cases hfinish : copy.finish fs with
  | mk after outcome =>
      cases outcome with
      | error report => exact ⟨report, rfl, atStage_writing_of_finish hfinish⟩
      | ok written =>
          rcases finish_eq_ok_iff.1 hfinish with ⟨-, hempty, -⟩ | ⟨rfl, -, -⟩
          · exact absurd hempty hcontent
          · exact absurd ((finish_eq_ok_true_iff hcontent).1 hfinish) (hunsaved after)

/-- A file of which nothing has been read. -/
def opened (output : Path) (name : String) (content : List UInt8) : FileCopy where
  name
  output
  unread := .ok (Text.lines 0x0A content)

section Run

variable {input output : Path} {name : String} {version : Int64} {content : List UInt8}

theorem run_eq_filterLines (hinput : fs.open? input = .ok (.ok content)) :
    run fs input output name version =
      match (opened output name content).filterLines (.start version)
          (Text.lines 0x0A content) with
      | .error report => (fs, .error report)
      | .ok done => done.finish fs := by
  rw [run, open?, hinput]
  rfl

theorem run_of_fileActions_eq_error (hinput : fs.open? input = .ok (.ok content))
    (h : fileActions version content = .error error) :
    run fs input output name version = (fs, .error ((Report.of (.filter error)).within
      (.file .filtering name (error.noticedAt (Text.lines 0x0A content).length)))) := by
  rw [run_eq_filterLines hinput, filterLines_of_actions_eq_error rfl h]
  simp [opened]

/-- Otherwise what is emitted is kept, and it is nothing if no line is. -/
theorem exists_run_eq_finish (hinput : fs.open? input = .ok (.ok content))
    (h : fileActions version content = .ok actions) :
    ∃ done : FileCopy, done.content = emittedBytes actions content ∧ done.output = output ∧
      (done.content = [] ↔ .emit ∉ actions) ∧
      run fs input output name version = done.finish fs := by
  obtain ⟨done, hdone, hcontent, houtput⟩ :=
    filterLines_of_actions_eq_ok (opened output name content) h
  refine ⟨done, hcontent, houtput, ?_, ?_⟩
  · rw [← emittedBytes_eq_nil_iff h]
    exact iff_of_eq (congrArg (· = []) hcontent)
  · rw [run_eq_filterLines hinput, hdone]

end Run

/-- How copying a file ends, as what becomes of its lines and the requests to save it settle it. -/
structure Refines (fs : FileSystem) (output : Path) (name : String) (version : Int64)
    (content : List UInt8) (result : FileSystem × Except Report Bool) : Prop where
  atStage_filtering_iff : (∃ report, result.2 = .error report ∧ report.AtStage .filtering) ↔
    ∃ error, fileActions version content = .error error
  refused : ∀ error, fileActions version content = .error error →
    result = (fs, .error ((Report.of (.filter error)).within
      (.file .filtering name (error.noticedAt (Text.lines 0x0A content).length))))
  skipped : ∀ actions, fileActions version content = .ok actions → .emit ∉ actions →
    result = (fs, .ok false)
  saved : ∀ actions after, fileActions version content = .ok actions → .emit ∈ actions →
    fs.Saves output (emittedBytes actions content) after → result = (after, .ok true) ∧
      (after.open? output = .ok (.ok (emittedBytes actions content)) ∨
        after.entryAt .follow output = .ok .sink)
  unsaved : ∀ actions, fileActions version content = .ok actions → .emit ∈ actions →
    (∀ after, ¬fs.Saves output (emittedBytes actions content) after) →
      ∃ report, result.2 = .error report ∧ report.AtStage .writing
  text : ∀ text, content = Utf8.encode text →
    (filterText version text).map Utf8.encode =
      (fileActions version content).map (emittedBytes · content)

/-- Copying a file keeps what filtering the text of its lines emits, and fails where that fails.
What has been saved can be read, if no sink has swallowed it. -/
theorem run_refines {input : Path} {content : List UInt8}
    (hinput : fs.open? input = .ok (.ok content)) (output : Path) (name : String)
    (version : Int64) :
    Refines fs output name version content (run fs input output name version) where
  atStage_filtering_iff := by
    constructor
    · rintro ⟨report, hreport, hfiltering⟩
      cases hfed : fileActions version content with
      | error error => exact ⟨error, rfl⟩
      | ok actions =>
          obtain ⟨done, -, -, -, hrun⟩ := exists_run_eq_finish hinput hfed
          rw [hrun] at hreport
          have hwriting : report.AtStage .writing :=
            atStage_writing_of_finish (Prod.ext rfl hreport)
          cases hfiltering.unique hwriting
    · rintro ⟨error, herror⟩
      rw [run_of_fileActions_eq_error hinput herror]
      exact ⟨_, rfl, _, _, rfl⟩
  refused error herror := run_of_fileActions_eq_error hinput herror
  skipped actions hactions hnone := by
    obtain ⟨done, -, -, hnil, hrun⟩ := exists_run_eq_finish hinput hactions
    exact hrun.trans (finish_eq_ok_iff.2 (.inl ⟨rfl, hnil.2 hnone, rfl⟩))
  saved actions after hactions hemit hsaves := by
    obtain ⟨done, hcontent, houtput, hnil, hrun⟩ := exists_run_eq_finish hinput hactions
    rw [hrun]
    constructor
    · apply (finish_eq_ok_true_iff fun hempty => hnil.1 hempty hemit).2
      rwa [houtput, hcontent]
    · obtain ⟨middle, -, hwrite⟩ := hsaves
      exact FileSystem.open?_of_write hwrite
  unsaved actions hactions hemit hunsaved := by
    obtain ⟨done, hcontent, houtput, hnil, hrun⟩ := exists_run_eq_finish hinput hactions
    rw [hrun]
    apply exists_finish_eq_error fun hempty => hnil.1 hempty hemit
    rwa [houtput, hcontent]
  text text htext := by
    rw [htext]
    exact filterText_map_encode version text

/-- The text of a file of which one line is not emitted below version two. -/
def guardedFile : List UInt8 :=
  Utf8.encode "#if VERSION>1\nx\n#endif VERSION\ny\n".toList

/-- The file beside a sink. -/
def besideSink : FileSystem :=
  .ofTree
    { entries :=
        [(.ofString "a.c", .file guardedFile), (.ofString "dev/null", .sink),
          (.ofString "dev", .directory)]
      wellFormed := ⟨by decide +kernel, by decide +kernel, by decide +kernel, by decide +kernel⟩ }
    []

theorem run_refines_besideSink :
    besideSink.open? (.ofString "a.c") = .ok (.ok guardedFile) ∧
      fileActions 1 guardedFile = .ok [.marker, .drop, .marker, .emit] ∧
      Refines besideSink (.ofString "out/a.c") "a.c" 1 guardedFile
        (run besideSink (.ofString "a.c") (.ofString "out/a.c") "a.c" 1) :=
  have hinput : besideSink.open? (.ofString "a.c") = .ok (.ok guardedFile) :=
    eq_ok_of_toOption (by decide +kernel)
  ⟨hinput, eq_ok_of_toOption (by decide +kernel), run_refines hinput _ _ _⟩

/-- What is written to a sink cannot be read there. -/
theorem open?_run_sink :
    besideSink.open? (.ofString "a.c") = .ok (.ok guardedFile) ∧
      fileActions 1 guardedFile = .ok [.marker, .drop, .marker, .emit] ∧
      emittedBytes [.marker, .drop, .marker, .emit] guardedFile = [0x79, 0x0A] ∧
      (run besideSink (.ofString "a.c") (.ofString "dev/null") "a.c" 1).2 = .ok true ∧
      (run besideSink (.ofString "a.c") (.ofString "dev/null") "a.c" 1).1.open?
        (.ofString "dev/null") = .ok (.ok []) :=
  ⟨eq_ok_of_toOption (by decide +kernel), eq_ok_of_toOption (by decide +kernel),
    by decide +kernel, eq_ok_of_toOption (by decide +kernel),
    eq_ok_of_toOption (by decide +kernel)⟩

end FileCopy

end Snapshot
