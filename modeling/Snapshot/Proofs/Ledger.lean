import Snapshot.Proofs.Reached
import Snapshot.Proofs.Refusals

/-!
# The ledger of an export

Into a fresh destination an export puts entries one after the other, and the directories above them
come by themselves. What stands there at any moment is then known from the entries that were put,
and these from the directories and files that were visited: the ledger. It also fixes the counts.
The project is read while the destination grows, but as they are apart it does not change.
-/

namespace Snapshot

open ExportM FileTree

/-! ## Putting entries -/

namespace FileTree

/-- An entry was put at a location, where directories above it may have been added. -/
structure Put (before after : FileTree) (location : Location) (entry : Entry) : Prop where
  put : after.get? location = some entry
  keeps : ∀ {other found}, other ≠ location → before.get? other = some found →
    after.get? other = some found
  adds : ∀ {other found}, other ≠ location → after.get? other = some found →
    before.get? other = some found ∨ (found = .directory ∧ other <+: location)

/-- What stands in a tree into which some entries were put: these, and directories above them. -/
def Leaves (puts : Location → Entry → Prop) (place : Location) (entry : Entry) : Prop :=
  puts place entry ∨ entry = .directory ∧ ∃ below put, puts below put ∧ place <+: below ∧
    place ≠ below

variable {before after : FileTree} {location target place other : Location} {entry : Entry}
  {puts more : Location → Entry → Prop}

theorem DirectoriesAdded.put (h : before.DirectoriesAdded after (· <+: location))
    (hdirectory : after.get? location = some .directory) :
    before.Put after location .directory where
  put := hdirectory
  keeps _ := h.keeps
  adds _ := h.adds

theorem FileWritten.put {content : List UInt8} (h : before.FileWritten after location content)
    (hsink : before.get? location ≠ some .sink) : before.Put after location (.file content) where
  put := h.written hsink
  keeps := h.keeps
  adds := h.adds

/-- Nothing changes that is neither below the target nor above it. -/
theorem Put.get?_of_apart (h : before.Put after (target ++ place) entry)
    (hother : target.Apart other) : after.get? other = before.get? other := by
  have hne : other ≠ target ++ place := by
    rintro rfl
    exact hother.not_below (List.prefix_append _ _)
  cases hbefore : before.get? other with
  | some found => exact h.keeps hne hbefore
  | none =>
      cases hafter : after.get? other with
      | none => rfl
      | some found =>
          rcases h.adds hne hafter with hold | ⟨-, habove⟩
          · simp [hbefore] at hold
          · exact absurd habove (hother.not_prefix_append place)

/-- A directory stands above whatever stands in a tree. -/
theorem get?_eq_directory {tree : FileTree} (h : tree.get? location = some entry)
    (habove : place <+: location) (hne : place ≠ location) :
    tree.get? place = some .directory := by
  obtain ⟨below, rfl⟩ := habove
  cases below with
  | nil => exact absurd (List.append_nil _).symm hne
  | cons name below => exact get?_of_get?_append h

/-- The entries in a target are still known after one more was put, if it agrees with one that was
put at the same place, and nothing was put below it unless it is a directory. -/
theorem Leaves.put (hput : before.Put after (target ++ place) entry)
    (hbefore : ∀ other found, before.get? (target ++ other) = some found ↔ Leaves puts other found)
    (hmore : ∀ other found, more other found ↔ puts other found ∨ (other = place ∧ found = entry))
    (hagrees : ∀ found, puts place found → found = entry)
    (hfree : entry = .directory ∨ ∀ below found, puts below found → place <+: below →
      place = below)
    (other : Location) (found : Entry) :
    after.get? (target ++ other) = some found ↔ Leaves more other found := by
  have hplace : target ++ other ≠ target ++ place ↔ other ≠ place := by simp
  constructor
  · intro hafter
    by_cases heq : other = place
    · subst heq
      rw [hput.put] at hafter
      exact .inl ((hmore _ _).2 (.inr ⟨rfl, (Option.some.inj hafter).symm⟩))
    · rcases hput.adds (hplace.2 heq) hafter with hold | ⟨rfl, habove⟩
      · rcases (hbefore _ _).1 hold with hputs | ⟨rfl, below, put, hputs, habove⟩
        · exact .inl ((hmore _ _).2 (.inl hputs))
        · exact .inr ⟨rfl, below, put, (hmore _ _).2 (.inl hputs), habove⟩
      · have habove : other <+: place := (List.prefix_append_right_inj target).1 habove
        exact .inr ⟨rfl, place, entry, (hmore _ _).2 (.inr ⟨rfl, rfl⟩), habove, heq⟩
  · intro hleaves
    by_cases hlast : other = place ∧ found = entry
    · rw [hlast.1, hlast.2]
      exact hput.put
    · -- an entry of the old ledger, or a directory above the new entry
      have hold : Leaves puts other found ∨ (found = .directory ∧ other <+: place ∧
          other ≠ place) := by
        rcases hleaves with hputs | ⟨rfl, below, put, hputs, habove, hne⟩
        · exact .inl (.inl (((hmore _ _).1 hputs).resolve_right hlast))
        · rcases (hmore _ _).1 hputs with hputs | ⟨rfl, -⟩
          · exact .inl (.inr ⟨rfl, below, put, hputs, habove, hne⟩)
          · exact .inr ⟨rfl, habove, hne⟩
      rcases hold with hold | ⟨rfl, habove, hne⟩
      · have hne : other ≠ place := by
          rintro rfl
          rcases hold with hputs | ⟨rfl, below, put, hputs, habove, hne⟩
          · exact hlast ⟨rfl, hagrees _ hputs⟩
          · rcases hfree with rfl | hfree
            · exact hlast ⟨rfl, rfl⟩
            · exact hne (hfree _ _ hputs habove)
        exact hput.keeps (hplace.2 hne) ((hbefore _ _).2 hold)
      · exact get?_eq_directory hput.put ((List.prefix_append_right_inj target).2 habove)
          (hplace.2 hne)

end FileTree

/-! ## Ledgers -/

/-- What an export has done with directories, files and roots. Places are those in the destination.
-/
structure Ledger where
  /-- The files that were visited, with what was left of them. -/
  visited : List (Location × List UInt8) := []
  directories : List Location := []
  missing : List Path := []

namespace Ledger

instance : Append Ledger where
  append first second :=
    { visited := first.visited ++ second.visited
      directories := first.directories ++ second.directories
      missing := first.missing ++ second.missing }

variable {first second ledger : Ledger} {place : Location} {entry : Entry} {out : List UInt8}

@[simp] theorem visited_append : (first ++ second).visited = first.visited ++ second.visited := rfl

@[simp] theorem directories_append :
    (first ++ second).directories = first.directories ++ second.directories := rfl

@[simp] theorem missing_append : (first ++ second).missing = first.missing ++ second.missing := rfl

theorem append_assoc (first second third : Ledger) :
    first ++ second ++ third = first ++ (second ++ third) := by
  change Ledger.mk _ _ _ = Ledger.mk _ _ _
  simp

theorem append_empty (ledger : Ledger) : ledger ++ {} = ledger := by
  change Ledger.mk _ _ _ = ledger
  simp

/-- The entries that were put into the destination, which is there from the start. -/
def Puts (ledger : Ledger) (place : Location) (entry : Entry) : Prop :=
  (place = [] ∨ place ∈ ledger.directories) ∧ entry = .directory ∨
    ∃ out, (place, out) ∈ ledger.visited ∧ out ≠ [] ∧ entry = .file out

def summary (ledger : Ledger) : Summary where
  written := (ledger.visited.filter fun visit => visit.2 ≠ []).length
  skipped := (ledger.visited.filter fun visit => visit.2 = []).length
  missingRoots := ledger.missing

theorem puts_append :
    (first ++ second).Puts place entry ↔ first.Puts place entry ∨ second.Puts place entry := by
  simp only [Puts, visited_append, directories_append, List.mem_append]
  constructor
  · rintro (⟨hplace | hplace | hplace, rfl⟩ | ⟨out, hplace | hplace, hout⟩)
    · exact .inl (.inl ⟨.inl hplace, rfl⟩)
    · exact .inl (.inl ⟨.inr hplace, rfl⟩)
    · exact .inr (.inl ⟨.inr hplace, rfl⟩)
    · exact .inl (.inr ⟨out, hplace, hout⟩)
    · exact .inr (.inr ⟨out, hplace, hout⟩)
  · rintro ((⟨hplace | hplace, rfl⟩ | ⟨out, hplace, hout⟩) |
      (⟨hplace | hplace, rfl⟩ | ⟨out, hplace, hout⟩))
    · exact .inl ⟨.inl hplace, rfl⟩
    · exact .inl ⟨.inr (.inl hplace), rfl⟩
    · exact .inr ⟨out, .inl hplace, hout⟩
    · exact .inl ⟨.inl hplace, rfl⟩
    · exact .inl ⟨.inr (.inr hplace), rfl⟩
    · exact .inr ⟨out, .inr hplace, hout⟩

theorem puts_append_directory {other : Location} {found : Entry} :
    (ledger ++ { directories := [place] }).Puts other found ↔
      ledger.Puts other found ∨ (other = place ∧ found = .directory) := by
  rw [puts_append]
  constructor
  · rintro (hputs | ⟨rfl | hplace, rfl⟩ | ⟨out, hmem, -⟩)
    · exact .inl hputs
    · exact .inl (.inl ⟨.inl rfl, rfl⟩)
    · exact .inr ⟨List.mem_singleton.1 hplace, rfl⟩
    · cases hmem
  · rintro (hputs | ⟨rfl, rfl⟩)
    · exact .inl hputs
    · exact .inr (.inl ⟨.inr List.mem_cons_self, rfl⟩)

theorem puts_append_visit {other : Location} {found : Entry} :
    (ledger ++ { visited := [(place, out)] }).Puts other found ↔
      ledger.Puts other found ∨ (out ≠ [] ∧ other = place ∧ found = .file out) := by
  rw [puts_append]
  constructor
  · rintro (hputs | ⟨rfl | hplace, rfl⟩ | ⟨left, hmem, hne, rfl⟩)
    · exact .inl hputs
    · exact .inl (.inl ⟨.inl rfl, rfl⟩)
    · cases hplace
    · obtain ⟨rfl, rfl⟩ := Prod.mk.inj (List.mem_singleton.1 hmem)
      exact .inr ⟨hne, rfl, rfl⟩
  · rintro (hputs | ⟨hne, rfl, rfl⟩)
    · exact .inl hputs
    · exact .inr (.inr ⟨out, List.mem_cons_self, hne, rfl⟩)

theorem puts_append_missing {roots : List Path} :
    (ledger ++ { missing := roots }).Puts = ledger.Puts := by
  funext place entry
  simp [Puts]

/-! ### What stands in the destination -/

theorem leaves_file_iff :
    Leaves ledger.Puts place (.file out) ↔ out ≠ [] ∧ (place, out) ∈ ledger.visited := by
  constructor
  · rintro ((⟨-, heq⟩ | ⟨other, hmem, hne, heq⟩) | ⟨heq, -⟩)
    · cases heq
    · cases heq
      exact ⟨hne, hmem⟩
    · cases heq
  · intro h
    obtain ⟨hne, hmem⟩ := h
    exact .inl (.inr ⟨out, hmem, hne, rfl⟩)

theorem leaves_directory_iff :
    Leaves ledger.Puts place .directory ↔ place = [] ∨ ∃ below, place <+: below ∧
      (below ∈ ledger.directories ∨
        place ≠ below ∧ ∃ out, out ≠ [] ∧ (below, out) ∈ ledger.visited) := by
  constructor
  · rintro ((⟨rfl | hmem, -⟩ | ⟨out, -, -, heq⟩) | ⟨-, below, put, hputs, habove, hne⟩)
    · exact .inl rfl
    · exact .inr ⟨place, List.prefix_rfl, .inl hmem⟩
    · cases heq
    · rcases hputs with ⟨rfl | hmem, -⟩ | ⟨out, hmem, hout, -⟩
      · exact .inl (List.prefix_nil.1 habove)
      · exact .inr ⟨below, habove, .inl hmem⟩
      · exact .inr ⟨below, habove, .inr ⟨hne, out, hout, hmem⟩⟩
  · rintro (rfl | ⟨below, habove, hmem | ⟨hne, out, hout, hmem⟩⟩)
    · exact .inl (.inl ⟨.inl rfl, rfl⟩)
    · by_cases heq : place = below
      · exact .inl (.inl ⟨.inr (heq ▸ hmem), rfl⟩)
      · exact .inr ⟨rfl, below, _, .inl ⟨.inr hmem, rfl⟩, habove, heq⟩
    · exact .inr ⟨rfl, below, _, .inr ⟨out, hmem, hout, rfl⟩, habove, hne⟩

theorem directory_or_file_of_leaves (h : Leaves ledger.Puts place entry) :
    entry = .directory ∨ ∃ out, entry = .file out := by
  rcases h with (⟨-, heq⟩ | ⟨out, -, -, heq⟩) | ⟨heq, -⟩
  · exact .inl heq
  · exact .inr ⟨out, heq⟩
  · exact .inl heq

theorem summary_append_visit :
    (ledger ++ { visited := [(place, out)] }).summary = ledger.summary.counting out := by
  by_cases hout : out = []
  · simp [summary, Summary.counting, hout]
  · simp [summary, Summary.counting, hout]

end Ledger

/-! ## Steps into a fresh destination -/

namespace Export

/-- What is left for the version of what stands at a place of the project. A sink reads as empty. -/
def Yields (job : Export) (source : FileTree) (place : Location) (out : List UInt8) : Prop :=
  ∃ content, (source.get? (job.base ++ place) = some (.file content) ∨
      source.get? (job.base ++ place) = some .sink ∧ content = []) ∧
    filterBytes job.config.version content = .ok out

/-- What a ledger has on record stands in the project. -/
structure Accords (job : Export) (source : FileTree) (ledger : Ledger) : Prop where
  visited : ∀ visit ∈ ledger.visited, visit.1 ≠ [] ∧ job.Yields source visit.1 visit.2
  directories : ∀ place ∈ ledger.directories,
    place ≠ [] ∧ source.get? (job.base ++ place) = some .directory

/-- A session of an export into a fresh destination of which everything is known. -/
structure Accounted (job : Export) (source : FileTree) (start : Location) (ledger : Ledger)
    (session : Session) : Prop where
  linkFree : session.fileSystem.tree.LinkFree
  current : session.fileSystem.current.IsLeftOf start
  sources : ∀ location, job.target.Apart location →
    session.fileSystem.tree.get? location = source.get? location
  contents : ∀ place entry, session.fileSystem.tree.get? (job.target ++ place) = some entry ↔
    Leaves ledger.Puts place entry
  accords : job.Accords source ledger
  summary : session.summary = ledger.summary

/-- A report that blames a file of the project, whose guards are not balanced. -/
def Blames (job : Export) (source : FileTree) (path : Path) (report : Report) : Prop :=
  ∃ content error line, source.get? (job.base ++ path.names) = some (.file content) ∧
    filterBytes job.config.version content = .error error ∧ report = .ofGuards path line error

variable {job : Export} {source : FileTree} {start place : Location} {ledger more : Ledger}
  {path : Path} {entry : Entry} {out other : List UInt8} {session : Session}

theorem Yields.unique (h : job.Yields source place out) (hother : job.Yields source place other) :
    out = other := by
  obtain ⟨content, hcontent, hout⟩ := h
  obtain ⟨found, hfound, hother⟩ := hother
  have hsame : content = found := by
    rcases hcontent with hfile | ⟨hsink, rfl⟩
    · rcases hfound with hfile' | ⟨hsink, -⟩
      · simpa [hfile] using hfile'
      · simp [hfile] at hsink
    · rcases hfound with hfile | ⟨-, rfl⟩
      · simp [hsink] at hfile
      · rfl
  rw [hsame, hother] at hout
  exact (Except.ok.inj hout).symm

theorem Yields.not_directory (h : job.Yields source place out) :
    source.get? (job.base ++ place) ≠ some .directory := by
  obtain ⟨content, hfile | ⟨hsink, -⟩, -⟩ := h
  · simp [hfile]
  · simp [hsink]

/-- What is left of a file depends on nothing but what stands there. -/
theorem yields_congr {tree : FileTree}
    (hsame : tree.get? (job.base ++ place) = source.get? (job.base ++ place)) :
    job.Yields tree place out ↔ job.Yields source place out := by
  rw [Yields, Yields, hsame]

theorem yields_of_open? {fs : FileSystem} (hlinks : fs.tree.LinkFree) (hbase : job.base.IsPlain)
    (hpath : path.GoesDown) {content : List UInt8}
    (hopen : fs.open? (job.pathOf path) = .ok (.ok content))
    (hout : filterBytes job.config.version content = .ok out) :
    job.Yields fs.tree path.names out := by
  obtain ⟨habsolute, hup, hnames⟩ := Project.pathOf_goesDown hbase hpath
  refine ⟨content, ?_, hout⟩
  rw [← hnames]
  exact (FileSystem.open?_eq_ok hlinks habsolute hup hopen).imp
    (fun hfile => hfile.get?) fun ⟨hsink, hempty⟩ => ⟨hsink.get?, hempty⟩

theorem Accords.append (h : job.Accords source ledger) (hmore : job.Accords source more) :
    job.Accords source (ledger ++ more) where
  visited visit hmem := (List.mem_append.1 hmem).elim (h.visited visit) (hmore.visited visit)
  directories place hmem :=
    (List.mem_append.1 hmem).elim (h.directories place) (hmore.directories place)

/-- What was put at a place of which the project has a directory is one, and what was put at a place
of which it has something else is what is left of that. -/
theorem Accords.of_puts (h : job.Accords source ledger) (hputs : ledger.Puts place entry)
    (hne : place ≠ []) :
    (entry = .directory ∧ source.get? (job.base ++ place) = some .directory) ∨
      ∃ out, entry = .file out ∧ job.Yields source place out := by
  rcases hputs with ⟨hplace, rfl⟩ | ⟨out, hmem, -, rfl⟩
  · exact .inl ⟨rfl, (h.directories place (hplace.resolve_left hne)).2⟩
  · exact .inr ⟨out, rfl, (h.visited _ hmem).2⟩

theorem Accords.exists_entry_of_puts (h : job.Accords source ledger)
    (hputs : ledger.Puts place entry) (hne : place ≠ []) :
    ∃ found, source.get? (job.base ++ place) = some found := by
  rcases h.of_puts hputs hne with ⟨-, hdirectory⟩ | ⟨out, -, content, hfile | ⟨hsink, -⟩, -⟩
  · exact ⟨_, hdirectory⟩
  · exact ⟨_, hfile⟩
  · exact ⟨_, hsink⟩

/-- No sink is ever put into the destination. -/
theorem Accounted.ne_sink (h : job.Accounted source start ledger session) (place : Location) :
    session.fileSystem.tree.get? (job.target ++ place) ≠ some .sink := by
  intro hsink
  rcases Ledger.directory_or_file_of_leaves ((h.contents _ _).1 hsink) with heq | ⟨out, heq⟩
  · cases heq
  · cases heq

/-- What is known of a session depends on its file system and its counts. -/
theorem Accounted.of_at {after : Session} (h : job.Accounted source start ledger session)
    (hafter : At session.fileSystem session.summary after) :
    job.Accounted source start ledger after := by
  obtain ⟨hfileSystem, hsummary⟩ := hafter
  exact ⟨hfileSystem ▸ h.linkFree, hfileSystem ▸ h.current, hfileSystem ▸ h.sources,
    hfileSystem ▸ h.contents, h.accords, hsummary.trans h.summary⟩

theorem say_accounted {status : Status} {failed : Report → Session → Prop} :
    Ensures (job.Accounted source start ledger) (say job.config status)
      (fun _ => job.Accounted source start ledger) failed :=
  ensures_say fun _ _ h => h.of_at ⟨rfl, rfl⟩

/-- Noting a root as missing changes the counts only. -/
theorem note_accounted (root : Path) {failed : Report → Session → Prop} :
    Ensures (job.Accounted source start ledger)
      (count fun summary => { summary with missingRoots := summary.missingRoots ++ [root] })
      (fun _ => job.Accounted source start (ledger ++ { missing := [root] })) failed := by
  refine ensures_count fun session h => ?_
  refine ⟨h.linkFree, h.current, h.sources, ?_, h.accords.append ⟨by simp, by simp⟩, ?_⟩
  · rw [Ledger.puts_append_missing]
    exact h.contents
  · rw [h.summary]
    simp [Ledger.summary]

section Steps

variable (hbase : job.base.IsPlain) (htarget : job.target.IsPlain) (hpath : path.GoesDown)
  (hne : path.names ≠ []) (hapart : job.target.Apart (job.base ++ path.names))

include htarget hpath hne in
theorem createTarget_accounted
    (hdirectory : source.get? (job.base ++ path.names) = some .directory) :
    Ensures (job.Accounted source start ledger) (job.createTarget path)
      (fun _ => job.Accounted source start (ledger ++ { directories := [path.names] }))
      fun report _ => ¬report.TellsOfGuards := by
  refine ensures_of_at fun session hsession => ?_
  have hstep : Ensures (At session.fileSystem session.summary) (job.createTarget path) _ _ :=
    createTarget_ensures hsession.linkFree.straight hsession.current htarget hpath
  refine (ignoresGuards_createTarget.ensures hstep fun _ _ h _ => h).mono_after ?_
  intro _ after hafter
  obtain ⟨hadded, hcreated, hcurrent, hsummary⟩ := hafter
  have hput := hadded.put hcreated
  have hagrees (found : Entry) (hputs : ledger.Puts path.names found) : found = .directory := by
    rcases hsession.accords.of_puts hputs hne with ⟨heq, -⟩ | ⟨out, -, hyields⟩
    · exact heq
    · exact absurd hdirectory hyields.not_directory
  refine ⟨hadded.linkFree hsession.linkFree, hcurrent, fun location hlocation => ?_, ?_, ?_, ?_⟩
  · rw [hput.get?_of_apart hlocation, hsession.sources location hlocation]
  · exact Leaves.put hput hsession.contents (fun _ _ => Ledger.puts_append_directory) hagrees
      (.inl rfl)
  · refine hsession.accords.append ⟨by simp, fun place hmem => ?_⟩
    rw [List.mem_singleton.1 hmem]
    exact ⟨hne, hdirectory⟩
  · rw [hsummary, hsession.summary]
    simp [Ledger.summary]

include hbase hapart htarget hpath hne in
theorem exportFile_accounted :
    Ensures (job.Accounted source start ledger) (job.exportFile path)
      (fun _ session => ∃ out, job.Yields source path.names out ∧
        job.Accounted source start (ledger ++ { visited := [(path.names, out)] }) session)
      fun report session => report.TellsOfGuards →
        job.Accounted source start ledger session ∧ job.Blames source path report := by
  refine ensures_of_at fun session hsession => ?_
  obtain ⟨habsolute, hup, hnames⟩ := Project.pathOf_goesDown hbase hpath
  have hsource := hsession.sources _ hapart
  have hstep : Ensures (At session.fileSystem session.summary) (job.exportFile path) _ _ :=
    exportFile_ensures hsession.linkFree.straight hsession.current htarget hpath
  have hblames (report : Report) (after : Session)
      (hhalted : job.Halted path session.fileSystem session.summary report after)
      (htells : report.TellsOfGuards) :
      job.Accounted source start ledger after ∧ job.Blames source path report := by
    obtain ⟨hafter, content, error, line, hopened, herror, hreport⟩ := hhalted htells
    refine ⟨hsession.of_at hafter, content, error, line, ?_, herror, hreport⟩
    rw [← hsource, ← hnames]
    rcases FileSystem.open?_eq_ok hsession.linkFree habsolute hup hopened with hfile | ⟨-, rfl⟩
    · exact hfile.get?
    · -- a sink reads as empty, and the filter does not fail at that
      cases herror
  refine (hstep.and exportFile_halts).imp (fun _ h => h) ?_ fun report after h =>
    hblames report after h.2
  intro _ after hafter
  obtain ⟨⟨content, out, hcopied, hsummary⟩, -⟩ := hafter
  have hyields : job.Yields source path.names out :=
    (yields_congr hsource).1
      (yields_of_open? hsession.linkFree hbase hpath hcopied.opened hcopied.filtered)
  refine ⟨out, hyields, hcopied.linkFree hsession.linkFree, hcopied.current, ?_, ?_, ?_, ?_⟩
  · intro location hlocation
    rw [← hsession.sources location hlocation]
    by_cases hout : out = []
    · rw [hcopied.unchanged hout]
    · exact ((hcopied.written hout).put (hsession.ne_sink _)).get?_of_apart hlocation
  · by_cases hout : out = []
    · -- nothing was put
      have hputs : (ledger ++ { visited := [(path.names, out)] }).Puts = ledger.Puts := by
        funext other found
        simp [Ledger.puts_append_visit, hout]
      rw [hcopied.unchanged hout, hputs]
      exact hsession.contents
    · have hmore (other : Location) (found : Entry) :
          (ledger ++ { visited := [(path.names, out)] }).Puts other found ↔
            ledger.Puts other found ∨ (other = path.names ∧ found = .file out) := by
        simp [Ledger.puts_append_visit, hout]
      refine Leaves.put ((hcopied.written hout).put (hsession.ne_sink _)) hsession.contents hmore
        (fun found hputs => ?_) (.inr fun below found hputs habove => ?_)
      · rcases hsession.accords.of_puts hputs hne with ⟨-, hdirectory⟩ | ⟨left, rfl, hleft⟩
        · exact absurd hdirectory hyields.not_directory
        · rw [hleft.unique hyields]
      · -- what is below a file in the destination would be below it in the project
        by_contra hbelow
        have hbelowNe : below ≠ [] := by
          rintro rfl
          exact hne (List.prefix_nil.1 habove)
        obtain ⟨entry, hentry⟩ := hsession.accords.exists_entry_of_puts hputs hbelowNe
        refine hyields.not_directory (get?_eq_directory hentry ?_ (by simpa using hbelow))
        exact (List.prefix_append_right_inj _).2 habove
  · refine hsession.accords.append ⟨fun visit hmem => ?_, by simp⟩
    rw [List.mem_singleton.1 hmem]
    exact ⟨hne, hyields⟩
  · rw [hsummary, hsession.summary, Ledger.summary_append_visit]

end Steps

end Export

end Snapshot
