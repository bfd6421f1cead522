import Snapshot.Proofs.Ledger
import Snapshot.Proofs.VisitOrder
import Snapshot.Proofs.Walks

/-!
# Walks that cover

A walk below a path visits every file that it reaches there, once, and makes every directory that it
reaches there. What it adds to the ledger is said for parts of what is below the path, so that the
parts that a directory consists of, itself, its files and its subdirectories, can be put together.
A walk that a file stops whose guards are not balanced has visited exactly the files that precede
this one.
-/

namespace Snapshot

open ExportM FileTree

namespace Export

/-- Exactly the files of a part of what a walk reaches below a path, each with what is left of it
for the version. None of them is malformed. -/
structure Filters (job : Export) (source : FileTree) (path : Path) (part : Location → Prop)
    (visited : List (Location × List UInt8)) : Prop where
  visited : ∀ place out, (place, out) ∈ visited ↔ ∃ below, place = path.names ++ below ∧
    part below ∧ job.VisitsFile source path below out
  filtered : ∀ below content, part below → job.Reaches source path below (.file content) →
    ∃ out, filterBytes job.config.version content = .ok out

/-- A ledger of exactly the part of the project below a path that a walk reaches. -/
structure Covers (job : Export) (source : FileTree) (path : Path) (part : Location → Prop)
    (ledger : Ledger) : Prop extends job.Filters source path part ledger.visited where
  nodup : ledger.visited.Nodup
  directories : ∀ place, place ∈ ledger.directories ↔ ∃ below, place = path.names ++ below ∧
    part below ∧ job.Reaches source path below .directory
  missing : ledger.missing = []

variable {job : Export} {source : FileTree} {path : Path} {part rest : Location → Prop}
  {ledger more : Ledger} {name : Segment} {below : Location} {content out : List UInt8}
  {first second : List (Location × List UInt8)} {report : Report}

theorem visitsFile_iff_yields (hreaches : job.Reaches source path below (.file content)) :
    job.VisitsFile source path below out ↔ job.Yields source (path.names ++ below) out := by
  constructor
  · intro h
    obtain ⟨found, hfound, hout⟩ := h
    exact ⟨found, .inl hfound.found, hout⟩
  · rintro ⟨found, hfile | ⟨hsink, -⟩, hout⟩
    · have hsame := hreaches.found
      rw [hfile] at hsame
      cases hsame
      exact ⟨_, hreaches, hout⟩
    · have hsame := hreaches.found
      rw [hsink] at hsame
      cases hsame

theorem not_visitsFile_of_directory (hdirectory : job.Reaches source path below .directory) :
    ¬job.VisitsFile source path below out := by
  intro h
  obtain ⟨content, hfile, -⟩ := h
  cases hfile.unique hdirectory

namespace Filters

theorem congr (h : job.Filters source path part first)
    (hpart : ∀ below content, job.Reaches source path below (.file content) →
      (part below ↔ rest below)) :
    job.Filters source path rest first where
  visited place out := by
    rw [h.visited]
    refine exists_congr fun below => and_congr_right fun _ => and_congr_left ?_
    intro h
    obtain ⟨content, hfile, -⟩ := h
    exact hpart below content hfile
  filtered below content hrest hfile :=
    h.filtered below content ((hpart below content hfile).2 hrest) hfile

theorem append (h : job.Filters source path part first)
    (hrest : job.Filters source path rest second) :
    job.Filters source path (fun below => part below ∨ rest below) (first ++ second) where
  visited place out := by
    rw [List.mem_append, h.visited, hrest.visited, ← exists_or]
    simp only [← and_or_left, ← or_and_right]
  filtered below content hpart hfile :=
    hpart.elim (fun hpart => h.filtered below content hpart hfile)
      fun hpart => hrest.filtered below content hpart hfile

/-- The files of a part of a directory are files of a part of the directory above it. -/
theorem of_join (hpath : path.GoesDown) (hname : name.IsName)
    (hkept : job.config.isIgnored name = false)
    (h : job.Filters source (path.join (.ofSegment name)) part first) :
    job.Filters source path (fun below => ∃ rest, below = name :: rest ∧ part rest) first where
  visited place out := by
    obtain ⟨-, hnames⟩ := Path.goesDown_join_ofSegment hpath hname.ofSegment_eq
    rw [h.visited]
    constructor
    · intro h
      obtain ⟨rest, rfl, hpart, hvisits⟩ := h
      refine ⟨name :: rest, ?_, ⟨rest, rfl, hpart⟩, ?_⟩
      · rw [hnames, ← List.append_cons]
      · exact (Project.visitsFile_cons_iff hpath hname).2 ⟨hkept, hvisits⟩
    · intro h
      obtain ⟨_, rfl, ⟨rest, rfl, hpart⟩, hvisits⟩ := h
      refine ⟨rest, ?_, hpart, ((Project.visitsFile_cons_iff hpath hname).1 hvisits).2⟩
      rw [hnames, ← List.append_cons]
  filtered := by
    rintro _ content ⟨rest, rfl, hpart⟩ hfile
    exact h.filtered rest content hpart ((Project.reaches_cons_iff hpath hname).1 hfile).2

end Filters

namespace Covers

theorem congr (h : job.Covers source path part ledger)
    (hpart : ∀ below entry, job.Reaches source path below entry →
      (entry = .directory ∨ ∃ content, entry = .file content) → (part below ↔ rest below)) :
    job.Covers source path rest ledger where
  toFilters := h.toFilters.congr fun below content hfile =>
    hpart below _ hfile (.inr ⟨content, rfl⟩)
  nodup := h.nodup
  directories place := by
    rw [h.directories]
    refine exists_congr fun below => and_congr_right fun _ => and_congr_left fun hdirectory => ?_
    exact hpart below _ hdirectory (.inl rfl)
  missing := h.missing

theorem empty : job.Covers source path (fun _ => False) {} where
  nodup := List.nodup_nil
  visited := by simp
  directories := by simp
  filtered _ _ h := h.elim
  missing := rfl

theorem append (h : job.Covers source path part ledger) (hrest : job.Covers source path rest more)
    (hdisjoint : ∀ below, part below → ¬rest below) :
    job.Covers source path (fun below => part below ∨ rest below) (ledger ++ more) where
  toFilters := h.toFilters.append hrest.toFilters
  nodup := by
    refine List.nodup_append.2 ⟨h.nodup, hrest.nodup, ?_⟩
    rintro ⟨place, out⟩ hfirst ⟨other, left⟩ hsecond heq
    obtain ⟨rfl, rfl⟩ := Prod.mk.inj heq
    obtain ⟨below, hplace, hpart, -⟩ := (h.visited _ _).1 hfirst
    obtain ⟨below', hplace', hpart', -⟩ := (hrest.visited _ _).1 hsecond
    obtain rfl : below = below' := List.append_cancel_left (hplace.symm.trans hplace')
    exact hdisjoint below hpart hpart'
  directories place := by
    rw [Ledger.directories_append, List.mem_append, h.directories, hrest.directories, ← exists_or]
    simp only [← and_or_left, ← or_and_right]
  missing := by rw [Ledger.missing_append, h.missing, hrest.missing, List.append_nil]

/-- What covers a directory covers a part of the directory above it. -/
theorem of_join (hpath : path.GoesDown) (hname : name.IsName)
    (hkept : job.config.isIgnored name = false)
    (h : job.Covers source (path.join (.ofSegment name)) (fun _ => True) ledger) :
    job.Covers source path (fun below => ∃ rest, below = name :: rest) ledger where
  toFilters := (h.toFilters.of_join hpath hname hkept).congr fun _ _ _ => by simp
  nodup := h.nodup
  directories place := by
    obtain ⟨-, hnames⟩ := Path.goesDown_join_ofSegment hpath hname.ofSegment_eq
    rw [h.directories]
    constructor
    · intro h
      obtain ⟨rest, rfl, -, hreaches⟩ := h
      refine ⟨name :: rest, ?_, ⟨rest, rfl⟩, ?_⟩
      · rw [hnames, ← List.append_cons]
      · exact (Project.reaches_cons_iff hpath hname).2 ⟨hkept, hreaches⟩
    · intro h
      obtain ⟨_, rfl, ⟨rest, rfl⟩, hreaches⟩ := h
      refine ⟨rest, ?_, trivial, ((Project.reaches_cons_iff hpath hname).1 hreaches).2⟩
      rw [hnames, ← List.append_cons]
  missing := h.missing

theorem directory (h : job.Reaches source path [] .directory) :
    job.Covers source path (· = []) { directories := [path.names] } where
  nodup := List.nodup_nil
  visited place out := by
    simp only [List.not_mem_nil, false_iff]
    intro h
    obtain ⟨below, -, rfl, hvisits⟩ := h
    exact not_visitsFile_of_directory h hvisits
  directories place := by
    rw [List.mem_singleton]
    constructor
    · rintro rfl
      exact ⟨[], (List.append_nil _).symm, rfl, h⟩
    · intro h
      obtain ⟨below, rfl, rfl, -⟩ := h
      exact List.append_nil _
  filtered := by
    rintro _ content rfl hfile
    cases hfile.unique h
  missing := rfl

theorem file (h : job.Reaches source path [name] (.file content))
    (hyields : job.Yields source (path.names ++ [name]) out) :
    job.Covers source path (· = [name]) { visited := [(path.names ++ [name], out)] } where
  nodup := List.nodup_singleton _
  visited place left := by
    rw [List.mem_singleton]
    constructor
    · intro heq
      obtain ⟨rfl, rfl⟩ := Prod.mk.inj heq
      exact ⟨[name], rfl, rfl, (visitsFile_iff_yields h).2 hyields⟩
    · intro h
      obtain ⟨below, rfl, rfl, hvisits⟩ := h
      rw [((visitsFile_iff_yields h).1 hvisits).unique hyields]
  directories place := by
    simp only [List.not_mem_nil, false_iff]
    intro h
    obtain ⟨below, -, rfl, hdirectory⟩ := h
    cases hdirectory.unique h
  filtered := by
    rintro _ found rfl hfile
    obtain ⟨read, hread, hout⟩ := (visitsFile_iff_yields hfile).2 hyields
    cases hread.unique hfile
    exact ⟨out, hout⟩
  missing := rfl

/-- A directory is covered together with its files and its subdirectories. -/
theorem of_listing {files subdirectories : List Segment} (hbase : job.base.IsPlain)
    (hpath : path.GoesDown) (hhere : job.Reaches source path [] .directory)
    (hfiles : ∀ name, name ∈ files ↔ ∃ content, job.Reaches source path [name] (.file content))
    (hsubdirectories : ∀ name, name ∈ subdirectories ↔
      job.Reaches source path [name] .directory)
    (hfirst : job.Covers source path (fun below => ∃ name ∈ files, below = [name]) ledger)
    (hsecond : job.Covers source path
      (fun below => ∃ name ∈ subdirectories, ∃ rest, below = name :: rest) more) :
    job.Covers source path (fun _ => True)
      ({ directories := [path.names] } ++ (ledger ++ more)) := by
  -- the three parts do not meet, and every way down begins in one of them
  refine ((directory hhere).append (hfirst.append hsecond ?_) ?_).congr ?_
  · rintro _ ⟨name, hmem, rfl⟩ ⟨other, hother, rest, heq⟩
    obtain rfl : name = other := (List.cons.inj heq).1
    obtain ⟨content, hfile⟩ := (hfiles name).1 hmem
    cases hfile.unique ((hsubdirectories name).1 hother)
  · rintro _ rfl (⟨name, -, heq⟩ | ⟨name, -, rest, heq⟩)
    · cases heq
    · cases heq
  · intro below entry hreaches hentry
    apply iff_true_intro
    cases below with
    | nil => exact .inl rfl
    | cons name below =>
        cases below with
        | nil =>
            rcases hentry with rfl | ⟨content, rfl⟩
            · exact .inr (.inr ⟨name, (hsubdirectories name).2 hreaches, [], rfl⟩)
            · exact .inr (.inl ⟨name, (hfiles name).2 ⟨content, hreaches⟩, rfl⟩)
        | cons second below =>
            have hway := hreaches.directory hbase hpath
            exact .inr (.inr ⟨name, (hsubdirectories name).2 hway, _, rfl⟩)

end Covers

/-! ## Stopping -/

/-- A walk below a path that a file stops whose guards are not balanced, with the files that it has
visited before. -/
structure StopsAt (job : Export) (source : FileTree) (path : Path) (below : Location)
    (report : Report) (visited : List (Location × List UInt8)) : Prop extends
    job.Filters source path (·.Precedes below) visited where
  blames : ∃ content error line, job.Reaches source path below (.file content) ∧
    filterBytes job.config.version content = .error error ∧
      report = .ofGuards (path.extend below) line error

/-- Before a file with which a walk begins no other one is visited. -/
theorem StopsAt.of_file (hreaches : job.Reaches source path [] (.file content))
    (hblames : job.Blames source path report) : job.StopsAt source path [] report [] where
  visited := by simp
  filtered := by simp
  blames := by
    obtain ⟨found, error, line, hfound, herror, hreport⟩ := hblames
    have hsame := hreaches.found
    rw [List.append_nil, hfound] at hsame
    cases hsame
    exact ⟨content, error, line, hreaches, herror, hreport⟩

section Listed

variable {names front later : List Segment}
  (hsorted : names.Pairwise fun left right => left.text ≤ right.text) (hnodup : names.Nodup)
  (hsplit : names = front ++ name :: later)

include hsorted hnodup hsplit

/-- In a directory the files before one of them are those that are listed before it. -/
theorem StopsAt.of_files
    (hnames : ∀ name, name ∈ names ↔ ∃ content, job.Reaches source path [name] (.file content))
    (hfront : job.Filters source path (fun below => ∃ name ∈ front, below = [name]) first)
    (hblames : job.Blames source (path.join (.ofSegment name)) report) (hpath : path.GoesDown) :
    job.StopsAt source path [name] report first where
  toFilters := by
    refine hfront.congr fun below content hfile => ?_
    rw [Location.precedes_singleton_iff]
    constructor
    · rintro ⟨other, hother, rfl⟩
      have hmem : other ∈ names := by simp [hsplit, hother]
      exact ⟨other, rfl, (Segment.mem_front_iff hsorted hnodup hsplit hmem).1 hother⟩
    · rintro ⟨other, rfl, hless⟩
      have hmem := (hnames other).2 ⟨content, hfile⟩
      exact ⟨other, (Segment.mem_front_iff hsorted hnodup hsplit hmem).2 hless, rfl⟩
  blames := by
    obtain ⟨content, hreaches⟩ := (hnames name).1 (by simp [hsplit])
    have hname := hreaches.isName
    have hfirst := ((Project.reaches_cons_iff hpath hname).1 hreaches).2
    obtain ⟨found, error, line, hfound, herror, hreport⟩ := (StopsAt.of_file hfirst hblames).blames
    cases hfound.unique hfirst
    exact ⟨content, error, line, hreaches, herror, hreport⟩

/-- What precedes a file in a subdirectory is what precedes it there, what is in the subdirectories
that are listed before this one, and the files of the directory. -/
theorem StopsAt.of_subdirectories (hbase : job.base.IsPlain) (hpath : path.GoesDown)
    (hnames : ∀ name, name ∈ names ↔ job.Reaches source path [name] .directory)
    (hfiles : job.Filters source path (fun below => ∃ name, below = [name]) first)
    (hfront : job.Filters source path
      (fun below => ∃ name ∈ front, ∃ rest, below = name :: rest) second)
    {inner : List (Location × List UInt8)}
    (hinner : job.StopsAt source (path.join (.ofSegment name)) below report inner) :
    job.StopsAt source path (name :: below) report (first ++ (second ++ inner)) := by
  have hhere := (hnames name).1 (by simp [hsplit])
  have hname := hhere.isName
  obtain ⟨hkept, hdirectory⟩ := (Project.reaches_cons_iff hpath hname).1 hhere
  -- the file stands below the subdirectory, not in its place
  obtain ⟨content, error, line, hreaches, herror, hreport⟩ := hinner.blames
  have hbelow : below ≠ [] := by
    rintro rfl
    cases hreaches.unique hdirectory
  constructor
  · have hlast := hinner.toFilters.of_join hpath hname hkept
    refine (hfiles.append (hfront.append hlast)).congr fun place found hfile => ?_
    rw [Location.precedes_cons_iff hbelow]
    refine or_congr_right ?_
    constructor
    · rintro (⟨other, hother, rest, rfl⟩ | ⟨rest, rfl, hrest⟩)
      · have hmem : other ∈ names := by simp [hsplit, hother]
        have hless := (Segment.mem_front_iff hsorted hnodup hsplit hmem).1 hother
        refine ⟨other, rest, ?_, rfl, .inl hless⟩
        rintro rfl
        cases hfile.unique ((hnames other).1 hmem)
      · refine ⟨name, rest, ?_, rfl, .inr ⟨rfl, hrest⟩⟩
        rintro rfl
        exact Location.not_nil_precedes hrest
    · rintro ⟨other, rest, hrest, rfl, hless | ⟨rfl, hbefore⟩⟩
      · obtain ⟨second, rest, rfl⟩ := List.exists_cons_of_ne_nil hrest
        have hmem := (hnames other).2 (hfile.directory hbase hpath)
        have hother := (Segment.mem_front_iff hsorted hnodup hsplit hmem).2 hless
        exact .inl ⟨other, hother, _, rfl⟩
      · exact .inr ⟨rest, rfl, hbefore⟩
  · refine ⟨content, error, line, ?_, herror, hreport⟩
    exact (Project.reaches_cons_iff hpath hname).2 ⟨hkept, hreaches⟩

end Listed

/-! ## Walking -/

variable {start : Location} {session : Session} {names : List Segment}

/-- Whatever parts a loop over some names covers, each under its own name, it covers together. A
loop that fails at a name has covered the parts before it. -/
theorem forM_covers {body : Path → ExportM Unit} {parts : Segment → Location → Prop}
    {failed : Segment → Ledger → Report → Session → Prop} (hnodup : names.Nodup)
    (hparts : ∀ name below, parts name below → below.head? = some name)
    (hbody : ∀ name ∈ names, ∀ ledger,
      Ensures (job.Accounted source start ledger) (body (path.join (.ofSegment name)))
        (fun _ session => ∃ more, job.Covers source path (parts name) more ∧
          job.Accounted source start (ledger ++ more) session) (failed name ledger)) :
    Ensures (job.Accounted source start ledger)
      ((names.map fun name => path.join (.ofSegment name)).forM body)
      (fun _ session => ∃ more,
        job.Covers source path (fun below => ∃ name ∈ names, parts name below) more ∧
          job.Accounted source start (ledger ++ more) session)
      fun report session => ∃ front name later more, names = front ++ name :: later ∧
        job.Covers source path (fun below => ∃ name ∈ front, parts name below) more ∧
          failed name (ledger ++ more) report session := by
  have hloop : Ensures
      (fun session => ∃ more,
        job.Covers source path (fun below => ∃ name ∈ ([] : List Segment), parts name below) more ∧
          job.Accounted source start (ledger ++ more) session)
      (names.forM fun name => body (path.join (.ofSegment name)))
      (fun _ session => ∃ more,
        job.Covers source path (fun below => ∃ name ∈ names, parts name below) more ∧
          job.Accounted source start (ledger ++ more) session)
      fun report session => ∃ front name later more, names = front ++ name :: later ∧
        job.Covers source path (fun below => ∃ name ∈ front, parts name below) more ∧
          failed name (ledger ++ more) report session := by
    refine Ensures.forM_prefix (fun front session => ∃ more,
      job.Covers source path (fun below => ∃ name ∈ front, parts name below) more ∧
        job.Accounted source start (ledger ++ more) session) fun front name later heq => ?_
    -- each name is listed once, so what it covers is not covered yet
    have hfresh : name ∉ front := by
      rw [heq, List.nodup_append] at hnodup
      exact fun hmem => hnodup.2.2 name hmem name List.mem_cons_self rfl
    apply Ensures.of_start
    intro session hsession
    obtain ⟨done, hdone, hsession⟩ := hsession
    have hstep := (hbody name (by simp [heq]) (ledger ++ done)).from_session hsession
    refine hstep.imp (fun _ h => h) ?_ fun report after hfailed =>
      ⟨front, name, later, done, heq, hdone, hfailed⟩
    intro _ after hafter
    obtain ⟨more, hmore, hafter⟩ := hafter
    refine ⟨done ++ more, (hdone.append hmore ?_).congr ?_, Ledger.append_assoc .. ▸ hafter⟩
    · rintro below ⟨other, hmem, hother⟩ hpart
      have hsame := (hparts other below hother).symm.trans (hparts name below hpart)
      exact hfresh (Option.some.inj hsame ▸ hmem)
    · intro below entry _ _
      simp [or_and_right, exists_or]
  have hmap : ((names.map fun name => path.join (.ofSegment name)).forM body) =
      names.forM fun name => body (path.join (.ofSegment name)) := List.forM_map
  rw [hmap]
  refine hloop.mono_before fun session hsession => ⟨{}, ?_, ?_⟩
  · exact Covers.empty.congr fun below entry _ _ => by simp
  · rw [Ledger.append_empty]
    exact hsession

section Walk

variable (hbase : job.base.IsPlain) (htarget : job.target.IsPlain)

include hbase in
/-- The project looks as it did at the start, however much of it has been exported. -/
theorem Accounted.finds_iff (h : job.Accounted source start ledger session)
    (hpath : path.GoesDown) (hapart : job.target.Apart (job.base ++ path.names)) {entry : Entry} :
    session.fileSystem.tree.Finds (job.pathOf path) entry ↔
      source.Finds (job.pathOf path) entry := by
  obtain ⟨-, -, hnames⟩ := Project.pathOf_goesDown hbase hpath
  have hsame := h.sources _ hapart
  rw [← hnames] at hsame
  constructor
  · exact fun hfinds => ⟨hfinds.size_le, hsame ▸ hfinds.get?, hfinds.ends⟩
  · exact fun hfinds => ⟨hfinds.size_le, hsame.symm ▸ hfinds.get?, hfinds.ends⟩

variable {listing : Listing} {files subdirectories : List Segment}

include hbase in
theorem Accounted.mem_files_iff (h : job.Accounted source start ledger session)
    (hpath : path.GoesDown) (hapart : job.target.Apart (job.base ++ path.names))
    (hshows : listing.Shows job.toProject job.target session.fileSystem path files subdirectories) :
    name ∈ files ↔ ∃ content, job.Reaches source path [name] (.file content) := by
  rw [hshows.mem_files]
  simp only [Project.reaches_singleton_iff hbase hpath, exists_and_left]
  refine and_congr_right fun hname => and_congr_right fun _ => exists_congr fun content => ?_
  obtain ⟨hjoin, hnames⟩ := Path.goesDown_join_ofSegment hpath hname.ofSegment_eq
  apply h.finds_iff hbase hjoin
  rw [hnames, ← List.append_assoc]
  exact hapart.append [name]

include hbase in
theorem Accounted.mem_subdirectories_iff (h : job.Accounted source start ledger session)
    (hpath : path.GoesDown) (hapart : job.target.Apart (job.base ++ path.names))
    (hshows : listing.Shows job.toProject job.target session.fileSystem path files subdirectories) :
    name ∈ subdirectories ↔ job.Reaches source path [name] .directory := by
  rw [hshows.mem_subdirectories, Project.reaches_singleton_iff hbase hpath]
  refine and_congr_right fun hname => and_congr_right fun _ => ?_
  obtain ⟨hjoin, hnames⟩ := Path.goesDown_join_ofSegment hpath hname.ofSegment_eq
  have hdeeper : job.target.Apart (job.base ++ (path.join (.ofSegment name)).names) := by
    rw [hnames, ← List.append_assoc]
    exact hapart.append [name]
  -- no subdirectory is passed over for leading into the destination
  have houtside : session.fileSystem.leadsInto job.target
      (job.pathOf (path.join (.ofSegment name))) = false := by
    apply FileSystem.leadsInto_eq_false h.linkFree h.current
    rw [Project.pathOf, Path.placeFrom_ofLocation_join hbase hjoin]
    exact hdeeper.not_below
  rw [h.finds_iff hbase hjoin hdeeper]
  exact and_iff_left houtside

theorem apart_join (hpath : path.GoesDown) (hname : name.IsName)
    (hapart : job.target.Apart (job.base ++ path.names)) :
    (path.join (.ofSegment name)).names ≠ [] ∧
      job.target.Apart (job.base ++ (path.join (.ofSegment name)).names) := by
  obtain ⟨-, hnames⟩ := Path.goesDown_join_ofSegment hpath hname.ofSegment_eq
  rw [hnames, ← List.append_assoc]
  exact ⟨by simp, hapart.append [name]⟩

include hbase htarget in
theorem files_covers (hpath : path.GoesDown)
    (hapart : job.target.Apart (job.base ++ path.names)) (hnodup : names.Nodup)
    (hfiles : ∀ name ∈ names, ∃ content, job.Reaches source path [name] (.file content)) :
    Ensures (job.Accounted source start ledger)
      ((names.map fun name => path.join (.ofSegment name)).forM job.exportFile)
      (fun _ session => ∃ more,
        job.Covers source path (fun below => ∃ name ∈ names, below = [name]) more ∧
          job.Accounted source start (ledger ++ more) session)
      fun report session => ∃ front name later more, names = front ++ name :: later ∧
        job.Covers source path (fun below => ∃ name ∈ front, below = [name]) more ∧
          (report.TellsOfGuards → job.Accounted source start (ledger ++ more) session ∧
            job.Blames source (path.join (.ofSegment name)) report) := by
  have hbody (name : Segment) (hmem : name ∈ names) (ledger : Ledger) :
      Ensures (job.Accounted source start ledger) (job.exportFile (path.join (.ofSegment name)))
        (fun _ session => ∃ more, job.Covers source path (fun below => below = [name]) more ∧
          job.Accounted source start (ledger ++ more) session)
        fun report session => report.TellsOfGuards →
          job.Accounted source start ledger session ∧
            job.Blames source (path.join (.ofSegment name)) report := by
    obtain ⟨content, hreaches⟩ := hfiles name hmem
    have hname := hreaches.isName
    obtain ⟨hjoin, hnames⟩ := Path.goesDown_join_ofSegment hpath hname.ofSegment_eq
    obtain ⟨hjoinNe, hjoinApart⟩ := apart_join hpath hname hapart
    apply (exportFile_accounted hbase htarget hjoin hjoinNe hjoinApart).mono_after
    intro _ after hafter
    obtain ⟨out, hyields, hafter⟩ := hafter
    rw [hnames] at hyields hafter
    exact ⟨_, .file hreaches hyields, hafter⟩
  exact forM_covers hnodup (by simp) hbody

/-- A part of an export that starts with a ledger and, if guards stop it, has gone on to a file
below a path. -/
def Stops (job : Export) (source : FileTree) (start : Location) (path : Path) (ledger : Ledger)
    (report : Report) (session : Session) : Prop :=
  report.TellsOfGuards → ∃ below more, job.StopsAt source path below report more.visited ∧
    job.Accounted source start (ledger ++ more) session

theorem directories_covers {body : Path → ExportM Unit} (hpath : path.GoesDown)
    (hapart : job.target.Apart (job.base ++ path.names)) (hnodup : names.Nodup)
    (hdirectories : ∀ name ∈ names, job.Reaches source path [name] .directory)
    (hbody : ∀ {path : Path} {ledger : Ledger}, path.GoesDown → path.names ≠ [] →
      job.target.Apart (job.base ++ path.names) → job.Reaches source path [] .directory →
      Ensures (job.Accounted source start ledger) (body path)
        (fun _ session => ∃ more, job.Covers source path (fun _ => True) more ∧
          job.Accounted source start (ledger ++ more) session)
        (job.Stops source start path ledger)) :
    Ensures (job.Accounted source start ledger)
      ((names.map fun name => path.join (.ofSegment name)).forM body)
      (fun _ session => ∃ more,
        job.Covers source path (fun below => ∃ name ∈ names, ∃ rest, below = name :: rest) more ∧
          job.Accounted source start (ledger ++ more) session)
      fun report session => ∃ front name later more, names = front ++ name :: later ∧
        job.Covers source path (fun below => ∃ name ∈ front, ∃ rest, below = name :: rest) more ∧
          job.Stops source start (path.join (.ofSegment name)) (ledger ++ more) report session := by
  refine forM_covers hnodup (by rintro name _ ⟨rest, rfl⟩; rfl) fun name hmem ledger => ?_
  have hreaches := hdirectories name hmem
  have hname := hreaches.isName
  obtain ⟨hjoin, -⟩ := Path.goesDown_join_ofSegment hpath hname.ofSegment_eq
  obtain ⟨hjoinNe, hjoinApart⟩ := apart_join hpath hname hapart
  obtain ⟨hkept, hhere⟩ := (Project.reaches_cons_iff hpath hname).1 hreaches
  apply (hbody hjoin hjoinNe hjoinApart hhere).mono_after
  intro _ after hafter
  obtain ⟨more, hmore, hafter⟩ := hafter
  exact ⟨more, .of_join hpath hname hkept hmore, hafter⟩

include hbase htarget in
/-- Exporting a directory covers everything below it, unless a file in it stops the export. The
induction is on the levels that the walk may still go down; with none left it fails. -/
theorem exportDirectory_covers (depth : Nat) (hpath : path.GoesDown) (hne : path.names ≠ [])
    (hapart : job.target.Apart (job.base ++ path.names))
    (hdirectory : job.Reaches source path [] .directory) :
    Ensures (job.Accounted source start ledger) (job.exportDirectory depth path)
      (fun _ session => ∃ more, job.Covers source path (fun _ => True) more ∧
        job.Accounted source start (ledger ++ more) session)
      (job.Stops source start path ledger) := by
  induction depth generalizing path ledger with
  | zero =>
      exact .throw fun _ _ htells =>
        absurd htells (blamesPath_creationFailure path _).not_tellsOfGuards
  | succ depth ih =>
      have hget : source.get? (job.base ++ path.names) = some .directory := by
        simpa using hdirectory.found
      let here : Ledger := { directories := [path.names] }
      have hother (report : Report) (session : Session) (h : ¬report.TellsOfGuards) :
          job.Stops source start path ledger report session := fun htells => absurd htells h
      have hcreate : Ensures (job.Accounted source start ledger) (job.createTarget path)
          (fun _ => job.Accounted source start (ledger ++ here))
          (job.Stops source start path ledger) :=
        (createTarget_accounted htarget hpath hne hget).imp (fun _ h => h) (fun _ _ h => h) hother
      unfold exportDirectory
      refine say_accounted.bind fun _ => hcreate.bind fun _ => ?_
      refine (ignoresGuards_scan.ensures
        (scan_ensures (fun _ _ _ => trivial) fun _ _ _ _ => trivial)
        fun report session h _ => hother report session h).bind fun listing => ?_
      apply Ensures.of_start
      intro session hsession
      obtain ⟨hsession, hread⟩ := hsession
      obtain ⟨-, files, subdirectories, hshows⟩ :=
        Listing.read_eq_ok hsession.linkFree hbase hpath hread
      have hfiles (name : Segment) :
          name ∈ files ↔ ∃ content, job.Reaches source path [name] (.file content) :=
        hsession.mem_files_iff hbase hpath hapart hshows
      have hsubdirectories (name : Segment) :
          name ∈ subdirectories ↔ job.Reaches source path [name] .directory :=
        hsession.mem_subdirectories_iff hbase hpath hapart hshows
      rw [hshows.files_eq, hshows.subdirectories_eq]
      have hfirst := (files_covers hbase htarget hpath hapart hshows.nodup_files fun name hmem =>
        (hfiles name).1 hmem).from_session hsession
      refine (hfirst.imp (fun _ h => h) (fun _ _ h => h) ?_).bind fun _ => ?_
      · -- a file right in the directory stops the export
        rintro report after ⟨front, name, later, more, hsplit, hfront, hstopped⟩ htells
        obtain ⟨hafter, hblames⟩ := hstopped htells
        rw [Ledger.append_assoc] at hafter
        have hstops := StopsAt.of_files hshows.sorted_files hshows.nodup_files hsplit hfiles
          hfront.toFilters hblames hpath
        exact ⟨[name], here ++ more, hstops, hafter⟩
      apply Ensures.of_start
      intro middle hmiddle
      obtain ⟨first, hfirst, hmiddle⟩ := hmiddle
      have hsecond := (directories_covers hpath hapart hshows.nodup_subdirectories
        (fun name hmem => (hsubdirectories name).1 hmem) ih).from_session hmiddle
      refine hsecond.imp (fun _ h => h) ?_ ?_
      · intro _ after hafter
        obtain ⟨second, hsecond, hafter⟩ := hafter
        refine ⟨_, .of_listing hbase hpath hdirectory hfiles hsubdirectories hfirst hsecond, ?_⟩
        rw [← Ledger.append_assoc, ← Ledger.append_assoc]
        exact hafter
      · -- a file in a subdirectory does
        rintro report after ⟨front, name, later, more, hsplit, hfront, hstopped⟩ htells
        obtain ⟨below, inner, hinner, hafter⟩ := hstopped htells
        have hlisted : job.Filters source path (fun below => ∃ name, below = [name])
            first.visited := by
          refine hfirst.toFilters.congr fun below content hfile => ?_
          constructor
          · rintro ⟨name, -, rfl⟩
            exact ⟨name, rfl⟩
          · rintro ⟨name, rfl⟩
            exact ⟨name, (hfiles name).2 ⟨content, hfile⟩, rfl⟩
        rw [Ledger.append_assoc, Ledger.append_assoc, Ledger.append_assoc] at hafter
        have hstops := StopsAt.of_subdirectories hshows.sorted_subdirectories
          hshows.nodup_subdirectories hsplit hbase hpath hsubdirectories hlisted hfront.toFilters
          hinner
        exact ⟨name :: below, here ++ (first ++ (more ++ inner)), hstops, hafter⟩

end Walk

end Export

end Snapshot
