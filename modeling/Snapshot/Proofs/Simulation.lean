import Snapshot.Proofs.Emptying
import Snapshot.Proofs.Follows
import Snapshot.Proofs.Ledger
import Snapshot.Proofs.Walks

/-!
# Exports of one project

Two exports of the same project read the same, as long as their file systems differ in the
destination at most, and as long as the destination is apart from what is read. So the second one
does what the first one does, if it can: if the directories that the first one makes and the files
that it writes can be made and written in the second file system. `Export.Simulates` asks for no
more than these two requests of a relation between the sessions of the two; that a whole export
keeps the relation up is shown here once.
-/

namespace Snapshot

open ExportM FileTree

attribute [ext] Summary

namespace Summary

/-- The counts of one part of an export and of another one after it. -/
instance : Add Summary where
  add first second :=
    { written := first.written + second.written
      skipped := first.skipped + second.skipped
      missingRoots := first.missingRoots ++ second.missingRoots }

theorem add_written (summary : Summary) :
    summary + { written := 1 } = { summary with written := summary.written + 1 } :=
  Summary.ext rfl rfl (List.append_nil _)

theorem add_skipped (summary : Summary) :
    summary + { skipped := 1 } = { summary with skipped := summary.skipped + 1 } :=
  Summary.ext rfl rfl (List.append_nil _)

theorem add_missing (summary : Summary) (root : Path) :
    summary + { missingRoots := [root] } =
      { summary with missingRoots := summary.missingRoots ++ [root] } := rfl

end Summary

namespace Export

/-- Two file systems without links that differ in the destination at most. -/
structure SameOutside (job : Export) (fs other : FileSystem) : Prop where
  linkFree : fs.tree.LinkFree
  linkFree_other : other.tree.LinkFree
  outside : ∀ place, ¬job.target <+: place → other.tree.get? place = fs.tree.get? place

/-- A path at which the export carries out its steps: at a root or below it, and in a part of the
project that the destination is apart from. -/
structure Carried (job : Export) (path : Path) : Prop where
  visits : job.Visits path
  ends : path.EndsInName
  apart : Location.Apart job.target (job.base ++ path.names)

variable {job : Export} {fs other after : FileSystem} {path root : Path} {place : Location}

theorem Carried.inRoots (h : job.Carried path) :
    job.InRoots job.config.roots (job.placeOf path) := by
  obtain ⟨-, root, hroot, hnames⟩ := h.visits
  exact ⟨root, hroot, (List.prefix_append_right_inj _).2 hnames⟩

theorem Carried.of_root (hroot : root ∈ job.config.roots) (hnormal : root.IsNormal)
    (hapart : Location.Apart job.target (job.base ++ root.names)) : job.Carried root where
  visits := ⟨hnormal.goesDown, root, hroot, List.prefix_rfl⟩
  ends := hnormal.endsInName
  apart := hapart

theorem Carried.join (h : job.Carried path) {name : Segment} (hname : name.IsName) :
    job.Carried (path.join (.ofSegment name)) where
  visits := h.visits.join hname
  ends := Path.endsInName_join_ofSegment hname.ofSegment_eq
  apart := by
    rw [(Path.goesDown_join_ofSegment h.visits.1 hname.ofSegment_eq).2, ← List.append_assoc]
    exact h.apart.append [name]

/-! ## What is read -/

namespace SameOutside

section Reading

variable (h : job.SameOutside fs other) (hbase : job.base.IsPlain) (hpath : job.Carried path)

include h hbase hpath

/-- What is read of the project is apart from the destination. -/
theorem sources (hplace : place <+: (job.pathOf path).names) :
    other.tree.get? place = fs.tree.get? place := by
  rw [(Project.pathOf_goesDown hbase hpath.visits.1).2.2] at hplace
  exact h.outside _ fun hbelow => hpath.apart.not_below (hbelow.trans hplace)

theorem pathExists_eq :
    other.pathExists (job.pathOf path) = fs.pathExists (job.pathOf path) :=
  have hpathOf := Project.pathOf_goesDown hbase hpath.visits.1
  FileSystem.pathExists_congr h.linkFree hpathOf.1 hpathOf.2.1 fun _ => h.sources hbase hpath

theorem isDirectory_eq :
    other.isDirectory (job.pathOf path) = fs.isDirectory (job.pathOf path) :=
  have hpathOf := Project.pathOf_goesDown hbase hpath.visits.1
  FileSystem.isDirectory_congr h.linkFree hpathOf.1 hpathOf.2.1 fun _ => h.sources hbase hpath

theorem isFile_eq : other.isFile (job.pathOf path) = fs.isFile (job.pathOf path) :=
  have hpathOf := Project.pathOf_goesDown hbase hpath.visits.1
  FileSystem.isFile_congr h.linkFree hpathOf.1 hpathOf.2.1 fun _ => h.sources hbase hpath

theorem open?_eq : other.open? (job.pathOf path) = fs.open? (job.pathOf path) :=
  have hpathOf := Project.pathOf_goesDown hbase hpath.visits.1
  FileSystem.open?_congr h.linkFree hpathOf.1 hpathOf.2.1 fun _ => h.sources hbase hpath

theorem leadsInto_eq :
    other.leadsInto job.target (job.pathOf path) = fs.leadsInto job.target (job.pathOf path) :=
  have hpathOf := Project.pathOf_goesDown hbase hpath.visits.1
  FileSystem.leadsInto_congr h.linkFree hpathOf.1 hpathOf.2.1 (fun _ => h.sources hbase hpath) _

end Reading

/-- The names in a directory of the project are the same in both file systems. -/
theorem sorted_names_eq (h : job.SameOutside fs other) (hpath : job.Carried path) :
    Listing.sorted (other.tree.names (job.base ++ path.names)) =
      Listing.sorted (fs.tree.names (job.base ++ path.names)) := by
  apply Listing.sorted_eq_of_perm
  refine (List.perm_ext_iff_of_nodup nodup_names nodup_names).2 fun name => ?_
  rw [mem_names_iff, mem_names_iff, h.outside _ (hpath.apart.append [name]).not_below]

/-- Both file systems give the same listing. -/
theorem read_eq (h : job.SameOutside fs other) (hbase : job.base.IsPlain)
    (hpath : job.Carried path) {listing : Listing}
    (hread : Listing.read job.toProject job.target fs path = .ok listing) :
    Listing.read job.toProject job.target other path = .ok listing := by
  obtain ⟨habsolute, hup, hnames⟩ := Project.pathOf_goesDown hbase hpath.visits.1
  unfold Listing.read at hread ⊢
  split at hread
  · next names hlist =>
      obtain ⟨hfinds, rfl⟩ := (FileSystem.list_eq_ok_iff h.linkFree habsolute hup).1 hlist
      have hfindsOther : other.tree.Finds (job.pathOf path) .directory :=
        ⟨hfinds.size_le, (h.sources hbase hpath List.prefix_rfl).trans hfinds.get?, hfinds.ends⟩
      rw [(FileSystem.list_eq_ok_iff h.linkFree_other habsolute hup).2 ⟨hfindsOther, rfl⟩]
      have hshown {name : Segment}
          (hmem : name ∈ (Listing.sorted (fs.tree.names (job.base ++ path.names))).filter
            fun name => !job.config.isIgnored name) : job.Carried (path.join (.ofSegment name)) :=
        hpath.join (isName_of_mem_names (List.mem_mergeSort.1 (List.mem_filter.1 hmem).1))
      have hfiles := List.filter_congr fun name hmem =>
        h.isFile_eq hbase (hshown hmem)
      have hsubdirectories := List.filter_congr fun name hmem =>
        congrArg₂ (fun isDirectory leads => isDirectory && !leads)
          (h.isDirectory_eq hbase (hshown hmem)) (h.leadsInto_eq hbase (hshown hmem))
      rw [← hread, hnames]
      unfold Listing.ofNames
      simp only [h.sorted_names_eq hpath, Project.pathOf_join hpath.visits.1, hfiles,
        hsubdirectories]
  · cases hread

end SameOutside

/-! ## What is made -/

section Making

variable (htarget : job.target.IsPlain) (hpath : job.Carried path)

include htarget hpath

theorem Carried.targetOf : (job.targetOf path).isAbsolute ∧ Hop.up ∉ (job.targetOf path).hops ∧
    (job.targetOf path).names = job.placeOf path ∧ (job.targetOf path).EndsInName := by
  have hdown := hpath.visits.1
  exact ⟨Path.isAbsolute_ofLocation_join,
    Path.up_not_mem_ofLocation_join htarget hdown, Path.names_ofLocation_join htarget hdown,
    hpath.ends.join hdown.relative⟩

theorem Carried.placeFrom_targetOf (start : Location) :
    (job.targetOf path).placeFrom start = job.placeOf path := by
  obtain ⟨habsolute, hup, hnames, -⟩ := hpath.targetOf htarget
  rw [Path.placeFrom_of_not_up hup, if_pos habsolute, List.nil_append, hnames]

/-- A directory that has been created is one entry that was put. -/
theorem Carried.put_of_createTarget (hlinks : fs.tree.LinkFree)
    (h : fs.createDirectories (job.targetOf path) = (after, .ok ())) :
    fs.tree.Put after.tree (job.placeOf path) .directory := by
  obtain ⟨habsolute, hup, hnames, -⟩ := hpath.targetOf htarget
  have hstart := fs.current.isLeftOf_append_replicate
  have hadded := FileSystem.createDirectories_added_above hlinks.straight hstart hup
  have hthere := FileSystem.createDirectories_eq_ok hlinks.straight hstart habsolute hup h
  rw [h, hpath.placeFrom_targetOf htarget] at hadded
  rw [hnames] at hthere
  exact hadded.put hthere

/-- A directory that can be made in one file system can be made in another one, if nothing is in the
way there either. -/
theorem Carried.exists_createTarget (hlinks : fs.tree.LinkFree) (hother : other.tree.LinkFree)
    (h : fs.createDirectories (job.targetOf path) = (after, .ok ()))
    (hopen : fs.tree.Open [] (job.placeOf path) → other.tree.Open [] (job.placeOf path)) :
    ∃ after', other.createDirectories (job.targetOf path) = (after', .ok ()) := by
  obtain ⟨habsolute, hup, hnames, hends⟩ := hpath.targetOf htarget
  obtain ⟨hnul, hsize, hvalid, hway⟩ :=
    FileSystem.creatable_of_createDirectories hlinks habsolute hup h
  rw [hnames] at hway
  obtain ⟨after', hsecond, -, -⟩ := FileSystem.createDirectories_ok hother habsolute hup hnul hsize
    hvalid (.inl hends) (hnames ▸ hopen hway)
  exact ⟨after', hsecond⟩

/-- What is left of a file has been written. -/
theorem Carried.written_of_finish {copy : FileCopy} (hlinks : fs.tree.LinkFree)
    (houtput : copy.output = job.targetOf path) (h : copy.finish fs = (after, .ok true)) :
    fs.tree.FileWritten after.tree (job.placeOf path) copy.content := by
  obtain ⟨-, hup, -, -⟩ := hpath.targetOf htarget
  have hplace := hpath.placeFrom_targetOf htarget
  have hstart := fs.current.isLeftOf_append_replicate
  rw [← houtput] at hup hplace
  rcases FileSystem.finish_cases hlinks.straight hstart hup h with
    ⟨-, hfalse, -⟩ | ⟨-, -, ⟨-, hwritten⟩ | ⟨⟨report, herror⟩, -⟩⟩
  · cases hfalse
  · rwa [hplace] at hwritten
  · cases herror

/-- A file that can be written in one file system can be written in another one, if nothing is in
the way there either, and no directory in its place. -/
theorem Carried.exists_finish (hlinks : fs.tree.LinkFree) (hother : other.tree.LinkFree)
    {copy : FileCopy} (houtput : copy.output = job.targetOf path)
    (h : copy.finish fs = (after, .ok true))
    (hopen : ∀ names, names <+: job.placeOf path → names ≠ job.placeOf path →
      fs.tree.Open [] names → other.tree.Open [] names)
    (hoccupant : ∀ entry, other.tree.get? (job.placeOf path) = some entry →
      entry = .sink ∨ ∃ content, entry = .file content) :
    ∃ after', copy.finish other = (after', .ok true) := by
  have hwritten := hpath.written_of_finish htarget hlinks houtput h
  obtain ⟨habsolute, hup, hnames, name, hlast⟩ := hpath.targetOf htarget
  obtain ⟨front, hends⟩ := List.getLast?_eq_some_iff.1 hlast
  obtain ⟨count, hparent, hparentNames, hparentEnds⟩ :=
    FileSystem.exists_parent habsolute hup hends
  have hparentAbsolute := (Path.isAbsolute_upTo (job.targetOf path) count).trans habsolute
  have hparentUp := Path.up_not_mem_hops_upTo hup count
  have hconcat := FileSystem.names_eq_concat hends
  have hcreates (fs after : FileSystem) : copy.createOutputDirectory fs = (after, .ok ()) ↔
      fs.createDirectories ((job.targetOf path).upTo count) = (after, .ok ()) :=
    FileCopy.createOutputDirectory_eq_ok_iff ((congrArg Path.parent? houtput).trans hparent)
  rcases FileCopy.finish_eq_ok_iff.1 h with ⟨hfalse, -⟩ | ⟨-, hcontent, middle, hcreate, hwrite⟩
  · cases hfalse
  · rw [houtput] at hwrite
    have hcreated := (hcreates _ _).1 hcreate
    obtain ⟨hadded, -⟩ := fs.createDirectories_leads ((job.targetOf path).upTo count)
    rw [hcreated] at hadded
    obtain ⟨hnul, hsize, hvalid, hway⟩ := FileSystem.creatable_of_createDirectories hlinks
      hparentAbsolute hparentUp hcreated
    obtain ⟨haccepted, -⟩ :=
      FileSystem.entry_of_write (hadded.linkFree hlinks) habsolute hup hwrite
    have habove : ((job.targetOf path).upTo count).names <+: job.placeOf path :=
      hnames ▸ FileSystem.prefix_names_upTo _ count
    have hlength : ((job.targetOf path).upTo count).names.length < (job.placeOf path).length := by
      rw [← hnames, hconcat, hparentNames, List.length_append, List.length_singleton]
      omega
    obtain ⟨middle', hcreate', hdirectory', hadded'⟩ := FileSystem.createDirectories_ok
      hother hparentAbsolute hparentUp hnul hsize hvalid hparentEnds
      (hopen _ habove (fun heq => absurd (congrArg List.length heq) (by omega)) hway)
    have hname : name.IsName := by
      obtain ⟨entry, hentry⟩ : ∃ entry, after.tree.get? (job.placeOf path) = some entry := by
        by_cases hsink : fs.tree.get? (job.placeOf path) = some .sink
        · exact ⟨_, hwritten.swallowed hsink⟩
        · exact ⟨_, hwritten.written hsink⟩
      rw [← hnames, hconcat] at hentry
      exact isName_of_get? hentry
    -- nothing that was created above the file stands in its place
    have hstill : ∀ entry, middle'.tree.get? (job.targetOf path).names = some entry →
        entry = .sink ∨ ∃ content, entry = .file content := by
      intro entry hthere
      rcases hadded'.adds hthere with hbefore | ⟨-, hbelow⟩
      · exact hoccupant entry (hnames ▸ hbefore)
      · have hle := hbelow.length_le
        rw [hnames] at hle
        omega
    obtain ⟨after', hwrite'⟩ :
        ∃ after', middle'.write (job.targetOf path) copy.content = .ok after' :=
      FileSystem.exists_write (hadded'.linkFree hother) habsolute hup hends haccepted hname
        (hparentNames ▸ hdirectory') hstill
    refine ⟨after', FileCopy.finish_eq_ok_iff.2 (.inr ⟨rfl, hcontent, middle', ?_, ?_⟩)⟩
    · exact (hcreates _ _).2 hcreate'
    · rwa [houtput]

end Making

/-! ## Simulations -/

/-- Saying that a part has failed does not make it go well. -/
theorem sayingFailure_follows {α : Type} {lost : Session → Prop}
    {before : Session → Session → Prop} {first second : ExportM α}
    {after : α → Session → Session → Prop} (h : Follows lost before first second after) :
    Follows lost before (job.sayingFailure first) (job.sayingFailure second) after := by
  refine h.tryCatch fun report session a done hdone => ?_
  obtain ⟨_, _, -, hthrow⟩ := bind_eq_ok.1 hdone
  cases hthrow

/-- What was left of a file of the project is to be written. -/
def LeftOf (job : Export) (path : Path) (copy : FileCopy) (fs : FileSystem) : Prop :=
  copy.output = job.targetOf path ∧ ∃ content, fs.open? (job.pathOf path) = .ok (.ok content) ∧
    filterBytes job.config.version content = .ok copy.content

/-- A relation between the sessions of two exports of the same project that is kept up if the second
one makes the directories and writes the files that the first one does. Sessions that are lost stay
so. -/
structure Simulates (job : Export) (lost : Session → Prop) (together : Session → Session → Prop) :
    Prop where
  keeps_lost : job.Keeps job.Visits lost fun _ _ => True
  ofFiles_lost : OfFiles lost
  outside : ∀ {session other}, together session other →
    job.SameOutside session.fileSystem other.fileSystem
  of_eq : ∀ {session other same too}, together session other →
    same.fileSystem = session.fileSystem → too.fileSystem = other.fileSystem →
      same.summary = session.summary → too.summary = other.summary → together same too
  count : ∀ {session other} (more : Summary), together session other →
    together { session with summary := session.summary + more }
      { other with summary := other.summary + more }
  creates : ∀ {path session other after}, job.Carried path → together session other →
    session.fileSystem.createDirectories (job.targetOf path) = (after, .ok ()) →
      ¬lost { session with fileSystem := after } →
        ∃ after', other.fileSystem.createDirectories (job.targetOf path) = (after', .ok ()) ∧
          together { session with fileSystem := after } { other with fileSystem := after' }
  writes : ∀ {path copy session other after}, job.Carried path → together session other →
    job.LeftOf path copy session.fileSystem →
      copy.finish session.fileSystem = (after, .ok true) →
        ¬lost { session with fileSystem := after } →
          ∃ after', copy.finish other.fileSystem = (after', .ok true) ∧
            together { session with fileSystem := after } { other with fileSystem := after' }

namespace Simulates

variable {lost : Session → Prop} {together : Session → Session → Prop}
  (h : job.Simulates lost together)

include h

theorem say {status : Status} :
    Follows never together (say job.config status) (say job.config status) fun _ => together :=
  follows_say fun _ _ _ _ htogether => h.of_eq htogether rfl rfl rfl rfl

theorem counting {update : Summary → Summary} {more : Summary}
    (hmore : ∀ summary, summary + more = update summary) :
    Follows never together (ExportM.count update) (ExportM.count update) fun _ => together :=
  follows_modify fun session other htogether =>
    hmore session.summary ▸ hmore other.summary ▸ h.count more htogether

theorem createTarget (hpath : job.Carried path) :
    Follows lost together (job.createTarget path) (job.createTarget path) fun _ => together := by
  refine follows_change fun session other fs done htogether hrequest hlost => ?_
  cases hfirst : session.fileSystem.createDirectories (job.targetOf path) with
  | mk after outcome =>
      rw [hfirst] at hrequest
      obtain ⟨rfl, hok⟩ := Prod.mk.inj hrequest
      rw [mapError_eq_ok.1 hok] at hfirst
      obtain ⟨after', hsecond, hend⟩ := h.creates hpath htogether hfirst hlost
      exact ⟨after', by simp [hsecond], hend⟩

/-- A file of which nothing is left is not written by either export. -/
theorem finish {copy : FileCopy} (hpath : job.Carried path) :
    Follows lost
      (fun session other => together session other ∧ job.LeftOf path copy session.fileSystem)
      (change copy.finish) (change copy.finish) fun _ => together := by
  refine follows_change fun session other fs written hstart hfinish hlost => ?_
  obtain ⟨htogether, hleft⟩ := hstart
  cases written with
  | true => exact h.writes hpath htogether hleft hfinish hlost
  | false =>
      rcases FileCopy.finish_eq_ok_iff.1 hfinish with ⟨-, hcontent, rfl⟩ | ⟨htrue, -⟩
      · exact ⟨_, FileCopy.finish_eq_ok_iff.2 (.inl ⟨rfl, hcontent, rfl⟩), htogether⟩
      · cases htrue

/-- Filtering changes no file system. -/
theorem copyFile (hbase : job.base.IsPlain) (hpath : job.Carried path) :
    Follows lost together (job.copyFile path) (job.copyFile path) fun _ => together := by
  let opened (copy : FileCopy) (session other : Session) : Prop :=
    together session other ∧ copy.output = job.targetOf path ∧ copy.kept = [] ∧
      ∃ unread, session.fileSystem.open? (job.pathOf path) = .ok unread ∧
        copy.unread = unread.map (Text.lines 0x0A)
  have hopen : Follows never together
      (query fun fs => FileCopy.open? fs (job.pathOf path) (job.targetOf path) path.text)
      (query fun fs => FileCopy.open? fs (job.pathOf path) (job.targetOf path) path.text)
      opened := by
    refine follows_query fun session other copy htogether hopen => ?_
    have hsame := (h.outside htogether).open?_eq hbase hpath
    exact ⟨by rwa [FileCopy.open?, hsame, ← FileCopy.open?], htogether, FileCopy.open?_eq_ok hopen⟩
  refine hopen.never_bind fun copy => ?_
  have hread : Follows never (opened copy)
      (modify fun session => { session with
        inputs := session.inputs ++ [{ path, content := copy.unread.map List.flatten }] })
      (modify fun session => { session with
        inputs := session.inputs ++ [{ path, content := copy.unread.map List.flatten }] })
      fun _ => opened copy :=
    follows_modify fun session other hopened => ⟨h.of_eq hopened.1 rfl rfl rfl rfl, hopened.2⟩
  have hfilter : Follows never (opened copy) (query fun _ => copy.filtered job.config.version)
      (query fun _ => copy.filtered job.config.version)
      fun done session other =>
        together session other ∧ job.LeftOf path done session.fileSystem := by
    refine follows_query fun session other done hopened hdone => ?_
    obtain ⟨htogether, houtput, hkept, unread, hunread, heq⟩ := hopened
    obtain ⟨content, rfl, hfiltered, hsame⟩ := FileCopy.filtered_eq_ok hkept heq hdone
    exact ⟨hdone, htogether, hsame.trans houtput, content, hunread, hfiltered⟩
  exact hread.never_bind fun _ => hfilter.never_bind fun done => h.finish hpath

theorem exportFile (hbase : job.base.IsPlain) (hpath : job.Carried path) :
    Follows lost together (job.exportFile path) (job.exportFile path) fun _ => together := by
  unfold Export.exportFile
  refine h.say.never_bind fun _ => ?_
  refine (sayingFailure_follows (Follows.tryCatch (h.copyFile hbase hpath)
    fun _ _ _ _ h => by cases h)).bind (fun _ => counted_keeps h.ofFiles_lost)
      fun written => .of_never ?_
  split
  · exact h.counting Summary.add_written
  · exact (h.counting Summary.add_skipped).never_bind fun _ => h.say

theorem scan (hbase : job.base.IsPlain) (hpath : job.Carried path) :
    Follows never together
      (job.sayingFailure <| query fun fs =>
        (Listing.read job.toProject job.target fs path).mapError fun report =>
          (report.within .exporting).noting .directoryNotScanned)
      (job.sayingFailure <| query fun fs =>
        (Listing.read job.toProject job.target fs path).mapError fun report =>
          (report.within .exporting).noting .directoryNotScanned)
      fun listing session other => together session other ∧
        (∀ file ∈ listing.files, job.Carried file) ∧
        ∀ directory ∈ listing.subdirectories, job.Carried directory := by
  refine sayingFailure_follows (follows_query fun session other listing htogether hread => ?_)
  have hlisting := mapError_eq_ok.1 hread
  have hcarried {next : Path} (hnext : next ∈ listing.files ∨ next ∈ listing.subdirectories) :
      job.Carried next := by
    obtain ⟨name, hname, rfl⟩ := Listing.exists_isName_of_mem hlisting hnext
    exact hpath.join hname
  exact ⟨mapError_eq_ok.2 ((h.outside htogether).read_eq hbase hpath hlisting), htogether,
    fun _ hmem => hcarried (.inl hmem), fun _ hmem => hcarried (.inr hmem)⟩

theorem exportDirectory (hbase : job.base.IsPlain) (depth : Nat) (hpath : job.Carried path) :
    Follows lost together (job.exportDirectory depth path) (job.exportDirectory depth path)
      fun _ => together := by
  induction depth generalizing path with
  | zero => exact .of_throw
  | succ depth ih =>
      rw [Export.exportDirectory]
      have hlost := h.keeps_lost
      -- a session that is lost stays so, whatever is exported after it
      refine h.say.never_bind fun _ => (h.createTarget hpath).bind
        (fun _ => hlost.exportListing hpath.visits fun _ => hlost.exportDirectory depth) fun _ => ?_
      refine (h.scan hbase hpath).never_bind fun listing =>
        .of_start fun session other hscanned => ?_
      obtain ⟨htogether, hfiles, hsubdirectories⟩ := hscanned
      have hstays : ∀ directory ∈ listing.subdirectories,
          Ensures lost (job.exportDirectory depth directory) (fun _ => lost) fun _ _ => True :=
        fun directory hmem => hlost.exportDirectory depth (hsubdirectories directory hmem).visits
      have hfirst : Follows lost together (listing.files.forM job.exportFile)
          (listing.files.forM job.exportFile) fun _ => together :=
        .forM (fun file hmem => hlost.exportFile file (hfiles file hmem).visits)
          fun file hmem => h.exportFile hbase (hfiles file hmem)
      have hsecond : Follows lost together
          (listing.subdirectories.forM (job.exportDirectory depth))
          (listing.subdirectories.forM (job.exportDirectory depth)) fun _ => together :=
        .forM hstays fun directory hmem => ih (hsubdirectories directory hmem)
      exact .from_start htogether (hfirst.bind (fun _ => .forM hstays) fun _ => hsecond)

theorem exportRoot (hbase : job.base.IsPlain) (hpath : job.Carried root) :
    Follows lost together (job.exportRoot root) (job.exportRoot root) fun _ => together := by
  unfold Export.exportRoot
  refine Follows.get_bind fun session second htogether => ?_
  have houtside := h.outside htogether
  dsimp only
  rw [houtside.pathExists_eq hbase hpath, houtside.isDirectory_eq hbase hpath]
  split
  · exact .from_start htogether
      (h.say.never_bind fun _ => (h.counting fun _ => Summary.add_missing _ root).of_never)
  · split
    · exact .from_start htogether (.pure fun _ _ h => h)
    · split
      · exact .from_start htogether (h.exportDirectory hbase _ hpath)
      · exact .from_start htogether (h.exportFile hbase hpath)

end Simulates

end Export

end Snapshot
