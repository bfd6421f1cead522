import Snapshot.Proofs.CutChains
import Snapshot.Proofs.Descents
import Snapshot.Proofs.RootOrder

/-!
# Exports under two spellings

A part of the project can be exported under two spellings of its path. Starting from the same file
system, both exports ask the system for the same, step by step, so they go through the same file
systems and end with the same counts. That the paths stay short enough under both spellings, or too
long under both, has to be known of everything there is to export.
-/

namespace Snapshot

open ExportM FileTree

/-- Whether a path is written like another one, or only respelled. -/
def Path.Resembles (path other : Path) : Prop :=
  path = other ∨ path.Respells other

namespace Export

/-- Whether the system can follow a path of the project under both spellings or under none, and the
path of its copy as well. -/
structure Fits (job : Export) (path other : Path) : Prop where
  input : (job.pathOf other).size ≤ Path.maxSize ↔ (job.pathOf path).size ≤ Path.maxSize
  output : (job.targetOf other).size ≤ Path.maxSize ↔ (job.targetOf path).size ≤ Path.maxSize

instance (job : Export) (path other : Path) : Decidable (job.Fits path other) :=
  decidable_of_iff
    (((job.pathOf other).size ≤ Path.maxSize ↔ (job.pathOf path).size ≤ Path.maxSize) ∧
      ((job.targetOf other).size ≤ Path.maxSize ↔ (job.targetOf path).size ≤ Path.maxSize))
    ⟨fun h => ⟨h.1, h.2⟩, fun h => ⟨h.input, h.output⟩⟩

/-- Whether this holds for all that stands at a path of the project, or below it. -/
def FitsBelow (job : Export) (tree : FileTree) (path other : Path) : Prop :=
  ∀ below entry, tree.get? (job.base ++ (path.names ++ below)) = some entry →
    job.Fits (path.extend below) (other.extend below)

/-- Whether something came up in the project at which spellings of roots part. -/
def Parts (job : Export) (pairs : List (Path × Path)) (session : Session) : Prop :=
  ∃ pair ∈ pairs, ¬job.FitsBelow session.fileSystem.tree pair.1 pair.2

/-- Two exports that have come equally far from a file system. -/
structure Lockstep (start : FileSystem) (session other : Session) : Prop where
  fileSystem_eq : other.fileSystem = session.fileSystem
  written_eq : other.summary.written = session.summary.written
  skipped_eq : other.summary.skipped = session.summary.skipped
  retains : session.fileSystem.Retains start

variable {job : Export} {tree : FileTree} {fs after start : FileSystem} {path other : Path}
  {name : Segment} {entry : Entry} {lost : Session → Prop} {session second : Session}

theorem Fits.symm (h : job.Fits path other) : job.Fits other path :=
  ⟨h.input.symm, h.output.symm⟩

theorem Lockstep.of_eq {same too : Session} (h : Lockstep start session second)
    (hsession : same.fileSystem = session.fileSystem)
    (hsecond : too.fileSystem = second.fileSystem)
    (hwritten : too.summary.written = same.summary.written)
    (hskipped : too.summary.skipped = same.summary.skipped) : Lockstep start same too where
  fileSystem_eq := by rw [hsecond, h.fileSystem_eq, hsession]
  written_eq := hwritten
  skipped_eq := hskipped
  retains := hsession ▸ h.retains

end Export

namespace Path

variable {path other : Path} {name : Segment} {location : Location}

namespace Resembles

theorem names_eq (h : path.Resembles other) : other.names = path.names := by
  rcases h with rfl | h
  · rfl
  · exact h.names_eq

theorem join (h : path.Resembles other) (hname : Hop.ofSegment name = .into name) :
    (path.join (.ofSegment name)).Resembles (other.join (.ofSegment name)) := by
  rcases h with rfl | h
  · exact .inl rfl
  · exact .inr (h.join hname)

theorem goesDown (h : path.Resembles other) (hpath : path.GoesDown) : other.GoesDown := by
  rcases h with rfl | h
  · exact hpath
  · exact h.goesDown_other

end Resembles

theorem endsInName_join_iff {left : Path} (h : path.isAbsolute = false) :
    (left.join path).EndsInName ↔ path.EndsInName := by
  obtain ⟨front, hjoin, -⟩ := exists_hops_join left h
  rw [EndsInName, EndsInName, hjoin, List.getLast?_append_of_ne_nil _ (hops_ne_nil h)]

/-- Read as components, a path down is made of its names. -/
theorem filterMap_ofSegment_eq_names (h : path.GoesDown) :
    path.segments.filterMap Component.ofSegment? = path.names.map .name := by
  have hup := h.up_not_mem
  rw [names]
  rw [hops, body_of_not_isAbsolute h.relative] at hup ⊢
  generalize path.segments = segments at hup
  induction segments with
  | nil => rfl
  | cons segment segments ih =>
      rw [List.map_cons, List.mem_cons, not_or] at hup
      have hrest := ih hup.2
      cases hblank : segment.isBlank with
      | true => rcases Segment.eq_of_isBlank hblank with rfl | rfl <;> exact hrest
      | false =>
          have hdots : segment ≠ Segment.dotDot := fun hdots => hup.1 (by rw [hdots]; rfl)
          have hname : Component.ofSegment? segment = some (.name segment) := by
            simp [Component.ofSegment?, hblank, hdots]
          rw [List.filterMap_cons_some hname, List.map_cons, Hop.ofSegment_eq_into hblank hdots,
            hrest]
          rfl

/-- The file name of a path down is its last name. -/
theorem fileName?_eq_getLast? (h : path.GoesDown) (hne : path.names ≠ []) :
    path.fileName? = path.names.getLast? := by
  have hnames : path.names.map Component.name ≠ [] := mt List.map_eq_nil_iff.1 hne
  rw [fileName?, components_of_relative h.relative, filterMap_ofSegment_eq_names h,
    List.getLast?_append_of_ne_nil _ hnames, List.getLast?_map]
  cases path.names.getLast? <;> rfl

theorem Resembles.fileName?_eq (h : path.Resembles other) (hpath : path.GoesDown) :
    other.fileName? = path.fileName? := by
  rcases h with rfl | h
  · rfl
  · rw [fileName?_eq_getLast? h.goesDown_other (h.names_eq ▸ h.names_ne_nil),
      fileName?_eq_getLast? hpath h.names_ne_nil, h.names_eq]

/-- Below a location both spellings can be exchanged. -/
theorem Respells.variants (h : path.Respells other) (hlocation : location.IsPlain)
    (hsize : ((ofLocation location).join path).size ≤ maxSize)
    (hsizeOther : ((ofLocation location).join other).size ≤ maxSize) :
    ((ofLocation location).join path).Variants ((ofLocation location).join other) where
  isAbsolute := isAbsolute_ofLocation_join
  isAbsolute_other := isAbsolute_ofLocation_join
  up_not_mem := up_not_mem_ofLocation_join hlocation h.goesDown
  up_not_mem_other := up_not_mem_ofLocation_join hlocation h.goesDown_other
  size_le := hsize
  size_le_other := hsizeOther
  names_eq := by
    rw [names_ofLocation_join hlocation h.goesDown_other, h.names_eq,
      names_ofLocation_join hlocation h.goesDown]

theorem Respells.not_endsInDot_join (h : path.Respells other) (left : Path) :
    ¬(left.join path).EndsInDot ∧ ¬(left.join other).EndsInDot := by
  rw [endsInDot_join h.goesDown.relative h.names_ne_nil,
    endsInDot_join h.goesDown_other.relative (h.names_eq ▸ h.names_ne_nil)]
  exact ⟨h.noDot, h.noDot_other⟩

end Path

namespace Export

variable {job : Export} {tree : FileTree} {fs after start : FileSystem} {path other : Path}
  {name : Segment} {entry : Entry} {lost : Session → Prop} {session second : Session}

theorem FitsBelow.join (h : job.FitsBelow tree path other) (hpath : path.GoesDown)
    (hname : Hop.ofSegment name = .into name) :
    job.FitsBelow tree (path.join (.ofSegment name)) (other.join (.ofSegment name)) := by
  intro below entry hentry
  rw [(Path.goesDown_join_ofSegment hpath hname).2, List.append_assoc] at hentry
  exact h (name :: below) entry hentry

theorem FitsBelow.of_retains (h : job.FitsBelow after.tree path other)
    (hretains : after.Retains fs) : job.FitsBelow fs.tree path other := by
  intro below entry hentry
  obtain ⟨found, hfound, -⟩ := hretains.keeps hentry
  exact h below found hfound

/-- What has come up stays there. -/
theorem parts_keeps {α : Type} {part : ExportM α} (pairs : List (Path × Path))
    (h : ∀ fs, Ensures (fun session => session.fileSystem.Retains fs) part
      (fun _ session => session.fileSystem.Retains fs)
      fun _ session => session.fileSystem.Retains fs) :
    Ensures (job.Parts pairs) part (fun _ => job.Parts pairs) fun _ _ => True := by
  refine .of_start fun session hparts => ?_
  obtain ⟨pair, hpair, hnot⟩ := hparts
  refine (((h session.fileSystem).from_session (.refl _)).mono_after ?_).anyhow
  exact fun _ after hretains => ⟨pair, hpair, fun hfits => hnot (hfits.of_retains hretains)⟩

/-! ## What is asked -/

section Requests

variable (hspelled : path.Resembles other) (hfits : job.Fits path other)

include hspelled hfits

theorem Fits.pathOf_parallel : (job.pathOf path).Parallel (job.pathOf other) := by
  rcases hspelled with rfl | hspelled
  · exact .refl _
  · exact hspelled.parallel hfits.input

/-- A directory to copy to is created alike. -/
theorem Fits.createDirectories (hlinks : fs.tree.LinkFree) (htarget : job.target.IsPlain)
    (h : fs.createDirectories (job.targetOf path) = (after, .ok ())) :
    fs.createDirectories (job.targetOf other) = (after, .ok ()) := by
  rcases hspelled with rfl | hspelled
  · exact h
  · have hup := Path.up_not_mem_ofLocation_join htarget hspelled.goesDown
    have hcreatable :=
      FileSystem.creatable_of_createDirectories hlinks Path.isAbsolute_ofLocation_join hup h
    have hsize : (job.targetOf path).size ≤ Path.maxSize := hcreatable.size_le
    have hvariants : (job.targetOf path).Variants (job.targetOf other) :=
      hspelled.variants htarget hsize (hfits.output.2 hsize)
    have hnoDot := hspelled.not_endsInDot_join (.ofLocation job.target)
    exact (FileSystem.createDirectories_eq_of_variants hvariants hnoDot.1 hnoDot.2).trans h

/-- A file is copied alike. -/
theorem Fits.run (htarget : job.target.IsPlain)
    (hends : path = other ∨ path.EndsInName ∧ other.EndsInName) {text : String} {written : Bool}
    (h : FileCopy.run fs (job.pathOf path) (job.targetOf path) text job.config.version =
      (after, .ok written)) (text' : String) :
    FileCopy.run fs (job.pathOf other) (job.targetOf other) text' job.config.version =
      (after, .ok written) := by
  rcases hspelled with rfl | hspelled
  · exact FileCopy.run_eq_ok_of_saves rfl (fun _ _ => id) h text'
  · rcases hends with rfl | ⟨hends, hendsOther⟩
    · exact FileCopy.run_eq_ok_of_saves rfl (fun _ _ => id) h text'
    have hrelative := hspelled.goesDown.relative
    have hrelativeOther := hspelled.goesDown_other.relative
    have hinput : (job.pathOf path).Parallel (job.pathOf other) := hspelled.parallel hfits.input
    have hopen : fs.open? (job.pathOf other) = fs.open? (job.pathOf path) :=
      FileSystem.open?_eq_of_alike hinput
        (hinput.hops (hends.join hrelative) (hendsOther.join hrelativeOther))
    refine FileCopy.run_eq_ok_of_saves hopen (fun content after hsaves => ?_) h text'
    obtain ⟨middle, -, hwrite⟩ := id hsaves
    have hsize : (job.targetOf path).size ≤ Path.maxSize :=
      (FileSystem.acceptable_of_write hwrite).size_le.resolve_left (by simp)
    have hvariants : (job.targetOf path).Variants (job.targetOf other) :=
      hspelled.variants htarget hsize (hfits.output.2 hsize)
    exact hsaves.of_variants hvariants (hends.join hrelative) (hendsOther.join hrelativeOther)

end Requests

/-- What stands right in a directory of the project is asked for alike. -/
theorem alike_join (hspelled : path.Resembles other) (hname : Hop.ofSegment name = .into name)
    (hfits : job.Fits (path.join (.ofSegment name)) (other.join (.ofSegment name))) :
    ((job.pathOf path).join (.ofSegment name)).Parallel
        ((job.pathOf other).join (.ofSegment name)) ∧
      Hop.Alike ((job.pathOf path).join (.ofSegment name)).hops
        ((job.pathOf other).join (.ofSegment name)).hops := by
  rcases hspelled with rfl | hspelled
  · exact ⟨.refl _, .refl _⟩
  · rw [Project.pathOf_join hspelled.goesDown, Project.pathOf_join hspelled.goesDown_other]
    have hjoined := hspelled.join hname
    have hparallel : (job.pathOf (path.join (.ofSegment name))).Parallel
        (job.pathOf (other.join (.ofSegment name))) := hjoined.parallel hfits.input
    have hends (path : Path) : (path.join (.ofSegment name)).EndsInName :=
      Path.endsInName_join_ofSegment hname
    exact ⟨hparallel, hparallel.hops ((hends path).join hjoined.goesDown.relative)
      ((hends other).join hjoined.goesDown_other.relative)⟩

/-- What is listed in a directory is spelled alike, and its paths fit. -/
theorem FitsBelow.next (hbelow : job.FitsBelow tree path other) (hspelled : path.Resembles other)
    (hthere : name ∈ tree.names (job.base ++ path.names)) :
    name.IsName ∧ (path.join (.ofSegment name)).Resembles (other.join (.ofSegment name)) ∧
      job.Fits (path.join (.ofSegment name)) (other.join (.ofSegment name)) := by
  have hname := isName_of_mem_names hthere
  obtain ⟨entry, hentry⟩ := Option.isSome_iff_exists.1 (mem_names_iff.1 hthere)
  rw [List.append_assoc] at hentry
  exact ⟨hname, hspelled.join hname.ofSegment_eq, hbelow [name] entry hentry⟩

/-- A directory of the project is listed alike: the same names are added to both spellings. -/
theorem exists_read_respelled {listing : Listing} (hspelled : path.Resembles other)
    (hfits : job.Fits path other) (hbase : job.base.IsPlain) (hpath : path.GoesDown)
    (hlinks : fs.tree.LinkFree) (hbelow : job.FitsBelow fs.tree path other)
    (h : Listing.read job.toProject job.target fs path = .ok listing) :
    ∃ files subdirectories : List Segment,
      (∀ name, name ∈ files ∨ name ∈ subdirectories →
        name ∈ fs.tree.names (job.base ++ path.names)) ∧
      listing =
        { files := files.map fun name => path.join (.ofSegment name)
          subdirectories := subdirectories.map fun name => path.join (.ofSegment name) } ∧
      Listing.read job.toProject job.target fs other =
        .ok
          { files := files.map fun name => other.join (.ofSegment name)
            subdirectories := subdirectories.map fun name => other.join (.ofSegment name) } := by
  obtain ⟨habsolute, hup, hnames⟩ := Project.pathOf_goesDown hbase hpath
  unfold Listing.read at h ⊢
  split at h
  · next names hlist =>
      rw [FileSystem.list_of_parallel (hfits.pathOf_parallel hspelled) hlist]
      obtain ⟨-, rfl⟩ := (FileSystem.list_eq_ok_iff hlinks habsolute hup).1 hlist
      let kept := (Listing.sorted (fs.tree.names (job.pathOf path).names)).filter
        fun name => !job.config.isIgnored name
      have hkept {name : Segment} (hmem : name ∈ kept) :
          name ∈ fs.tree.names (job.base ++ path.names) := by
        rw [← hnames]
        exact List.mem_mergeSort.1 (List.mem_filter.1 hmem).1
      have halike {name : Segment} (hmem : name ∈ kept) :
          ((job.pathOf path).join (.ofSegment name)).Parallel
              ((job.pathOf other).join (.ofSegment name)) ∧
            Hop.Alike ((job.pathOf path).join (.ofSegment name)).hops
              ((job.pathOf other).join (.ofSegment name)).hops := by
        obtain ⟨hname, -, hfits⟩ := hbelow.next hspelled (hkept hmem)
        exact alike_join hspelled hname.ofSegment_eq hfits
      refine ⟨_, _, fun name hmem => hkept ?_, (Except.ok.inj h).symm, ?_⟩
      · exact hmem.elim (fun h => (List.mem_filter.1 h).1) fun h => (List.mem_filter.1 h).1
      · unfold Listing.ofNames
        refine congrArg Except.ok (congrArg₂ Listing.mk ?_ ?_)
        · refine congrArg (List.map _) (List.filter_congr fun name hmem => ?_)
          obtain ⟨hparallel, hhops⟩ := halike hmem
          exact FileSystem.isFile_eq_of_alike hparallel hhops
        · refine congrArg (List.map _) (List.filter_congr fun name hmem => ?_)
          obtain ⟨hparallel, hhops⟩ := halike hmem
          exact congrArg₂ (fun isDirectory leads => isDirectory && !leads)
            (FileSystem.isDirectory_eq_of_parallel hparallel)
            (FileSystem.leadsInto_eq_of_alike hparallel hhops _)
  · cases h

/-! ## What is done -/

/-- Saying that a part has failed changes nothing where it goes well. -/
theorem sayingFailure_eq_ok_iff {α : Type} {part : ExportM α} {a : α} {done : Session} :
    job.sayingFailure part session = .ok a done ↔ part session = .ok a done := by
  change EStateM.tryCatch part _ session = _ ↔ _
  unfold EStateM.tryCatch
  cases hpart : part session with
  | ok b middle => rfl
  | error report middle =>
      dsimp only
      refine iff_of_false (fun hdone => ?_) (by simp)
      obtain ⟨_, _, -, hthrow⟩ := bind_eq_ok.1 hdone
      cases hthrow

theorem say_lockstep {status status' : Status} :
    Follows never (Lockstep start) (say job.config status) (say job.config status')
      fun _ => Lockstep start := by
  refine follows_say fun _ _ _ _ hlockstep => ?_
  exact hlockstep.of_eq rfl rfl hlockstep.written_eq hlockstep.skipped_eq

/-- Counts that go up alike stay alike, and missing roots are not compared. -/
theorem count_lockstep {update update' : Summary → Summary}
    (hwritten : ∀ summary summary', summary'.written = summary.written →
      (update' summary').written = (update summary).written)
    (hskipped : ∀ summary summary', summary'.skipped = summary.skipped →
      (update' summary').skipped = (update summary).skipped) :
    Follows never (Lockstep start) (ExportM.count update) (ExportM.count update')
      fun _ => Lockstep start :=
  follows_modify fun _ _ h =>
    h.of_eq rfl rfl (hwritten _ _ h.written_eq) (hskipped _ _ h.skipped_eq)

theorem copyFile_lockstep (htarget : job.target.IsPlain) (hspelled : path.Resembles other)
    (hfits : job.Fits path other)
    (hends : path = other ∨ path.EndsInName ∧ other.EndsInName) :
    Follows never (Lockstep start) (job.copyFile path) (job.copyFile other)
      fun _ => Lockstep start := by
  intro session second hlockstep written done hdone _
  obtain ⟨inputs, hrun⟩ := job.copyFile_eq_run path session
  obtain ⟨inputs', hrun'⟩ := job.copyFile_eq_run other second
  rw [hrun] at hdone
  rw [hrun', hlockstep.fileSystem_eq]
  cases hcopied : FileCopy.run session.fileSystem (job.pathOf path) (job.targetOf path) path.text
      job.config.version with
  | mk after outcome =>
      rw [hcopied] at hdone
      cases outcome with
      | error report => cases hdone
      | ok more =>
          cases hdone
          rw [hfits.run hspelled htarget hends hcopied]
          refine ⟨_, rfl, rfl, hlockstep.written_eq, hlockstep.skipped_eq, ?_⟩
          exact (FileCopy.retains_of_run hcopied).trans hlockstep.retains

theorem exportFile_lockstep (htarget : job.target.IsPlain) (hspelled : path.Resembles other)
    (hfits : job.Fits path other)
    (hends : path = other ∨ path.EndsInName ∧ other.EndsInName) :
    Follows never (Lockstep start) (job.exportFile path) (job.exportFile other)
      fun _ => Lockstep start := by
  unfold Export.exportFile
  refine say_lockstep.never_bind fun _ => ?_
  refine (sayingFailure_follows (Follows.tryCatch
    (copyFile_lockstep htarget hspelled hfits hends) fun _ _ _ _ h => by cases h)).never_bind
      fun written => ?_
  split
  · exact count_lockstep (fun _ _ h => congrArg (· + 1) h) fun _ _ h => h
  · refine Follows.never_bind (count_lockstep ?_ ?_) fun _ => say_lockstep
    · exact fun _ _ h => h
    · exact fun _ _ h => congrArg (· + 1) h

theorem createTarget_lockstep (hlinks : start.tree.LinkFree) (htarget : job.target.IsPlain)
    (hspelled : path.Resembles other) (hfits : job.Fits path other) :
    Follows never (Lockstep start) (job.createTarget path) (job.createTarget other)
      fun _ => Lockstep start := by
  refine follows_change fun session second fs done hlockstep hrequest _ => ?_
  cases hfirst : session.fileSystem.createDirectories (job.targetOf path) with
  | mk after outcome =>
      rw [hfirst] at hrequest
      obtain ⟨rfl, hok⟩ := Prod.mk.inj hrequest
      rw [mapError_eq_ok.1 hok] at hfirst
      have hretains := FileSystem.Retains.createDirectories session.fileSystem (job.targetOf path)
      rw [hfirst] at hretains
      refine ⟨after, ?_, rfl, hlockstep.written_eq, hlockstep.skipped_eq,
        hretains.trans hlockstep.retains⟩
      rw [hlockstep.fileSystem_eq, hfits.createDirectories hspelled
        (hlockstep.retains.linkFree hlinks) htarget hfirst]
      rfl

/-- The same names are gone through below two spellings. -/
theorem forM_join_lockstep {names : List Segment} {body : Path → ExportM Unit}
    (hstays : ∀ name ∈ names, Ensures lost (body (path.join (.ofSegment name))) (fun _ => lost)
      fun _ _ => True)
    (h : ∀ name ∈ names, Follows lost (Lockstep start) (body (path.join (.ofSegment name)))
      (body (other.join (.ofSegment name))) fun _ => Lockstep start) :
    Follows lost (Lockstep start)
      ((names.map fun name => path.join (.ofSegment name)).forM body)
      ((names.map fun name => other.join (.ofSegment name)).forM body)
      fun _ => Lockstep start := by
  let joined (next next' : Path) : Prop :=
    ∃ name ∈ names, next = path.join (.ofSegment name) ∧ next' = other.join (.ofSegment name)
  have hjoined : List.Forall₂ joined (names.map fun name => path.join (.ofSegment name))
      (names.map fun name => other.join (.ofSegment name)) := by
    rw [List.forall₂_map_left_iff, List.forall₂_map_right_iff]
    exact List.forall₂_same.2 fun name hmem => ⟨name, hmem, rfl, rfl⟩
  refine .forM_forall₂ hjoined (by simpa using hstays) fun next next' hpair => ?_
  obtain ⟨name, hmem, rfl, rfl⟩ := hpair
  exact h name hmem

theorem exportFiles_lockstep {files : List Segment} (htarget : job.target.IsPlain)
    (hfiles : ∀ name ∈ files, name.IsName ∧
      (path.join (.ofSegment name)).Resembles (other.join (.ofSegment name)) ∧
        job.Fits (path.join (.ofSegment name)) (other.join (.ofSegment name))) :
    Follows never (Lockstep start)
      ((files.map fun name => path.join (.ofSegment name)).forM job.exportFile)
      ((files.map fun name => other.join (.ofSegment name)).forM job.exportFile)
      fun _ => Lockstep start := by
  refine forM_join_lockstep (fun _ _ _ => False.elim) fun name hmem => ?_
  obtain ⟨hname, hspelled, hfits⟩ := hfiles name hmem
  have hends (path : Path) : (path.join (.ofSegment name)).EndsInName :=
    Path.endsInName_join_ofSegment hname.ofSegment_eq
  exact exportFile_lockstep htarget hspelled hfits (.inr ⟨hends path, hends other⟩)

variable {pairs : List (Path × Path)}

/-- A directory is exported alike under both spellings, as long as the paths in it do not part. The
induction is on the levels; what is listed at one of them is spelled alike at the next one. -/
theorem exportDirectory_lockstep (hlinks : start.tree.LinkFree) (htarget : job.target.IsPlain)
    (hbase : job.base.IsPlain) (depth : Nat)
    (hpath : job.Visits path) (hspelled : path.Resembles other) (hfits : job.Fits path other)
    (hbelow : ∀ session, ¬job.Parts pairs session →
      job.FitsBelow session.fileSystem.tree path other) :
    Follows (job.Parts pairs) (Lockstep start) (job.exportDirectory depth path)
      (job.exportDirectory depth other) fun _ => Lockstep start := by
  induction depth generalizing path other with
  | zero => exact .of_throw
  | succ depth ih =>
      rw [Export.exportDirectory, Export.exportDirectory]
      refine say_lockstep.never_bind fun _ =>
        (createTarget_lockstep hlinks htarget hspelled hfits).never_bind fun _ => ?_
      have hstays {path : Path} (hpath : job.Visits path) :
          Ensures (job.Parts pairs) (job.exportDirectory depth path) (fun _ => job.Parts pairs)
            fun _ _ => True :=
        parts_keeps pairs fun fs => (job.keeps_retains fs).exportDirectory depth hpath
      refine .of_not_lost (parts_keeps pairs fun fs => (job.keeps_retains fs).exportListing hpath
        fun path hpath => (job.keeps_retains fs).exportDirectory depth hpath) ?_
      intro session second hstart a done hfirst hlost
      obtain ⟨hlockstep, hhere⟩ := hstart
      obtain ⟨listing, middle, hscan, hexported⟩ := bind_eq_ok.1 hfirst
      obtain ⟨hread, rfl⟩ := query_eq_ok.1 (sayingFailure_eq_ok_iff.1 hscan)
      obtain ⟨files, subdirectories, hnames, rfl, hreadOther⟩ :=
        exists_read_respelled hspelled hfits hbase hpath.1 (hlockstep.retains.linkFree hlinks)
          (hbelow session hhere) (mapError_eq_ok.1 hread)
      have hnext (name : Segment) (hmem : name ∈ files ∨ name ∈ subdirectories) :=
        (hbelow session hhere).next hspelled (hnames name hmem)
      have hfiles : Follows never (Lockstep start) _ _ fun _ => Lockstep start :=
        exportFiles_lockstep htarget fun name hmem => hnext name (.inl hmem)
      have hsubdirectories : Follows (job.Parts pairs) (Lockstep start)
          ((subdirectories.map fun name => path.join (.ofSegment name)).forM
            (job.exportDirectory depth))
          ((subdirectories.map fun name => other.join (.ofSegment name)).forM
            (job.exportDirectory depth))
          fun _ => Lockstep start := by
        refine forM_join_lockstep (fun name hmem => ?_) fun name hmem => ?_
        · exact hstays (hpath.join (hnext name (.inr hmem)).1)
        · obtain ⟨hname, hspelled, hfits⟩ := hnext name (.inr hmem)
          exact ih (hpath.join hname) hspelled hfits fun session hsession =>
            (hbelow session hsession).join hpath.1 hname.ofSegment_eq
      obtain ⟨also, hloops, hend⟩ := (hfiles.never_bind fun _ => hsubdirectories) session second
        hlockstep a done hexported hlost
      rw [← hlockstep.fileSystem_eq] at hreadOther
      refine ⟨also, bind_eq_ok.2 ⟨⟨_, _⟩, second, ?_, hloops⟩, hend⟩
      exact sayingFailure_eq_ok_iff.2 (query_eq_ok.2 ⟨mapError_eq_ok.2 hreadOther, rfl⟩)

/-! ## Roots -/

/-- Whether two spellings of a root can be told apart in a tree by their ends: a slash at the end
asks for a directory, and it does not matter where one stands. -/
def EndsAlike (job : Export) (tree : FileTree) (root other : Path) : Prop :=
  (root.EndsInName ↔ other.EndsInName) ∨ tree.get? (job.base ++ root.names) = some .directory

theorem finds_respelled_iff {root : Path} (hbase : job.base.IsPlain)
    (hspelled : root.Respells other) (hfits : job.FitsBelow tree root other)
    (hends : job.EndsAlike tree root other) :
    tree.Finds (job.pathOf other) entry ↔ tree.Finds (job.pathOf root) entry := by
  obtain ⟨-, -, hnames⟩ := Project.pathOf_goesDown hbase hspelled.goesDown
  obtain ⟨-, -, hnamesOther⟩ := Project.pathOf_goesDown hbase hspelled.goesDown_other
  rw [hspelled.names_eq, ← hnames] at hnamesOther
  have hsize (hentry : tree.get? (job.pathOf root).names = some entry) :
      (job.pathOf other).size ≤ Path.maxSize ↔ (job.pathOf root).size ≤ Path.maxSize :=
    (hfits [] entry (by rwa [List.append_nil, ← hnames])).input
  have hlast (hentry : tree.get? (job.pathOf root).names = some entry) :
      entry = .directory ∨ (job.pathOf other).EndsInName ↔
        entry = .directory ∨ (job.pathOf root).EndsInName := by
    rcases hends with hends | hdirectory
    · exact or_congr_right ((Path.endsInName_join_iff hspelled.goesDown_other.relative).trans
        (hends.symm.trans (Path.endsInName_join_iff hspelled.goesDown.relative).symm))
    · rw [← hnames, hentry] at hdirectory
      exact iff_of_true (.inl (Option.some.inj hdirectory)) (.inl (Option.some.inj hdirectory))
  constructor
  · rintro ⟨hfits, hentry, hend⟩
    rw [hnamesOther] at hentry
    exact ⟨(hsize hentry).1 hfits, hentry, (hlast hentry).1 hend⟩
  · rintro ⟨hfits, hentry, hend⟩
    exact ⟨(hsize hentry).2 hfits, hnamesOther ▸ hentry, (hlast hentry).2 hend⟩

theorem fits_of_not_parts (hpair : (path, other) ∈ pairs) (h : ¬job.Parts pairs session) :
    job.FitsBelow session.fileSystem.tree path other := by
  by_contra hnot
  exact h ⟨_, hpair, hnot⟩

/-- What is asked about a root has the same answers under both spellings. -/
theorem found_respelled {root : Path} (hlinks : fs.tree.LinkFree) (hbase : job.base.IsPlain)
    (hroot : root.GoesDown) (hfits : job.FitsBelow fs.tree root other)
    (hspelled : root = other ∨ root.Respells other ∧ job.EndsAlike fs.tree root other) :
    (∀ entry, fs.tree.Finds (job.pathOf other) entry ↔ fs.tree.Finds (job.pathOf root) entry) ∧
      fs.pathExists (job.pathOf other) = fs.pathExists (job.pathOf root) ∧
        fs.isDirectory (job.pathOf other) = fs.isDirectory (job.pathOf root) := by
  rcases hspelled with rfl | ⟨hspelled, hends⟩
  · exact ⟨fun _ => Iff.rfl, rfl, rfl⟩
  have hfinds (entry : Entry) :
      fs.tree.Finds (job.pathOf other) entry ↔ fs.tree.Finds (job.pathOf root) entry :=
    finds_respelled_iff hbase hspelled hfits hends
  obtain ⟨habsolute, hup, -⟩ := Project.pathOf_goesDown hbase hroot
  obtain ⟨habsoluteOther, hupOther, -⟩ := Project.pathOf_goesDown hbase hspelled.goesDown_other
  refine ⟨hfinds, Bool.eq_iff_iff.2 ?_, Bool.eq_iff_iff.2 ?_⟩
  · rw [FileSystem.pathExists_iff hlinks habsoluteOther hupOther,
      FileSystem.pathExists_iff hlinks habsolute hup]
    exact exists_congr hfinds
  · rw [FileSystem.isDirectory_iff hlinks habsoluteOther hupOther,
      FileSystem.isDirectory_iff hlinks habsolute hup]
    exact hfinds .directory

/-- A root is exported alike under both spellings, as long as the paths in it do not part. -/
theorem exportRoot_lockstep {root : Path} (hlinks : start.tree.LinkFree)
    (hbase : job.base.IsPlain) (htarget : job.target.IsPlain) (hroot : job.Visits root)
    (hpair : (root, other) ∈ pairs)
    (hspelled : root = other ∨ root.Respells other ∧ job.EndsAlike start.tree root other) :
    Follows (job.Parts pairs) (Lockstep start) (job.exportRoot root) (job.exportRoot other)
      fun _ => Lockstep start := by
  have hresembles : root.Resembles other := hspelled.imp_right And.left
  refine .of_not_lost (parts_keeps pairs fun fs => (job.keeps_retains fs).exportRoot hroot) ?_
  unfold Export.exportRoot
  refine Follows.get_bind fun session second hstart => ?_
  obtain ⟨hlockstep, hhere⟩ := hstart
  have hlinksHere := hlockstep.retains.linkFree hlinks
  have hbelow := fits_of_not_parts hpair hhere
  obtain ⟨hfinds, hexists, hdirectory⟩ := found_respelled hlinksHere hbase hroot.1 hbelow
    (hspelled.imp_right <| And.imp_right (·.imp_right hlockstep.retains.directories))
  obtain ⟨habsolute, hup, hnames⟩ := Project.pathOf_goesDown hbase hroot.1
  dsimp only
  rw [hlockstep.fileSystem_eq, hexists, hdirectory, hresembles.fileName?_eq hroot.1]
  split
  · refine .from_start hlockstep (say_lockstep.never_bind fun _ => ?_).of_never
    exact count_lockstep (fun _ _ h => h) fun _ _ h => h
  next hthere =>
  -- something stands there, and so the lengths are known to fit
  obtain ⟨entry, hentry⟩ := (FileSystem.pathExists_iff hlinksHere habsolute hup).1
    (by simpa using hthere)
  have hfits : job.Fits root other := by
    refine hbelow [] entry ?_
    rw [List.append_nil, ← hnames]
    exact hentry.get?
  split
  · exact .from_start hlockstep (.pure fun _ _ h => h)
  · split
    · exact .from_start hlockstep (exportDirectory_lockstep hlinks htarget hbase _ hroot hresembles
        hfits fun _ => fits_of_not_parts hpair)
    · next hfile =>
        -- a file is found only under its name
        have hne : entry ≠ .directory := fun heq => hfile
          ((FileSystem.isDirectory_iff hlinksHere habsolute hup).2 (heq ▸ hentry))
        have hends := hentry.ends.resolve_left hne
        have hendsOther := ((hfinds entry).2 hentry).ends.resolve_left hne
        have hnamed : root.EndsInName ∧ other.EndsInName :=
          ⟨(Path.endsInName_join_iff hroot.1.relative).1 hends,
            (Path.endsInName_join_iff (hresembles.goesDown hroot.1).relative).1 hendsOther⟩
        exact .from_start hlockstep
          (exportFile_lockstep htarget hresembles hfits (.inr hnamed)).of_never

end Export

end Snapshot
