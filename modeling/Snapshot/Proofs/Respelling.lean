import Snapshot.Proofs.Normalization
import Snapshot.Proofs.TwoSpellings

/-!
# Destinations made ready for respelled roots

A root may be written with more slashes and more dots than it needs. The check of the settings looks
at names, while the system is handed the roots as they are written, and clears the destination of
them. `Config.Respells` says which spellings the system takes for the same: none of them ends in a
dot, their paths are short enough under both or too long under both, and a slash at the end is asked
of a directory. For these the destination is made ready in the same way.
-/

namespace Snapshot

open ExportM FileTree

namespace Path

variable {path other left : Path}

/-- What goes down by at least one name is allowed as a root. -/
theorem isDescent_of_goesDown (h : path.GoesDown) (hne : path.names ≠ []) : path.IsDescent := by
  have hbody := body_of_not_isAbsolute h.relative
  obtain ⟨name, hname⟩ := List.exists_mem_of_ne_nil _ hne
  obtain ⟨hop, hhop, hinto⟩ := List.mem_filterMap.1 hname
  obtain ⟨segment, hmem, rfl⟩ := List.mem_map.1 hhop
  refine isDescent_iff.2 ⟨h.relative, fun hdots => h.up_not_mem ?_, segment, hbody ▸ hmem, ?_⟩
  · rw [← hbody] at hdots
    exact List.mem_map.2 ⟨_, hdots, rfl⟩
  · cases hblank : segment.isBlank with
    | false => rfl
    | true => rcases Segment.eq_of_isBlank hblank with rfl | rfl <;> cases hinto

/-- A path down ends in a name, or it asks for a directory. -/
theorem endsIdle_eq_false_iff (h : path.GoesDown) :
    Hop.endsIdle path.hops = false ↔ path.EndsInName := by
  refine ⟨fun hends => ?_, endsIdle_of_endsInName⟩
  obtain ⟨hop, hlast⟩ :=
    Option.isSome_iff_exists.1 (List.getLast?_isSome.2 (hops_ne_nil h.relative))
  rw [Hop.endsIdle, hlast] at hends
  cases hop with
  | slash | dot => cases hends
  | up => exact absurd (List.mem_of_getLast? hlast) h.up_not_mem
  | into name => exact ⟨name, hlast⟩

theorem endsIdle_hops_join (h : path.isAbsolute = false) :
    Hop.endsIdle (left.join path).hops = Hop.endsIdle path.hops := by
  obtain ⟨front, hjoin, -⟩ := exists_hops_join left h
  rw [hjoin, Hop.endsIdle_append (hops_ne_nil h)]

/-- After any path, spellings that both end in a name or both do not are alike. -/
theorem Respells.alike (h : path.Respells other) (hends : path.EndsInName ↔ other.EndsInName)
    (left : Path) : Hop.Alike (left.join path).hops (left.join other).hops where
  moves_eq := h.moves_hops_join left
  endsIdle_eq := by
    have hfalse : Hop.endsIdle other.hops = false ↔ Hop.endsIdle path.hops = false :=
      (endsIdle_eq_false_iff h.goesDown_other).trans
        (hends.symm.trans (endsIdle_eq_false_iff h.goesDown).symm)
    rw [endsIdle_hops_join h.goesDown_other.relative, endsIdle_hops_join h.goesDown.relative]
    exact Bool.eq_iff_iff.2 (not_iff_not.1 (by simpa using hfalse))

end Path

namespace Config

/-- Where a slash at the end of a root is asked for nothing: the root is a directory of the project
and is not removed together with what the destination holds, and nothing else than a directory
stands at its place in the destination. -/
structure Solid (config : Config) (fs : FileSystem) (names : Location) : Prop where
  directory : fs.tree.get? (fs.place config.baseDirectory ++ names) = some .directory
  spared : ∀ root ∈ config.roots,
    ¬fs.place config.destination ++ root.names <+: fs.place config.baseDirectory ++ names
  replaced : ∀ entry, fs.tree.get? (fs.place config.destination ++ names) = some entry →
    entry = .directory

/-- Whether a root is only respelled, and the system is asked for nothing else by that. -/
structure Respells (config : Config) (fs : FileSystem) (root other : Path) : Prop
    extends root.Respells other where
  fits : (config.destination.join other).size ≤ Path.maxSize ↔
    (config.destination.join root).size ≤ Path.maxSize
  ends : (root.EndsInName ↔ other.EndsInName) ∨ config.Solid fs root.names

/-- Whether some roots are those of the settings, as they are or respelled. -/
def SpellsRoots (config : Config) (fs : FileSystem) (roots : List Path) : Prop :=
  List.Forall₂ (fun root other => root = other ∨ config.Respells fs root other)
    config.roots roots

namespace SpellsRoots

variable {config : Config} {fs : FileSystem} {root other : Path} {roots : List Path}

theorem of_mem_zip (h : config.SpellsRoots fs roots)
    (hmem : (root, other) ∈ config.roots.zip roots) :
    root = other ∨ config.Respells fs root other :=
  (List.forall₂_iff_zip.1 h).2 hmem

/-- Each of the roots is a spelling of one in the settings. -/
theorem exists_mem_zip (h : config.SpellsRoots fs roots) (hother : other ∈ roots) :
    ∃ root, (root, other) ∈ config.roots.zip roots := by
  have hseconds : (config.roots.zip roots).map Prod.snd = roots :=
    List.map_snd_zip h.length_eq.ge
  rw [← hseconds] at hother
  obtain ⟨pair, hpair, rfl⟩ := List.mem_map.1 hother
  exact ⟨pair.1, hpair⟩

/-- The roots in the order of the settings, and the ones that they are spelled as. -/
theorem zipped (h : config.SpellsRoots fs roots) :
    List.Forall₂ (fun root other => (root, other) ∈ config.roots.zip roots)
      config.roots roots :=
  List.forall₂_iff_zip.2 ⟨h.length_eq, id⟩

end SpellsRoots

end Config

namespace FileSystem

variable {fs : FileSystem} {path other : Path} {location : Location}

/-- The location of a path from the root depends on its moves, if a directory is there or the other
path ends alike. How long the two are does not matter. -/
theorem canonicalize_of_moves (hpath : path.isAbsolute) (hother : other.isAbsolute)
    (hnul : other.hasNul = path.hasNul) (hmoves : Hop.moves other.hops = Hop.moves path.hops)
    (hends : Hop.Alike path.hops other.hops ∨ fs.tree.get? location = some .directory)
    (h : fs.canonicalize path = .ok location) : fs.canonicalize other = .ok location := by
  obtain ⟨entry, hfind⟩ := find_spell_of_canonicalize h
  obtain ⟨hnulPath, -, hwalk⟩ :=
    (locate_eq_ok_iff_of_isAbsolute hpath).1 (find_eq_ok_iff.1 hfind)
  have hwalkOther : fs.tree.walk .spell linkLimit [] other.hops = .ok (.taken location entry) := by
    rcases hends with hends | hdirectory
    · rwa [walk_eq_of_alike hends (by simp)]
    · have hentry := get?_of_find hfind
      rw [hdirectory] at hentry
      cases hentry
      exact walk_directory_of_moves hmoves (by simp) (by simp) hwalk
  exact canonicalize_of_walk hother (hnul.trans hnulPath) hwalkOther

/-- Whether a request finds the same under both paths, or nothing under either. -/
def FindsAlike (fs : FileSystem) (path other : Path) : Prop :=
  fs.locate .keep other = fs.locate .keep path ∨
    (∃ fault, fs.entryAt .keep path = .error fault) ∧ ∃ fault, fs.entryAt .keep other = .error fault

end FileSystem

namespace Project

variable {project : Project} {fs : FileSystem} {root other : Path} {roots : List Path}

/-- The same project with other roots. -/
def withRoots (project : Project) (roots : List Path) : Project :=
  { project with config := { project.config with roots } }

@[simp] theorem withRoots_destination :
    (project.withRoots roots).config.destination = project.config.destination :=
  rfl

/-- A root passes the check if it is beside the destination, and the project beside its place there.
-/
theorem checkRoot_of_outside (hlinks : fs.tree.LinkFree) {resolved : Location}
    (hresolved : resolved.IsPlain) (hroot : root.GoesDown)
    (houtside : ∀ location, fs.canonicalize (project.pathOf root) = .ok location →
      ¬location <+: resolved)
    (hspares : ¬resolved ++ root.names <+: project.base) :
    project.checkRoot fs resolved root = .ok () := by
  have htarget : checkRoot.checkTarget project fs resolved root = .ok () := by
    have hleads : (((Path.ofLocation resolved).join root).isAbsolute || fs.hasCurrent) = true := by
      rw [Path.isAbsolute_ofLocation_join, Bool.true_or]
    rw [checkRoot.checkTarget, FileSystem.resolveLenient_eq_place hlinks hleads, FileSystem.place,
      Path.placeFrom_ofLocation_join hresolved hroot]
    exact if_neg hspares
  unfold checkRoot
  split
  · next location hlocation => rwa [if_neg (houtside location hlocation)]
  · exact htarget

theorem checkRoot_respelled (hlinks : fs.tree.LinkFree)
    (hbase : project.base = fs.place project.config.baseDirectory)
    (hspelled : project.config.Respells fs root other) {resolved : Location}
    (hresolved : resolved.IsPlain) (h : project.checkRoot fs resolved root = .ok ()) :
    (project.withRoots roots).checkRoot fs resolved other = .ok () := by
  obtain ⟨houtside, hspares⟩ := checkRoot_eq_ok hlinks hresolved hspelled.goesDown h
  apply checkRoot_of_outside hlinks hresolved hspelled.goesDown_other
  · intro location (hlocation : fs.canonicalize (project.pathOf other) = .ok location)
    have hplain : project.base.IsPlain := hbase ▸ fs.isPlain_place _
    apply houtside
    refine FileSystem.canonicalize_of_moves Path.isAbsolute_ofLocation_join
      Path.isAbsolute_ofLocation_join
      (hspelled.symm.hasNul_join _) (hspelled.symm.moves_hops_join _) ?_ hlocation
    refine hspelled.ends.imp (fun hends => hspelled.symm.alike hends.symm _) fun hsolid => ?_
    obtain ⟨rfl, -⟩ := FileSystem.canonicalize_holds hlinks
      fs.current.isLeftOf_append_replicate hlocation
    rw [pathOf, Path.placeFrom_ofLocation_join hplain hspelled.goesDown_other, hspelled.names_eq]
    exact hbase ▸ hsolid.directory
  · rw [hspelled.names_eq]
    exact hspares

/-! ## Clearing the destination -/

/-- Two sessions in which roots have been removed from the same file system. -/
structure ClearedAlike (project : Project) (start : FileSystem) (session second : Session) :
    Prop where
  fileSystem_eq : second.fileSystem = session.fileSystem
  summary_eq : second.summary = session.summary
  losing : project.Losing start session.fileSystem

section Clearing

variable {start : FileSystem} (hlinks : start.tree.LinkFree)
  (hleads : (project.config.destination.isAbsolute || start.hasCurrent) = true)
  (hlosing : project.Losing start fs)

include hlinks hleads hlosing

/-- Where only directories can stand, nothing else is found. -/
theorem directory_of_entryAt (hroot : root.GoesDown) {entry : Entry}
    (honly : ∀ entry, start.tree.get? (start.place project.config.destination ++ root.names) =
      some entry → entry = .directory)
    (h : fs.entryAt .keep (project.config.destination.join root) = .ok entry) :
    entry = .directory := by
  unfold FileSystem.entryAt at h
  cases hspot : fs.locate .keep (project.config.destination.join root) with
  | error fault =>
      rw [hspot] at h
      cases h
  | ok spot =>
      rw [hspot] at h
      cases spot with
      | free location => cases h
      | removed => exact (Except.ok.inj h).symm
      | taken location found =>
          obtain rfl : found = entry := Except.ok.inj h
          obtain ⟨origin, horigin, hplaces⟩ := start.exists_isLeftOf
          obtain ⟨rfl, hentry⟩ := FileSystem.find_holds hlinks horigin
            (hlosing.find (FileSystem.find_eq_ok_iff.2 hspot))
          rw [Path.placeFrom_join hroot.relative, hplaces _ hleads,
            Location.follow_of_not_up hroot.up_not_mem, ← Path.names] at hentry
          exact honly _ hentry

/-- Both spellings of a root lead to the same in the destination, or to nothing. -/
theorem findsAlike_of_respells (hspelled : project.config.Respells start root other) :
    fs.FindsAlike (project.config.destination.join root)
      (project.config.destination.join other) := by
  have hparallel := hspelled.parallel hspelled.fits
  rcases hspelled.ends with hends | hsolid
  · exact .inl (FileSystem.locate_eq_of_alike hparallel (hspelled.alike hends _) (by simp))
  · have hlinksHere : fs.tree.LinkFree := fun location target hlink =>
      hlinks location target (hlosing.old hlink)
    -- a directory is found with a slash at the end as well as without one
    have hfound {left right : Path} (hleft : left.GoesDown) (hnames : left.names = root.names)
        (hparallel : (project.config.destination.join left).Parallel
          (project.config.destination.join right)) {entry : Entry}
        (h : fs.entryAt .keep (project.config.destination.join left) = .ok entry) :
        fs.locate .keep (project.config.destination.join right) =
          fs.locate .keep (project.config.destination.join left) := by
      obtain rfl : entry = .directory :=
        directory_of_entryAt hlinks hleads hlosing hleft (hnames ▸ hsolid.replaced) h
      exact FileSystem.locate_eq_of_directory hparallel (by simp) (fun _ => hlinksHere) h
    cases hroot : fs.entryAt .keep (project.config.destination.join root) with
    | ok entry => exact .inl (hfound hspelled.goesDown rfl hparallel hroot)
    | error fault =>
        cases hother : fs.entryAt .keep (project.config.destination.join other) with
        | ok entry =>
            exact .inl (hfound hspelled.goesDown_other hspelled.names_eq hparallel.symm hother).symm
        | error fault' => exact .inr ⟨⟨fault, hroot⟩, fault', hother⟩

end Clearing

/-- What is found alike is removed alike. -/
theorem removeAll_respelled {start : FileSystem}
    (hspelled : root = other ∨ project.config.Respells start root other)
    (hlocate : fs.locate .keep (project.config.destination.join other) =
      fs.locate .keep (project.config.destination.join root)) :
    fs.removeAll (project.config.destination.join other) =
      fs.removeAll (project.config.destination.join root) := by
  rcases hspelled with rfl | hspelled
  · rfl
  · obtain ⟨hnoDot, hnoDotOther⟩ := hspelled.not_endsInDot_join project.config.destination
    have hparallel := hspelled.parallel hspelled.fits
    refine FileSystem.removeAll_eq_of_parallel hparallel hnoDot hnoDotOther ?_
    rw [FileSystem.find, FileSystem.find, hlocate]

/-- What is found of a root is removed under both spellings. -/
theorem change_removeAll_respelled {start : FileSystem} {session : Session}
    {toReport toReport' : Fault → Report} (hroot : root ∈ project.config.roots)
    (hspelled : root = other ∨ project.config.Respells start root other)
    (hlocate : session.fileSystem.locate .keep (project.config.destination.join other) =
      session.fileSystem.locate .keep (project.config.destination.join root)) :
    Follows never (fun same too => project.ClearedAlike start same too ∧
        same.fileSystem = session.fileSystem)
      (change fun fs =>
        let (fs, outcome) := fs.removeAll (project.config.destination.join root)
        (fs, outcome.mapError toReport))
      (change fun fs =>
        let (fs, outcome) := fs.removeAll (project.config.destination.join other)
        (fs, outcome.mapError toReport'))
      fun _ => project.ClearedAlike start := by
  refine follows_change fun same too left done hstart hrequest _ => ?_
  obtain ⟨halike, hsame⟩ := hstart
  have hremoveOther := removeAll_respelled hspelled hlocate
  have hlosing := Losing.removeAll session.fileSystem hroot
  cases hremove : session.fileSystem.removeAll (project.config.destination.join root) with
  | mk after outcome =>
      rw [hremove] at hremoveOther hlosing
      rw [hsame, hremove] at hrequest
      obtain ⟨rfl, hok⟩ := Prod.mk.inj hrequest
      refine ⟨after, ?_, rfl, halike.summary_eq, (hsame ▸ halike.losing).trans hlosing⟩
      rw [halike.fileSystem_eq, hsame, hremoveOther, mapError_eq_ok.1 hok]
      rfl

theorem removeExisting_respelled {start : FileSystem} (hlinks : start.tree.LinkFree)
    (hleads : (project.config.destination.isAbsolute || start.hasCurrent) = true)
    (hroot : root ∈ project.config.roots)
    (hspelled : root = other ∨ project.config.Respells start root other) :
    Follows never (project.ClearedAlike start)
      (project.removeExisting (project.config.destination.join root))
      ((project.withRoots roots).removeExisting (project.config.destination.join other))
      fun _ => project.ClearedAlike start := by
  unfold removeExisting
  refine Follows.get_bind fun session second halike => ?_
  have hfinds : session.fileSystem.FindsAlike (project.config.destination.join root)
      (project.config.destination.join other) := by
    rcases hspelled with rfl | hspelled
    · exact .inl rfl
    · exact findsAlike_of_respells hlinks hleads halike.losing hspelled
  dsimp only
  rw [halike.fileSystem_eq]
  rcases hfinds with hlocate | ⟨⟨fault, hroot⟩, fault', hother⟩
  · have hentry : session.fileSystem.entryAt .keep (project.config.destination.join other) =
        session.fileSystem.entryAt .keep (project.config.destination.join root) := by
      rw [FileSystem.entryAt, FileSystem.entryAt, hlocate]
    rw [hentry]
    split
    · exact .from_start halike (.pure fun _ _ h => h)
    · refine Follows.never_bind (follows_say fun same too lines lines' hsame => ?_) fun _ =>
        change_removeAll_respelled hroot hspelled hlocate
      obtain ⟨rfl, rfl⟩ := hsame
      exact ⟨⟨halike.fileSystem_eq, halike.summary_eq, halike.losing⟩, rfl⟩
  · rw [hroot, hother]
    exact .from_start halike (.pure fun _ _ h => h)

/-! ## Making the destination ready -/

variable {confirm : Path → Bool} {begun : Session}

theorem checkDestination_respelled (hlinks : fs.tree.LinkFree)
    (hbase : project.base = fs.place project.config.baseDirectory)
    (hspelled : project.config.SpellsRoots fs roots) (h : project.checkDestination fs = .ok ()) :
    (project.withRoots roots).checkDestination fs = .ok () := by
  obtain ⟨resolved, hresolved, hne, hchecked⟩ := checkDestination_eq_ok_iff.1 h
  refine checkDestination_eq_ok_iff.2 ⟨resolved, hresolved, hne, fun other hother => ?_⟩
  obtain ⟨root, hpair⟩ := hspelled.exists_mem_zip hother
  have haccepted := hchecked root (List.of_mem_zip hpair).1
  rcases hspelled.of_mem_zip hpair with rfl | hrespelled
  · exact haccepted
  · obtain ⟨-, rfl⟩ := FileSystem.resolveLenient_eq_ok hlinks hresolved
    exact checkRoot_respelled hlinks hbase hrespelled (fs.isPlain_place _) haccepted

theorem askConsent_respelled :
    Follows never (fun session second => session = begun ∧ second = begun)
      (project.askConsent confirm) ((project.withRoots roots).askConsent confirm)
      fun _ => project.ClearedAlike begun.fileSystem := by
  have hnote {update : Session → Session}
      (hupdate : (update begun).fileSystem = begun.fileSystem) :
      Follows never (fun session second => session = begun ∧ second = begun) (modify update)
        (modify update) fun _ => project.ClearedAlike begun.fileSystem := by
    refine follows_modify fun session second hstart => ?_
    obtain ⟨rfl, rfl⟩ := hstart
    exact ⟨rfl, rfl, hupdate ▸ .refl _⟩
  unfold askConsent
  refine (hnote rfl).never_bind fun _ => ?_
  cases hconfirm : confirm project.config.destination with
  | true =>
      rw [withRoots_destination, hconfirm]
      exact .pure fun _ _ h => h
  | false =>
      rw [withRoots_destination, hconfirm]
      exact .of_throw

theorem resolveDestination_respelled {start : FileSystem} {toReport : Report → Report} :
    Follows never (project.ClearedAlike start)
      (query fun fs => (fs.resolveExisting project.config.destination).mapError toReport)
      (query fun fs => (fs.resolveExisting project.config.destination).mapError toReport)
      fun _ session second => second.fileSystem = session.fileSystem ∧
        second.summary = session.summary :=
  follows_query fun _ _ _ halike hanswer =>
    ⟨halike.fileSystem_eq ▸ hanswer, halike.fileSystem_eq, halike.summary_eq⟩

/-- The destination is made ready for the respelled roots as well, and in the same way. -/
theorem prepareDestination_respelled (hlinks : begun.fileSystem.tree.LinkFree)
    (hbase : project.base = begun.fileSystem.place project.config.baseDirectory)
    (hspelled : project.config.SpellsRoots begun.fileSystem roots) :
    Follows never (fun session second => session = begun ∧ second = begun)
      (project.prepareDestination confirm) ((project.withRoots roots).prepareDestination confirm)
      fun _ session second => second.fileSystem = session.fileSystem ∧
        second.summary = session.summary := by
  unfold prepareDestination
  have hcheck : Follows never (fun session second => session = begun ∧ second = begun)
      (query project.checkDestination) (query (project.withRoots roots).checkDestination)
      fun _ session second => (session = begun ∧ second = begun) ∧
        project.checkDestination begun.fileSystem = .ok () := by
    refine follows_query fun session second done hstart hok => ?_
    obtain ⟨rfl, rfl⟩ := hstart
    exact ⟨checkDestination_respelled hlinks hbase hspelled hok, ⟨rfl, rfl⟩, hok⟩
  refine hcheck.never_bind fun _ => Follows.get_bind fun session second hstart => ?_
  obtain ⟨⟨rfl, rfl⟩, haccepted⟩ := hstart
  dsimp only
  rw [withRoots_destination]
  have hleads := leads_of_checkDestination haccepted
  by_cases hexists : second.fileSystem.pathExists project.config.destination = true
  · -- the same is cleared of both, root by root
    rw [if_pos hexists, if_pos hexists]
    split
    · refine askConsent_respelled.never_bind fun _ =>
        Follows.never_bind (Follows.forM_forall₂ hspelled.zipped ?_ ?_) fun _ =>
          resolveDestination_respelled
      · exact fun _ _ _ => False.elim
      · exact fun root other hpair => removeExisting_respelled hlinks hleads
          (List.of_mem_zip hpair).1 (hspelled.of_mem_zip hpair)
    · exact Follows.of_throw.never_bind fun _ _ _ => False.elim
  · -- the same is created for both
    rw [if_neg hexists, if_neg hexists]
    exact Follows.same.imp (fun _ _ h => h.2.trans h.1.symm) fun _ _ _ h => by simp [h]

end Project

end Snapshot
