import Snapshot.Proofs.Agreement
import Snapshot.Proofs.Resolution

/-!
# Destinations that are checked and used

Before anything is created, a destination is resolved as far as it exists, and the rest of its path
is taken as it reads. Where it really is shows only once it exists. The two places are the same if
the rest of the path passes no link as it reads, and also if a missing path has no way up in that
rest: then nothing but new directories stands at the end of the path. A way up out of a directory
that is still missing is different. It can lead back to a link, which the check does not look at.
-/

namespace Snapshot

namespace FileSystem

open FileTree

variable {fs after : FileSystem} {path : Path} {location target : Location} {rest : List Hop}
  {ending : Ending} {links : Nat}

/-! ## Missing paths without a way up -/

theorem prefix_of_bareHops_upTo {front : List Hop} {name : Segment} {count : Nat}
    (h : (path.upTo count).bareHops = front ++ [.into name]) :
    front ++ [.into name] <+: path.hops := by
  have hbare := Path.bareHops_prefix (path.upTo count)
  rw [h, Path.hops_upTo] at hbare
  split at hbare
  · obtain ⟨rest, hrest⟩ := hbare
    have hmem : Hop.into name ∈ [Hop.slash] := by simp [← hrest]
    simp at hmem
  · exact hbare.trans ((List.take_prefix _ _).map _)

/-- The first directory that is created stands where a shorter path leads. -/
theorem createDirectories_first (hcurrent : (path.isAbsolute || fs.hasCurrent) = true) :
    (fs.createDirectories path).1 = fs ∨ ∃ front name more place,
      path.hops = front ++ .into name :: more ∧
        fs.tree.walk .keep linkLimit (path.startFrom fs.current.anchor) (front ++ [.into name]) =
          .ok (.free place) := by
  refine createAlong_keeps (fun after => after = fs ∨ _) ?_ (.inl rfl) path.cuts
  intro count before after hbefore h
  rcases hbefore with rfl | hfirst
  · right
    obtain ⟨place, hreach, -⟩ := reach_of_create h
    have hcurrent : ((path.upTo count).isAbsolute || before.hasCurrent) = true := by
      rwa [Path.isAbsolute_upTo]
    rw [reach_eq_walk (acceptable_of_reach hreach) hcurrent, Path.startFrom,
      Path.isAbsolute_upTo] at hreach
    obtain ⟨front, name, used, there, hbare, -⟩ := walk_keep_eq_free hreach
    rw [hbare] at hreach
    obtain ⟨more, hmore⟩ := prefix_of_bareHops_upTo hbare
    refine ⟨front, name, more, place, ?_, hreach⟩
    rw [← hmore, List.append_assoc, List.singleton_append]
  · exact .inr hfirst

/-- The start of a path that can be spelled can be spelled itself, unless the path leaves it. -/
theorem admits_start (hexists : fs.ExistsUpTo path location rest) (hup : Hop.up ∉ rest)
    (hnames : path.names ≠ []) {tree : FileTree} {spot : Spot}
    (h : tree.walk .spell links (path.startFrom fs.current.anchor) path.hops = .ok spot) :
    Ending.spell.admits (path.startFrom fs.current.anchor) := by
  obtain ⟨front, found, hfront, hwalk⟩ := walk_of_existsUpTo hexists
  obtain ⟨start, hstart, slashes, hslashes, rfl⟩ := fs.exists_hops_absolute path
  rcases List.append_eq_append_iff.1 (hfront.symm.trans hstart) with
    ⟨middle, hmiddle, rfl⟩ | ⟨middle, rfl, -⟩
  · exact admits_of_walk (fun hmem => hup (List.mem_append_right _ hmem)) hnames h
  · exact admits_of_walk_root hslashes (by simp) (get?_startFrom fs.anchored path) hwalk

/-- Nothing but slashes, dots and ways up stand between the longest part of a path that exists and
the first place that is missing: what goes on from a name there would be a longer part. -/
theorem nameless_of_existsUpTo {tree : FileTree} {middle more : List Hop} {name : Segment}
    {place : Location} {spot : Spot}
    (hsub : ∀ place entry, fs.tree.get? place = some entry → tree.get? place = some entry)
    (hexists : fs.ExistsUpTo path location (middle ++ .into name :: more))
    (hnul : path.hasNul = false)
    (hfront : (fs.absolute path).hops = front ++ (middle ++ .into name :: more))
    (hfree : fs.tree.walk .keep linkLimit [] (front ++ (middle ++ [.into name])) =
      .ok (.free place))
    (hspell : tree.walk .spell links [] (fs.absolute path).hops = .ok spot) :
    ∀ hop ∈ middle, hop.name? = none := by
  intro hop hmem
  cases hop with
  | slash | dot | up => rfl
  | into other =>
      obtain ⟨above, below, rfl⟩ := List.append_of_mem hmem
      have hpart : front ++ (above ++ .into other :: below ++ [.into name]) =
          (front ++ (above ++ [.into other])) ++ (below ++ [.into name]) := by simp
      rw [hpart] at hfree
      obtain ⟨used, left, there, hlimit, hleads, -⟩ := walk_append_eq_ok (by simp) hfree
      have hrest : above ++ .into other :: below ++ .into name :: more =
          above ++ .into other :: (below ++ .into name :: more) := by simp
      rw [hrest] at hexists hfront
      have hwhole : (fs.absolute path).hops =
          (front ++ (above ++ [.into other])) ++ (below ++ .into name :: more) := by simp [hfront]
      obtain ⟨_, _, hother, -, hlonger⟩ := hexists.not_longer hnul ⟨name, by simp⟩
      obtain rfl := List.append_cancel_right (hother.symm.trans hfront)
      -- the part up to this name leads to a directory, in a tree that has more, and so it exists
      refine absurd ?_ (hlonger there .directory)
      rw [hlimit]
      exact hleads.walk_spell hsub (hwhole ▸ hspell) left

/-- In the rest of a missing path without a way up stand new directories only. -/
theorem straight_of_created (hmissing : fs.pathExists path = false)
    (hcreate : fs.createDirectories path = (after, .ok ()))
    (hcanonical : after.canonicalize path = .ok target)
    (hexists : fs.ExistsUpTo path location rest) (hup : Hop.up ∉ rest) :
    after.tree.Straight location rest := by
  obtain ⟨hadded, hsame⟩ := createDirectories_leads fs path
  rw [hcreate] at hadded hsame
  obtain ⟨hnul, hempty, entry, hspell⟩ := walk_of_canonicalize hcanonical
  have hcurrent := isAbsolute_or_hasCurrent_of_canonicalize hcanonical
  rw [hasCurrent, hsame] at hcurrent
  dsimp only at hsame hadded
  rw [hsame] at hspell
  -- a path that is missing was created, so there is a first place where something is new
  have hnew : after ≠ fs := by
    rintro rfl
    have hthere := isDirectory_of_createDirectories hempty hcreate
    rw [isDirectory_iff_entryAt] at hthere
    rw [pathExists_iff_entryAt.2 ⟨_, hthere⟩] at hmissing
    cases hmissing
  obtain ⟨shorter, name, more, place, hhops, hfirst⟩ :=
    (createDirectories_first hcurrent).resolve_left (by rwa [hcreate])
  have hnames : path.names ≠ [] := by
    rw [Path.names, hhops]
    exact List.ne_nil_of_mem (List.mem_filterMap.2 ⟨.into name, by simp, rfl⟩)
  obtain ⟨front, found, hfront, hwalk⟩ := walk_of_existsUpTo hexists
  obtain ⟨start, hstart, slashes, hslashes, rfl⟩ := fs.exists_hops_absolute path
  have hanchor (tree : FileTree) (hsub : ∀ place entry, fs.tree.get? place = some entry →
      tree.get? place = some entry) : tree.get? (path.startFrom fs.current.anchor) =
        some .directory := hsub _ _ (get?_startFrom fs.anchored path)
  have hfree : fs.tree.walk .keep linkLimit []
      (slashes ++ (path.startFrom fs.current.anchor).map Hop.into ++ shorter ++ [.into name]) =
        .ok (.free place) := by
    rw [List.append_assoc, walk_root_append hslashes (by simp) (hanchor _ fun _ _ => id)
      (by simp [Ending.admits])]
    exact hfirst
  have habsolute : after.tree.walk .spell linkLimit [] (fs.absolute path).hops =
      .ok (.taken target entry) := by
    rw [hstart, walk_root_append hslashes (by simp) (hanchor _ fun _ _ => hadded.keeps)
      (admits_start hexists hup hnames hspell)]
    exact hspell
  have heq : front ++ rest =
      slashes ++ (path.startFrom fs.current.anchor).map Hop.into ++ shorter ++
        .into name :: more := by
    rw [← hfront, hstart, hhops, List.append_assoc _ shorter]
  have hfollow := walk_follow_of_ok (by simp) hwalk
  obtain ⟨middle, hbefore, rfl⟩ := exists_middle_of_free hfollow hfree heq
  rw [hbefore, List.append_assoc] at hfree
  have hmiddle :=
    nameless_of_existsUpTo (fun _ _ => hadded.keeps) hexists hnul hfront hfree habsolute
  obtain ⟨hlocation, hnone⟩ :=
    get?_eq_none_of_free hfollow hmiddle hfree
  exact straight_of_directoriesAdded hadded hlocation hmiddle hnone fun hmem =>
    hup (List.mem_append_right _ (List.mem_cons_of_mem _ hmem))

/-! ## Foreseeable paths -/

/-- Where the path leads once it exists can be told before: the rest of it passes no link as it
reads, or the path is missing and has no way up in its rest. -/
def Foreseeable (fs : FileSystem) (path : Path) : Prop :=
  ∀ location rest, fs.ExistsUpTo path location rest →
    fs.tree.Straight location rest ∨ fs.pathExists path = false ∧ Hop.up ∉ rest

/-- A path that exists from the root on has no rest. -/
theorem foreseeable_of_canonicalize (h : fs.canonicalize (fs.absolute path) = .ok location) :
    fs.Foreseeable path := by
  rintro place rest ⟨count, hfirst, hplace, rfl⟩
  have hwhole : (fs.absolute path).cuts.find?
      (fun count => (fs.canonicalize ((fs.absolute path).upTo count)).isOk) =
        some (fs.absolute path).body.length := by
    rw [Path.cuts_eq]
    apply List.find?_cons_of_pos
    rw [Path.upTo_length_body, h]
    rfl
  obtain rfl := Option.some.inj (hfirst.symm.trans hwhole)
  left
  intro way hway target hlink
  rw [List.drop_length, List.map_nil, List.prefix_nil] at hway
  obtain ⟨-, -, found, hwalk⟩ := walk_of_canonicalize hplace
  have hfound : fs.tree.get? place = some found := by
    simpa using get?_of_walk (get?_startFrom fs.anchored _) hwalk
  rw [hway, Location.follow_nil, hfound] at hlink
  obtain rfl := Option.some.inj hlink
  exact absurd (eq_keep_of_walk_link hwalk) (by simp)

theorem resolveLenient_of_canonicalize (hforeseeable : fs.Foreseeable path)
    (hexists : fs.pathExists path = true) (h : fs.canonicalize path = .ok target) :
    fs.resolveLenient path = .ok target := by
  obtain ⟨location, rest, hupTo⟩ := fs.exists_existsUpTo path
  rw [hupTo.resolveLenient (isAbsolute_or_hasCurrent_of_canonicalize h)]
  rcases hforeseeable location rest hupTo with hstraight | ⟨hmissing, -⟩
  · rw [eq_follow_of_canonicalize (fun _ _ => id) rfl hupTo hstraight h]
  · simp [hexists] at hmissing

/-- A directory is created where its path was resolved to. -/
theorem resolveLenient_of_created (hforeseeable : fs.Foreseeable path)
    (hcreate : fs.createDirectories path = (after, .ok ()))
    (h : after.canonicalize path = .ok target) : fs.resolveLenient path = .ok target := by
  obtain ⟨hadded, hsame⟩ := createDirectories_leads fs path
  rw [hcreate] at hadded hsame
  have hcurrent := isAbsolute_or_hasCurrent_of_canonicalize h
  rw [hasCurrent, hsame] at hcurrent
  obtain ⟨location, rest, hupTo⟩ := fs.exists_existsUpTo path
  rw [hupTo.resolveLenient hcurrent]
  have hstraight : after.tree.Straight location rest := by
    rcases hforeseeable location rest hupTo with hstraight | ⟨hmissing, hup⟩
    · exact hadded.straight hstraight
    · exact straight_of_created hmissing hcreate h hupTo hup
  rw [eq_follow_of_canonicalize (fun _ _ => hadded.keeps) hsame hupTo hstraight h]

theorem canonicalize_of_find {entry : Entry} (hcurrent : (path.isAbsolute || fs.hasCurrent) = true)
    (h : fs.find .spell path = .ok (location, entry)) : fs.canonicalize path = .ok location := by
  rw [canonicalize, ← Bool.not_or, hcurrent, h]
  rfl

/-- The location of what a path leads to is found, unless it is too deep somewhere on the way. -/
theorem canonicalize_of_find_follow {entry : Entry}
    (hcurrent : (path.isAbsolute || fs.hasCurrent) = true)
    (h : fs.find .follow path = .ok (location, entry)) :
    fs.canonicalize path = .ok location ∨ fs.canonicalize path = .error .nameTooLong := by
  obtain ⟨haccepted, hwalk⟩ := walk_of_find hcurrent h
  have hspell : path.Acceptable .spell := ⟨haccepted.nulFree, haccepted.nonempty, .inl rfl⟩
  have hstarts : (!path.isAbsolute && !fs.hasCurrent) = false := by
    rw [← Bool.not_or, hcurrent, Bool.not_true]
  rw [canonicalize, hstarts, find, locate, reach_eq_walk hspell hcurrent]
  rcases walk_spell_of_follow hwalk with heq | heq
  · exact .inl (by rw [heq]; rfl)
  · exact .inr (by rw [heq]; rfl)

theorem canonicalize_of_isDirectory (hcurrent : (path.isAbsolute || fs.hasCurrent) = true)
    (h : fs.isDirectory path = true) :
    (∃ location, fs.canonicalize path = .ok location) ∨
      fs.canonicalize path = .error .nameTooLong := by
  obtain ⟨location, hfind⟩ := find_of_isDirectory hcurrent h
  exact (canonicalize_of_find_follow hcurrent hfind).imp_left fun hfound => ⟨location, hfound⟩

theorem foreseeable_of_linkFree (h : fs.tree.LinkFree) (path : Path) : fs.Foreseeable path :=
  fun _ _ _ => .inl h.straight

end FileSystem

/-! ## Destinations -/

namespace Project

open ExportM FileSystem FileTree

variable {project : Project} {fs : FileSystem} {root : Path} {confirm : Path → Bool}
  {begun session : Session} {target : Location}

/-- Removing a root only loses entries, whatever comes of it. -/
theorem removeExisting_loses (hroot : root ∈ project.config.roots) :
    Ensures (fun session => project.Losing fs session.fileSystem)
      (project.removeExisting (project.config.destination.join root))
      (fun _ session => project.Losing fs session.fileSystem) fun _ _ => True := by
  unfold removeExisting
  refine Ensures.get_bind fun state hstate => ?_
  split
  · exact .pure fun _ h => h
  · refine (ensures_say fun _ _ h => h).bind fun _ => ensures_change ?_ fun _ _ _ _ _ => trivial
    intro session after done hsession hchange
    obtain rfl := (Prod.mk.inj hchange).1
    exact hsession.trans (.removeAll _ hroot)

/-- A destination that is ready was checked before. It was a directory and has lost entries, or it
was created. -/
structure Used (project : Project) (fs after : FileSystem) (target : Location) : Prop where
  accepted : project.checkDestination fs = .ok ()
  resolved : after.resolveExisting project.config.destination = .ok target
  way : fs.isDirectory project.config.destination = true ∧ project.Losing fs after ∨
    fs.createDirectories project.config.destination = (after, .ok ())

theorem used_of_prepareDestination
    (h : project.prepareDestination confirm begun = .ok target session) :
    project.Used begun.fileSystem session.fileSystem target := by
  have hprepared : Ensures (fun session => session = begun) (project.prepareDestination confirm)
      (fun target session => project.Used begun.fileSystem session.fileSystem target)
      fun _ _ => True := by
    have hresolve {before : Session → Prop}
        (hbefore : ∀ session, before session → ∀ target,
          session.fileSystem.resolveExisting project.config.destination = .ok target →
            project.Used begun.fileSystem session.fileSystem target) :
        Ensures before
          (query fun fs => (fs.resolveExisting project.config.destination).mapError fun report =>
            (report.within .exporting).noting .unresolvedDestination)
          (fun target session => project.Used begun.fileSystem session.fileSystem target)
          fun _ _ => True :=
      ensures_query (fun session target h hok => hbefore session h target (mapError_eq_ok.1 hok))
        fun _ _ _ _ => trivial
    have hcheck : Ensures (fun session => session = begun) (query project.checkDestination)
        (fun _ session => session = begun ∧ project.checkDestination begun.fileSystem = .ok ())
        fun _ _ => True := by
      refine ensures_query (fun session _ hsession hok => ?_) fun _ _ _ _ => trivial
      rw [hsession] at hok
      exact ⟨hsession, hok⟩
    unfold prepareDestination
    refine hcheck.bind fun _ => Ensures.get_bind fun state hstate => ?_
    obtain ⟨rfl, haccepted⟩ := hstate
    dsimp only
    split
    · split
      · next hexists =>
          have hasked : Ensures (fun session => session = state) (project.askConsent confirm)
              (fun _ session => project.Losing state.fileSystem session.fileSystem)
              fun _ _ => True :=
            (askConsent_clears.mono_after fun _ _ h => h.2.losing).anyhow
          refine (hasked.mono_before fun _ h => h.1).bind fun _ =>
            (Ensures.forM fun root hroot => removeExisting_loses hroot).bind fun _ => ?_
          exact hresolve fun session h target hok => ⟨haccepted, hok, .inl ⟨hexists, h⟩⟩
      · exact Ensures.throw_bind fun _ _ => trivial
    · next hmissing =>
        rw [Bool.not_eq_true] at hmissing
        refine (ensures_say_eq.mono_before fun _ h => h.1).bind fun _ =>
          (Ensures.imp (createMissing_ensures haccepted hmissing) (fun _ h => h) (fun _ _ h => h)
            fun report session (_ : project.Stopped confirm state report session) => trivial).bind
              fun _ => ?_
        exact hresolve fun session h target hok => ⟨haccepted, hok, .inr h.2⟩
  have hends := hprepared begun rfl
  rwa [h] at hends

theorem Used.resolveLenient {after : FileSystem} (h : project.Used fs after target)
    (hforeseeable : fs.Foreseeable project.config.destination) :
    fs.resolveLenient project.config.destination = .ok target := by
  have hcanonical := canonicalize_of_resolveExisting h.resolved
  rcases h.way with ⟨hexists, hlosing⟩ | hcreate
  · have hcurrent := leads_of_checkDestination h.accepted
    obtain ⟨entry, hfind⟩ := find_spell_of_canonicalize hcanonical
    exact resolveLenient_of_canonicalize hforeseeable (pathExists_of_isDirectory hexists)
      (canonicalize_of_find hcurrent (hlosing.find hfind))
  · exact resolveLenient_of_created hforeseeable hcreate hcanonical

/-- The destination that is used is the one that was checked: if a foreseeable destination is made
ready, its location is the one that its path was resolved to before anything was created. So it is
for every foreseeable path under which a directory is created or found. -/
theorem checked_destination_is_used (project : Project) (confirm : Path → Bool) (begun : Session) :
    (begun.fileSystem.Foreseeable project.config.destination → ∀ target session,
      project.prepareDestination confirm begun = .ok target session →
        project.checkDestination begun.fileSystem = .ok () ∧
        begun.fileSystem.resolveLenient project.config.destination = .ok target) ∧
    ∀ path after, begun.fileSystem.Foreseeable path →
      (begun.fileSystem.createDirectories path = (after, .ok ()) ∨
        begun.fileSystem.isDirectory path = true ∧ after = begun.fileSystem) →
      (∀ target, after.canonicalize path = .ok target →
        begun.fileSystem.resolveLenient path = .ok target) ∧
      (path.isEmpty = false → ∀ resolved, begun.fileSystem.resolveLenient path = .ok resolved →
        after.canonicalize path = .ok resolved ∨
          after.canonicalize path = .error .nameTooLong) := by
  refine ⟨fun hforeseeable target session hready => ?_,
    fun path after hforeseeable hmade => ?_⟩
  · have hused := used_of_prepareDestination hready
    exact ⟨hused.accepted, hused.resolveLenient hforeseeable⟩
  · have hcanonical (target : Location) (h : after.canonicalize path = .ok target) :
        begun.fileSystem.resolveLenient path = .ok target := by
      rcases hmade with hcreate | ⟨hexists, rfl⟩
      · exact resolveLenient_of_created hforeseeable hcreate h
      · exact resolveLenient_of_canonicalize hforeseeable (pathExists_of_isDirectory hexists) h
    refine ⟨hcanonical, fun hempty resolved hresolved => ?_⟩
    have hcurrent := leads_of_resolveLenient hresolved
    have hthere : after.isDirectory path = true ∧
        (path.isAbsolute || after.hasCurrent) = true := by
      rcases hmade with hcreate | ⟨hexists, rfl⟩
      · obtain ⟨-, hsame⟩ := createDirectories_leads begun.fileSystem path
        rw [hcreate] at hsame
        refine ⟨isDirectory_of_createDirectories hempty hcreate, ?_⟩
        rwa [hasCurrent, hsame]
      · exact ⟨hexists, hcurrent⟩
    refine (canonicalize_of_isDirectory hthere.2 hthere.1).imp_left fun hfound => ?_
    obtain ⟨target, htarget⟩ := hfound
    obtain rfl := Except.ok.inj (hresolved.symm.trans (hcanonical target htarget))
    exact htarget

/-- A destination behind a missing directory that is gone into and left again. -/
theorem checked_destination_is_used_oldExport :
    ∃ target session,
      (exportTo "missing/../out" ["src"]).prepareDestination (fun _ => true)
        { fileSystem := oldExport } = .ok target session ∧
      oldExport.Foreseeable (Path.ofString "missing/../out") ∧
      oldExport.resolveLenient (Path.ofString "missing/../out") = .ok target := by
  obtain ⟨target, session, hok, -⟩ : ∃ target session,
      (exportTo "missing/../out" ["src"]).prepareDestination (fun _ => true)
        { fileSystem := oldExport } = .ok target session ∧ target = [{ text := "out" }] := by
    decide +kernel
  have hforeseeable : oldExport.Foreseeable (Path.ofString "missing/../out") :=
    foreseeable_of_linkFree (linkFree_of_entries (by decide +kernel)) _
  have hused := (checked_destination_is_used (exportTo "missing/../out" ["src"]) (fun _ => true)
    { fileSystem := oldExport }).1 hforeseeable target session hok
  exact ⟨target, session, hok, hforeseeable, hused.2⟩

/-- A project `p` and a link to it. -/
def aliasedProject : FileSystem :=
  .ofTree
    { entries :=
        [(.ofString "p/src/a.c", .file [0x61, 0x0A]),
          (.ofString "p/src", .directory), (.ofString "p", .directory),
          (.ofString "alias", .link (Path.ofString "p"))]
      wellFormed := ⟨by decide +kernel, by decide +kernel, by decide +kernel, by decide +kernel⟩ }
    []

/-- Behind a missing directory that is gone into and left again a link is not looked at: the project
itself is used as the destination, which the check would have refused. -/
theorem project_used_unchecked :
    (exportTo "missing/../alias" ["src"]).config.validate = .ok () ∧
      aliasedProject.resolveExisting (Path.ofString "p") =
        .ok (exportTo "missing/../alias" ["src"]).base ∧
      ∃ target session,
        (exportTo "missing/../alias" ["src"]).prepareDestination (fun _ => true)
          { fileSystem := aliasedProject } = .ok target session ∧
        target = (exportTo "missing/../alias" ["src"]).base ∧
        aliasedProject.resolveLenient (Path.ofString "missing/../alias") ≠ .ok target := by
  obtain ⟨target, session, hready, htarget⟩ : ∃ target session,
      (exportTo "missing/../alias" ["src"]).prepareDestination (fun _ => true)
        { fileSystem := aliasedProject } = .ok target session ∧
      target = (exportTo "missing/../alias" ["src"]).base := by
    decide +kernel
  have hresolved : (aliasedProject.resolveLenient (Path.ofString "missing/../alias")).toOption =
      some [{ text := "alias" }] := by decide +kernel
  refine ⟨eq_ok_of_toOption (by decide +kernel), eq_ok_of_toOption (by decide +kernel), target,
    session, hready, htarget, fun hsame => ?_⟩
  rw [eq_ok_of_toOption hresolved, htarget] at hsame
  exact absurd (Except.ok.inj hsame) (by decide)

end Project

end Snapshot
