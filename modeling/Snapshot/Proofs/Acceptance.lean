import Snapshot.Export.Destination
import Snapshot.Proofs.Listings

/-!
# Accepted settings

What is known once the checks before an export have passed, where there are no links. Roots that
the settings allow go down by at least one name. A destination that is accepted is not the project
and not in a root, and the places of the roots in it are not above the project; nothing is said
about how these places lie to the roots themselves.
-/

namespace Snapshot

namespace FileSystem

variable {fs : FileSystem} {path : Path}

/-- Where a path leads as it reads from the current directory. -/
def place (fs : FileSystem) (path : Path) : Location :=
  path.placeFrom fs.current.anchor

/-- Every current directory is left of some directory, and that is where the paths start that lead
anywhere. -/
theorem exists_isLeftOf (fs : FileSystem) : ∃ start, fs.current.IsLeftOf start ∧
    ∀ path : Path, (path.isAbsolute || fs.hasCurrent) = true →
      path.placeFrom start = fs.place path := by
  by_cases hcurrent : fs.current.lost = 0
  · exact ⟨fs.current.anchor, Place.isLeftOf_anchor hcurrent, fun _ _ => rfl⟩
  · refine ⟨_, fs.current.isLeftOf_append_replicate, ?_⟩
    intro path hpath
    have habsolute : path.isAbsolute = true := by simpa [hasCurrent, hcurrent] using hpath
    simp [place, Path.placeFrom, habsolute]

theorem follow_isPlain {here : Location} (h : here.IsPlain) (segments : List Segment) :
    (here.follow (segments.map Hop.ofSegment)).IsPlain := by
  induction segments generalizing here with
  | nil => exact h
  | cons segment segments ih =>
      rw [List.map_cons, Location.follow_cons]
      apply ih
      cases hhop : Hop.ofSegment segment with
      | slash | dot => exact h
      | up => exact fun name hname => h name (List.dropLast_subset _ hname)
      | into name =>
          have hname : segment = name := Hop.eq_of_ofSegment_eq_into hhop
          intro other hother
          rcases List.mem_append.1 hother with hother | hother
          · exact h other hother
          · rw [List.mem_singleton.1 hother, ← hname, hhop, hname]

theorem isPlain_place (fs : FileSystem) (path : Path) : (fs.place path).IsPlain := by
  refine follow_isPlain ?_ path.body
  split
  · exact fun _ hname => absurd hname List.not_mem_nil
  · exact fs.isPlain_anchor

theorem resolveExisting_eq_ok (hlinks : fs.tree.LinkFree) {location : Location}
    (h : fs.resolveExisting path = .ok location) :
    (path.isAbsolute || fs.hasCurrent) = true ∧ location = fs.place path ∧
      ∃ entry, fs.tree.get? location = some entry := by
  obtain ⟨start, hstart, hplace⟩ := fs.exists_isLeftOf
  obtain ⟨heq, hentry⟩ := resolveExisting_holds hlinks hstart h
  unfold resolveExisting at h
  split at h
  · split at h
    · next hcanonical =>
        have hleads := isAbsolute_or_hasCurrent_of_canonicalize hcanonical
        exact ⟨hleads, heq.trans (hplace path hleads), hentry⟩
    · cases h
  · cases h

theorem resolveLenient_eq_ok (hlinks : fs.tree.LinkFree) {location : Location}
    (h : fs.resolveLenient path = .ok location) :
    (path.isAbsolute || fs.hasCurrent) = true ∧ location = fs.place path := by
  obtain ⟨start, hstart, hplace⟩ := fs.exists_isLeftOf
  have heq := resolveLenient_holds hlinks hstart h
  unfold resolveLenient at h
  split at h
  · cases h
  · next hleads =>
      have hleads : (path.isAbsolute || fs.hasCurrent) = true := by
        simpa [Bool.or_eq_true, or_iff_not_imp_left] using hleads
      exact ⟨hleads, heq.trans (hplace path hleads)⟩

end FileSystem

/-! ## Roots -/

namespace Path

variable {path : Path}

theorem mem_components_of_mem_segments (hrelative : path.isAbsolute = false) {segment : Segment}
    {component : Component} (hmem : segment ∈ path.segments)
    (hcomponent : Component.ofSegment? segment = some component) :
    component ∈ path.components := by
  rw [components, if_neg (by simp [hrelative])]
  split
  · next hhead =>
      obtain ⟨rest, hsegments⟩ := List.head?_eq_some_iff.1 hhead
      rw [hsegments] at hmem ⊢
      rcases List.mem_cons.1 hmem with rfl | hmem
      · cases hcomponent
      · exact List.mem_cons_of_mem _ (List.mem_filterMap.2 ⟨segment, hmem, hcomponent⟩)
  · exact List.mem_filterMap.2 ⟨segment, hmem, hcomponent⟩

theorem exists_of_name_mem_components (hrelative : path.isAbsolute = false) {name : Segment}
    (h : Component.name name ∈ path.components) :
    name ∈ path.segments ∧ Hop.ofSegment name = .into name := by
  have hsegments : Component.name name ∈ path.segments.filterMap Component.ofSegment? := by
    rw [components, if_neg (by simp [hrelative])] at h
    split at h
    · next hhead =>
        obtain ⟨rest, hsegments⟩ := List.head?_eq_some_iff.1 hhead
        rw [hsegments] at h ⊢
        simpa [Component.ofSegment?, Segment.isBlank] using h
    · exact h
  obtain ⟨segment, hmem, hsegment⟩ := List.mem_filterMap.1 hsegments
  have heq : segment = name ∧ Hop.ofSegment name = .into name := by
    unfold Component.ofSegment? Segment.isBlank at hsegment
    unfold Hop.ofSegment
    grind
  exact ⟨heq.1 ▸ hmem, heq.2⟩

/-- A path that is allowed as a root goes down, by at least one name. -/
theorem IsDescent.goesDown (h : path.IsDescent) : path.GoesDown ∧ path.names ≠ [] := by
  obtain ⟨hcomponents, name, hname⟩ := h
  have hrelative : path.isAbsolute = false := by
    refine Bool.eq_false_iff.2 fun habsolute => ?_
    exact (hcomponents .root (by simp [components, habsolute])).1 rfl
  have hbody : path.body = path.segments := body_of_not_isAbsolute hrelative
  refine ⟨⟨hrelative, fun hup => ?_⟩, fun hnil => ?_⟩
  · rw [hops, hbody] at hup
    obtain ⟨segment, hmem, hsegment⟩ := List.mem_map.1 hup
    have hdots : segment = Segment.dotDot := by
      unfold Hop.ofSegment at hsegment
      grind
    have hparent := mem_components_of_mem_segments hrelative (hdots ▸ hmem) rfl
    exact (hcomponents .parent hparent).2 rfl
  · have hsegment := exists_of_name_mem_components hrelative hname
    have hmem : name ∈ path.names := by
      rw [names, hops, hbody]
      exact List.mem_filterMap.2 ⟨_, List.mem_map_of_mem hsegment.1, by
        rw [hsegment.2]
        rfl⟩
    rw [hnil] at hmem
    cases hmem

end Path

theorem Config.validate_eq_ok_iff {config : Config} :
    config.validate = .ok () ↔ ∀ root ∈ config.roots, root.IsDescent := by
  unfold validate
  split
  · next root hfound =>
      have hroot : ¬root.IsDescent := by simpa using List.find?_some hfound
      exact ⟨nofun, fun h => absurd (h root (List.mem_of_find?_eq_some hfound)) hroot⟩
  · next hnone => simpa using hnone

theorem Config.isDescent_of_validate {config : Config} (h : config.validate = .ok ()) :
    ∀ root ∈ config.roots, root.IsDescent :=
  validate_eq_ok_iff.1 h

/-! ## Destinations -/

/-- A loop goes well if it does for each element. -/
theorem forM_eq_ok_iff {ε α : Type} {check : α → Except ε Unit} {list : List α} :
    list.forM check = .ok () ↔ ∀ a ∈ list, check a = .ok () := by
  induction list with
  | nil => exact ⟨fun _ a hmem => absurd hmem List.not_mem_nil, fun _ => rfl⟩
  | cons first rest ih =>
      rw [List.forM, List.forall_mem_cons, ← ih]
      cases check first with
      | error error => simp [bind, Except.bind]
      | ok _ => exact (and_iff_right rfl).symm

namespace Project

variable {project : Project} {fs : FileSystem}

/-- What the check of a destination has made sure of. -/
structure Accepts (project : Project) (fs : FileSystem) : Prop where
  leads : (project.config.destination.isAbsolute || fs.hasCurrent) = true
  ne_base : fs.place project.config.destination ≠ project.base
  outside : ∀ root ∈ project.config.roots, ∀ location,
    fs.canonicalize (project.pathOf root) = .ok location →
      ¬location <+: fs.place project.config.destination
  spares : ∀ root ∈ project.config.roots,
    ¬fs.place project.config.destination ++ root.names <+: project.base

/-- A destination that is accepted is in no root that is a directory. -/
theorem Accepts.not_inside (haccepts : project.Accepts fs) (hlinks : fs.tree.LinkFree)
    (hbase : project.base.IsPlain) {root : Path} (hmem : root ∈ project.config.roots)
    (hroot : root.GoesDown) (hsize : (project.base ++ root.names).size ≤ Path.maxSize)
    (hdirectory : fs.tree.get? (project.base ++ root.names) = some .directory) :
    ¬project.base ++ root.names <+: fs.place project.config.destination := by
  obtain ⟨habsolute, hup, hnames⟩ := pathOf_goesDown hbase hroot
  rw [← hnames] at hdirectory hsize ⊢
  exact haccepts.outside root hmem _
    (FileSystem.canonicalize_eq_ok hlinks habsolute hup hdirectory hsize (.inl rfl))

theorem checkTarget_eq_ok (hlinks : fs.tree.LinkFree) {resolved : Location} {root : Path}
    (hresolved : resolved.IsPlain) (hroot : root.GoesDown)
    (h : checkRoot.checkTarget project fs resolved root = .ok ()) :
    ¬resolved ++ root.names <+: project.base := by
  unfold checkRoot.checkTarget at h
  split at h
  · cases h
  · next target htarget =>
      obtain ⟨-, heq⟩ := FileSystem.resolveLenient_eq_ok hlinks htarget
      rw [FileSystem.place, Path.placeFrom_ofLocation_join hresolved hroot] at heq
      split at h
      · cases h
      · next hspares => exact heq ▸ hspares

theorem checkRoot_eq_ok (hlinks : fs.tree.LinkFree) {resolved : Location} {root : Path}
    (hresolved : resolved.IsPlain) (hroot : root.GoesDown)
    (h : project.checkRoot fs resolved root = .ok ()) :
    (∀ location, fs.canonicalize (project.pathOf root) = .ok location → ¬location <+: resolved) ∧
      ¬resolved ++ root.names <+: project.base := by
  unfold checkRoot at h
  split at h
  · next found hfound =>
      split at h
      · cases h
      · next houtside =>
          refine ⟨fun location hlocation => ?_, checkTarget_eq_ok hlinks hresolved hroot h⟩
          rw [hfound] at hlocation
          exact Except.ok.inj hlocation ▸ houtside
  · next fault hfault =>
      refine ⟨fun location hlocation => ?_, checkTarget_eq_ok hlinks hresolved hroot h⟩
      rw [hfault] at hlocation
      cases hlocation

theorem checkDestination_eq_ok_iff : project.checkDestination fs = .ok () ↔
    ∃ resolved, fs.resolveLenient project.config.destination = .ok resolved ∧
      resolved ≠ project.base ∧
      ∀ root ∈ project.config.roots, project.checkRoot fs resolved root = .ok () := by
  unfold checkDestination
  split
  · next hfailed => simp [hfailed]
  · next resolved hresolved =>
      rw [hresolved]
      split
      · next hbase => simp [hbase]
      · next hbase =>
          have hroots : project.config.roots.forM (project.checkRoot fs resolved) = .ok () ↔ _ :=
            forM_eq_ok_iff
          simpa [hbase] using hroots

theorem accepts_of_checkDestination (hlinks : fs.tree.LinkFree)
    (hroots : ∀ root ∈ project.config.roots, root.GoesDown)
    (h : project.checkDestination fs = .ok ()) : project.Accepts fs := by
  obtain ⟨resolved, hresolved, hbase, hchecked⟩ := checkDestination_eq_ok_iff.1 h
  obtain ⟨hleads, rfl⟩ := FileSystem.resolveLenient_eq_ok hlinks hresolved
  have hroot := fun root hmem =>
    checkRoot_eq_ok hlinks (fs.isPlain_place _) (hroots root hmem) (hchecked root hmem)
  exact ⟨hleads, hbase, fun root hmem => (hroot root hmem).1, fun root hmem => (hroot root hmem).2⟩

end Project

end Snapshot
