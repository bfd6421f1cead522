import Snapshot.Proofs.Lookup

/-!
# What creating and writing change

Creating directories adds directories at places that were free, on the way to the one that is asked
for, and writing changes one place, the one where the path leads. Neither brings a link into a tree,
and what is left of the current directory stays that. Where a path passes links, what is created on
the way is still led to by the path, or by a shorter one.
-/

namespace Snapshot

namespace FileTree

/-- Some directories were added at free places of a kind, and nothing else changed. -/
structure DirectoriesAdded (before after : FileTree) (added : Location → Prop) : Prop where
  keeps : ∀ {location entry}, before.get? location = some entry →
    after.get? location = some entry
  adds : ∀ {location entry}, after.get? location = some entry →
    before.get? location = some entry ∨ (entry = .directory ∧ added location)

variable {before middle after : FileTree} {added more : Location → Prop} {location : Location}

theorem same_or_new {added : Prop}
    (hkeeps : ∀ entry, before.get? location = some entry → after.get? location = some entry)
    (hadds : ∀ entry, after.get? location = some entry →
      before.get? location = some entry ∨ (entry = .directory ∧ added)) :
    after.get? location = before.get? location ∨
      before.get? location = none ∧ after.get? location = some .directory ∧ added := by
  cases hbefore : before.get? location with
  | some entry => exact .inl (hkeeps entry hbefore)
  | none =>
      cases hafter : after.get? location with
      | none => exact .inl rfl
      | some entry =>
          rcases hadds entry hafter with hold | ⟨rfl, hadded⟩
          · simp [hbefore] at hold
          · exact .inr ⟨rfl, rfl, hadded⟩

namespace DirectoriesAdded

theorem refl (tree : FileTree) : tree.DirectoriesAdded tree added :=
  ⟨id, .inl⟩

theorem trans (hfirst : before.DirectoriesAdded middle added)
    (hsecond : middle.DirectoriesAdded after added) : before.DirectoriesAdded after added where
  keeps h := hsecond.keeps (hfirst.keeps h)
  adds h := by
    rcases hsecond.adds h with hmiddle | hadded
    · exact hfirst.adds hmiddle
    · exact .inr hadded

theorem mono (h : before.DirectoriesAdded after added) (hmore : ∀ place, added place → more place) :
    before.DirectoriesAdded after more where
  keeps := h.keeps
  adds hentry := (h.adds hentry).imp_right fun ⟨hdirectory, hadded⟩ => ⟨hdirectory, hmore _ hadded⟩

/-- A place is as it was, or it was free and holds a new directory. -/
theorem changed (h : before.DirectoriesAdded after added) (place : Location) :
    after.get? place = before.get? place ∨
      before.get? place = none ∧ after.get? place = some .directory ∧ added place :=
  same_or_new (fun _ => h.keeps) fun _ => h.adds

theorem linkFree (h : before.DirectoriesAdded after added) (hlinks : before.LinkFree) :
    after.LinkFree := by
  intro place target hlink
  rcases h.adds hlink with hold | ⟨hdirectory, -⟩
  · exact hlinks _ _ hold
  · cases hdirectory

/-- New directories are no links. -/
theorem straight (h : before.DirectoriesAdded after added) {hops : List Hop}
    (hstraight : before.Straight location hops) : after.Straight location hops := by
  intro way hway target hlink
  rcases h.adds hlink with hold | ⟨hdirectory, -⟩
  · exact hstraight way hway target hold
  · cases hdirectory

end DirectoriesAdded

end FileTree

namespace FileSystem

open FileTree

variable {fs after : FileSystem} {start location : Location} {path : Path} {ending : Ending}
  {hops : List Hop} {spot : Spot} {entry : Entry} {content : List UInt8}

/-! ## Creating -/

/-- A new entry stands where a walk has led, and nothing else changed. -/
theorem put_eq_ok (h : fs.put spot entry = .ok after) :
    ∃ location, spot = .free location ∧
      (∀ other, after.tree.get? other =
        if other = location then some entry else fs.tree.get? other) ∧
      after.current = fs.current.settledIn after.tree := by
  unfold put at h
  split at h
  · next location =>
      split at h
      · next tree hinsert =>
          cases h
          exact ⟨location, rfl, fun other => get?_insert? hinsert, rfl⟩
      · cases h
  · cases h
  · cases h

/-- What has been created stands at a place that was free. -/
theorem reach_of_create (h : fs.create path entry = .ok after) :
    ∃ location, fs.reach .keep path path.bareHops = .ok (.free location) ∧
      fs.tree.get? location = none ∧
      (∀ other, after.tree.get? other =
        if other = location then some entry else fs.tree.get? other) ∧
      after.current = fs.current.settledIn after.tree := by
  unfold create at h
  cases hreach : fs.reach .keep path path.bareHops with
  | error fault => simp [hreach, Except.bind] at h
  | ok spot =>
      simp only [hreach, Except.bind] at h
      obtain ⟨location, rfl, hafter, hcurrent⟩ := put_eq_ok h
      rcases get?_of_reach hreach with hspot | ⟨place, found, hspot, -⟩ | ⟨place, hspot, hnone⟩
      · cases hspot
      · cases hspot
      · cases hspot
        exact ⟨location, rfl, hnone, hafter, hcurrent⟩

/-- Where the path passes no link, that is the place it reads as. -/
theorem create_eq_ok (hstraight : fs.tree.Straight (path.startFrom start) path.hops)
    (hstart : fs.current.IsLeftOf start) (h : fs.create path entry = .ok after) :
    fs.tree.get? (path.placeFrom start) = none ∧
      (∀ other, after.tree.get? other =
        if other = path.placeFrom start then some entry else fs.tree.get? other) ∧
      after.current.IsLeftOf start := by
  obtain ⟨location, hreach, hnone, hafter, hcurrent⟩ := reach_of_create h
  have hbare := hstraight.of_prefix path.bareHops_prefix
  have hplace := reach_holds_of_straight hbare hstart hreach
  simp only [reduceCtorEq, false_and, false_or, Holds, Path.follow_bareHops] at hplace
  obtain ⟨rfl, -⟩ := hplace
  exact ⟨hnone, hafter, hcurrent ▸ hstart.settledIn _⟩

theorem directoriesAdded_of_get? (hnone : fs.tree.get? location = none)
    (hafter : ∀ other, after.tree.get? other =
      if other = location then some .directory else fs.tree.get? other) :
    fs.tree.DirectoriesAdded after.tree (· = location) where
  keeps hentry := by
    rw [hafter, if_neg]
    · exact hentry
    · rintro rfl
      simp [hnone] at hentry
  adds hentry := by
    rw [hafter] at hentry
    split at hentry
    · next heq => exact .inr ⟨by simpa using hentry.symm, heq⟩
    · exact .inl hentry

theorem directoriesAdded_of_create
    (hstraight : fs.tree.Straight (path.startFrom start) path.hops)
    (hstart : fs.current.IsLeftOf start) (h : fs.create path .directory = .ok after) :
    fs.tree.DirectoriesAdded after.tree (· = path.placeFrom start) := by
  obtain ⟨hnone, hafter, -⟩ := create_eq_ok hstraight hstart h
  exact directoriesAdded_of_get? hnone hafter

/-- Whatever comes of it, creating a directory with those above it creates some of them, one after
the other. -/
theorem createAlong_keeps (kept : FileSystem → Prop)
    (hcreate : ∀ count before after, kept before →
      before.create (path.upTo count) .directory = .ok after → kept after)
    (h : kept fs) (counts : List Nat) : kept (fs.createAlong path counts).1 := by
  induction counts with
  | nil => exact h
  | cons count above ih =>
      rw [createAlong]
      split
      · exact h
      · split
        · next after hfirst => exact hcreate count fs after h hfirst
        · split
          · next after fault habove => exact habove ▸ ih
          · next middle habove =>
              rw [habove] at ih
              split
              · next after hsecond => exact hcreate count middle after ih hsecond
              · exact ih
        · exact h

/-- Whether or not a directory could be created, only directories on the way to it were added. -/
theorem createDirectories_added (path : Path)
    (hstraight : fs.tree.Straight (path.startFrom start) path.hops)
    (hstart : fs.current.IsLeftOf start) :
    fs.tree.DirectoriesAdded (fs.createDirectories path).1.tree
        (fun location => ∃ count, location = (path.upTo count).placeFrom start) ∧
      (fs.createDirectories path).1.current.IsLeftOf start := by
  refine createAlong_keeps (fun after => fs.tree.DirectoriesAdded after.tree _ ∧
    after.current.IsLeftOf start) ?_ ⟨.refl _, hstart⟩ path.cuts
  intro count before after hbefore h
  have hupTo := (hbefore.1.straight hstraight).startFrom_upTo count
  refine ⟨hbefore.1.trans ?_, (create_eq_ok hupTo hbefore.2 h).2.2⟩
  exact (directoriesAdded_of_create hupTo hbefore.2 h).mono fun _ heq => ⟨count, heq⟩

/-- Without a way up only places above the directory that is asked for can be concerned. -/
theorem createDirectories_added_above
    (hstraight : fs.tree.Straight (path.startFrom start) path.hops)
    (hstart : fs.current.IsLeftOf start) (hup : Hop.up ∉ path.hops) :
    fs.tree.DirectoriesAdded (fs.createDirectories path).1.tree (· <+: path.placeFrom start) :=
  (createDirectories_added path hstraight hstart).1.mono fun _ ⟨count, heq⟩ =>
    heq ▸ Path.placeFrom_upTo_prefix hup count

/-- What has been created is found under the path, whatever links the path passes. -/
theorem find_of_create (h : fs.create path .directory = .ok after) :
    ∃ location, after.find .follow path = .ok (location, .directory) ∧
      fs.tree.DirectoriesAdded after.tree (· = location) ∧ after.current = fs.current := by
  obtain ⟨location, hreach, hnone, hafter, hcurrent⟩ := reach_of_create h
  have hadded := directoriesAdded_of_get? hnone hafter
  have hsame : after.current = fs.current :=
    hcurrent.trans (Place.settledIn_eq_self (hadded.keeps fs.anchored))
  refine ⟨location, find_eq_ok_iff.2 ?_, hadded, hsame⟩
  apply locate_of_reach_bareHops (.inl rfl)
  apply reach_of_free (fun _ _ => hadded.keeps) hsame _ hreach
  rw [hafter, if_pos rfl]

/-- Creating a directory with those above it adds directories that the path leads to, or a shorter
one. -/
theorem createDirectories_leads (fs : FileSystem) (path : Path) :
    fs.tree.DirectoriesAdded (fs.createDirectories path).1.tree
        (fun location => ∃ count, (fs.createDirectories path).1.find .follow (path.upTo count) =
          .ok (location, .directory)) ∧
      (fs.createDirectories path).1.current = fs.current := by
  refine createAlong_keeps (fun after => fs.tree.DirectoriesAdded after.tree
      (fun location => ∃ count, after.find .follow (path.upTo count) = .ok (location, .directory)) ∧
    after.current = fs.current) ?_ ⟨.refl _, rfl⟩ path.cuts
  intro count before after hbefore h
  obtain ⟨location, hfind, hadded, hcurrent⟩ := find_of_create h
  have hstart := before.current.isLeftOf_append_replicate
  have hstays (shorter : Nat) (place : Location)
      (hplace : before.find .follow (path.upTo shorter) = .ok (place, .directory)) :
      after.find .follow (path.upTo shorter) = .ok (place, .directory) :=
    find_mono (fun _ _ => hadded.keeps) hstart (hcurrent ▸ hstart) (hcurrent ▸ Nat.le_refl _) hplace
  refine ⟨?_, hcurrent.trans hbefore.2⟩
  refine (hbefore.1.mono ?_).trans (hadded.mono fun place heq => ⟨count, heq ▸ hfind⟩)
  intro place hplace
  obtain ⟨shorter, hshorter⟩ := hplace
  exact ⟨shorter, hstays shorter place hshorter⟩

/-- A directory that was created, or was good enough, is there. -/
theorem isDirectory_of_createDirectories (hpath : path.isEmpty = false)
    (h : fs.createDirectories path = (after, .ok ())) : after.isDirectory path = true := by
  have hcreated {before created : FileSystem}
      (hcreate : before.create path .directory = .ok created) :
      created.isDirectory path = true := by
    obtain ⟨location, hfind, -⟩ := find_of_create hcreate
    exact isDirectory_of_find hfind
  have hsettled {before : FileSystem} {fault : Fault}
      (hsettle : createAlong.settle before path fault = .ok ()) :
      before.isDirectory path = true := by
    unfold createAlong.settle at hsettle
    split at hsettle
    · next hdirectory => exact hdirectory
    · cases hsettle
  rw [createDirectories, Path.cuts, createAlong, path.upTo_length_body, hpath] at h
  dsimp only at h
  rw [if_neg Bool.false_ne_true] at h
  split at h
  · next created hcreate =>
      cases h
      exact hcreated hcreate
  · split at h
    · cases h
    · split at h
      · next created hcreate =>
          cases h
          exact hcreated hcreate
      · obtain ⟨rfl, hsettle⟩ := Prod.mk.inj h
        exact hsettled hsettle
  · obtain ⟨rfl, hsettle⟩ := Prod.mk.inj h
    exact hsettled hsettle

theorem createDirectories_eq_ok
    (hstraight : fs.tree.Straight (path.startFrom start) path.hops)
    (hstart : fs.current.IsLeftOf start) (habsolute : path.isAbsolute) (hup : Hop.up ∉ path.hops)
    (h : fs.createDirectories path = (after, .ok ())) :
    after.tree.get? path.names = some .directory := by
  obtain ⟨hadded, hcurrent⟩ := createDirectories_added path hstraight hstart
  rw [h] at hadded hcurrent
  have hdirectory := isDirectory_of_createDirectories (not_isEmpty_of_isAbsolute habsolute) h
  obtain ⟨location, hfind⟩ := find_of_isDirectory (by rw [habsolute, Bool.true_or]) hdirectory
  obtain ⟨hplace, hentry⟩ :=
    find_holds_of_straight (hadded.straight hstraight) hcurrent hfind
  rwa [hplace, Path.placeFrom_of_not_up hup, if_pos habsolute, List.nil_append] at hentry

/-! ## Writing -/

/-- Writing changes the place where the path leads, if that is no sink. -/
theorem write_eq_ok (hstraight : fs.tree.Straight (path.startFrom start) path.hops)
    (hstart : fs.current.IsLeftOf start) (h : fs.write path content = .ok after) :
    fs.tree.get? (path.placeFrom start) ≠ some .directory ∧
      (∀ other, after.tree.get? other =
        if other = path.placeFrom start ∧ fs.tree.get? other ≠ some .sink then
          some (.file content)
        else fs.tree.get? other) ∧
      after.current.IsLeftOf start := by
  unfold write at h
  cases hlocate : fs.locate .write path with
  | error fault => simp [hlocate, Except.bind] at h
  | ok spot =>
      have hplace := locate_holds_of_straight hstraight hstart hlocate
      simp only [hlocate, Except.bind] at h
      cases spot with
      | removed => cases h
      | free location =>
          obtain ⟨place, hspot, hafter, hcurrent⟩ := put_eq_ok h
          cases hspot
          simp only [reduceCtorEq, false_and, false_or, Holds] at hplace
          obtain ⟨rfl, hnone⟩ := hplace
          refine ⟨by simp [hnone], fun other => ?_, hcurrent ▸ hstart.settledIn _⟩
          rw [hafter]
          by_cases hother : other = path.placeFrom start
          · simp [hother, hnone]
          · simp [hother]
      | taken location found =>
          simp only [reduceCtorEq, false_and, false_or, Holds] at hplace
          obtain ⟨rfl, hfound⟩ := hplace
          cases found with
          | directory => cases h
          | link target => cases h
          | socket => cases h
          | sink =>
              cases h
              refine ⟨by simp [hfound], fun other => ?_, hstart⟩
              by_cases hother : other = path.placeFrom start
              · simp [hother, hfound]
              · simp [hother]
          | file old =>
              cases h
              refine ⟨by simp [hfound], fun other => ?_, hstart.settledIn _⟩
              rw [withTree, get?_setContent]
              by_cases hother : other = path.placeFrom start
              · simp [hother, hfound, Entry.withContent]
              · simp [hother]

end FileSystem

end Snapshot
