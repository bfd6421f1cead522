import Snapshot.Proofs.Cuts
import Snapshot.Proofs.Requests

/-!
# Requests that succeed

What has to stand on the way of a path for a request to go well, where there are no links. A
directory is created if nothing but directories stands on the way to it, as far as anything does; a
file is written if the directory for it is there and no directory stands at its place. What a path
comes to depends on the places on its way only.
-/

namespace Snapshot

namespace Path

variable {path : Path}

theorem size_upTo_le (h : path.isAbsolute) (count : Nat) : (path.upTo count).size ≤ path.size := by
  have hparts := FileTree.sizeWithSlashes_append (path.body.take count) (path.body.drop count)
  rw [List.take_append_drop] at hparts
  rw [size_of_isAbsolute h, size_of_isAbsolute ((isAbsolute_upTo path count).trans h), body_upTo]
  split
  · obtain ⟨second, rest, hsegments⟩ := isAbsolute_iff.1 h
    have hbody := (body_of_isAbsolute hsegments (List.cons_ne_nil _ _)).2
    simp [hbody, Segment.sizeWithSlashes, Segment.empty]
    omega
  · omega

end Path

namespace FileTree

variable {tree other : FileTree} {here there place : Location} {ending : Ending}
  {hops front : List Hop} {name : Segment} {links : Nat}

/-- Without links and ways up a walk depends on the places that it reads as. -/
theorem walk_congr_of_prefixes (hlinks : tree.LinkFree) (hup : Hop.up ∉ hops)
    (h : ∀ names, names <+: hops.filterMap Hop.name? →
      other.get? (here ++ names) = tree.get? (here ++ names)) :
    other.walk ending links here hops = tree.walk ending links here hops := by
  induction hops generalizing here with
  | nil => rw [walk_nil, walk_nil]
  | cons hop rest ih =>
      have hrest : Hop.up ∉ rest := fun hmem => hup (List.mem_cons_of_mem _ hmem)
      cases hop with
      | up => exact absurd List.mem_cons_self hup
      | slash | dot =>
          rw [walk_step rfl, walk_step rfl]
          exact ih hrest h
      | into name =>
          have hplace := h [name] (by simp [Hop.name?])
          have hgoes : other.walk ending links (here ++ [name]) rest =
              tree.walk ending links (here ++ [name]) rest :=
            ih hrest fun names hnames => by
              have hlonger := h (name :: names) (by simpa [Hop.name?] using hnames)
              rwa [← List.append_cons]
          rw [walk_into, walk_into, hplace, hgoes]
          cases hentry : tree.get? (here ++ [name]) with
          | none => rfl
          | some entry =>
              cases entry with
              | link target => exact absurd hentry (hlinks _ _)
              | directory | file content | socket | sink => rfl

/-- Nothing but directories stands on the way of the names, as far as anything does. -/
def Open (tree : FileTree) (here names : Location) : Prop :=
  ∀ way, way <+: names → tree.get? (here ++ way) = none ∨
    tree.get? (here ++ way) = some .directory

theorem Open.tail {names : Location} (h : tree.Open here (name :: names)) :
    tree.Open (here ++ [name]) names := by
  intro way hway
  rw [← List.append_cons]
  exact h (name :: way) (by simpa using hway)

/-- A walk to a place whose directory is missing leads nowhere. -/
theorem walk_eq_noEntry (hwrite : ending ≠ .write) (hadmits : ∀ place, ending.admits place)
    (hup : Hop.up ∉ hops) (hnames : ∀ name ∈ hops.filterMap Hop.name?, name.IsName)
    (hopen : tree.Open here (hops.filterMap Hop.name?)) (hhere : tree.get? here = some .directory)
    (hmissing : tree.get? (here ++ (hops.filterMap Hop.name?).dropLast) = none) :
    tree.walk ending links here hops = .error .noEntry := by
  induction hops generalizing here with
  | nil => simp [hhere] at hmissing
  | cons hop rest ih =>
      have hrest : Hop.up ∉ rest := fun hmem => hup (List.mem_cons_of_mem _ hmem)
      cases hop with
      | up => exact absurd List.mem_cons_self hup
      | slash | dot =>
          rw [walk_step rfl]
          exact ih hrest hnames hopen hhere hmissing
      | into name =>
          have hinto : (Hop.into name :: rest).filterMap Hop.name? =
            name :: rest.filterMap Hop.name? := rfl
          rw [hinto] at hnames hopen hmissing
          have hmore : rest.filterMap Hop.name? ≠ [] := by
            intro hnil
            simp [hnil, hhere] at hmissing
          have hsize := (hnames name List.mem_cons_self).size_le
          rw [walk_into, if_neg (by simp [hwrite]),
            if_neg (by simp [Nat.not_lt.2 hsize, hadmits])]
          -- either the way ends here, before its last name, or it goes on through a directory
          rcases hopen [name] (by simp) with hnone | hdirectory
          · have hne : rest ≠ [] := fun hnil => hmore (by rw [hnil]; rfl)
            rw [hnone]
            exact if_neg hne
          · rw [hdirectory]
            refine ih hrest (fun name hmem => hnames name (List.mem_cons_of_mem _ hmem)) hopen.tail
              hdirectory ?_
            rw [List.dropLast_cons_of_ne_nil hmore, List.append_cons] at hmissing
            exact hmissing

/-- At its last name a walk comes to what stands there. -/
theorem walk_last (h : tree.Leads here front links there) (hname : name.IsName) {more : Nat}
    (hending : ending = .follow ∨ ending = .keep)
    (hlink : ∀ target, tree.get? (there ++ [name]) ≠ some (.link target)) :
    tree.walk ending (links + more) here (front ++ [.into name]) =
      .ok ((tree.get? (there ++ [name])).elim (.free (there ++ [name]))
        (.taken (there ++ [name]))) := by
  have hwrite : ending ≠ .write := by rcases hending with rfl | rfl <;> simp
  have hadmits : ending.admits (there ++ [name]) := by
    rcases hending with rfl | rfl <;> simp [Ending.admits]
  rw [h.walk_append (by simp) hending, walk_into, if_neg (by simp),
    if_neg (by simp [Nat.not_lt.2 hname.size_le, hadmits])]
  cases hentry : tree.get? (there ++ [name]) with
  | none => rfl
  | some entry =>
      cases entry with
      | link target => exact absurd hentry (hlink target)
      | directory => simp
      | file content | socket | sink => rfl

/-- For a path that ends in a name, a walk that is about to write goes as any other. -/
theorem walk_write_eq_follow (hlinks : tree.LinkFree)
    (hlast : ∃ name, hops.getLast? = some (.into name)) :
    tree.walk .write links here hops = tree.walk .follow links here hops := by
  induction hops generalizing here with
  | nil => rw [walk_nil, walk_nil]
  | cons hop rest ih =>
      obtain ⟨last, hlast⟩ := hlast
      have hgoes (there : Location) (hrest : rest ≠ []) :
          tree.walk .write links there rest = tree.walk .follow links there rest :=
        ih ⟨last, by rwa [List.getLast?_cons_of_ne_nil hrest] at hlast⟩
      cases hop with
      | slash | dot | up =>
          have hrest : rest ≠ [] := fun hnil => by simp [hnil] at hlast
          rw [walk_step rfl, walk_step rfl, hgoes _ hrest]
      | into name =>
          have hslashes : ¬(rest ≠ [] ∧ rest.all (· = .slash)) := fun hall => by
            rw [List.getLast?_cons_of_ne_nil hall.1] at hlast
            simpa using List.all_eq_true.1 hall.2 _ (List.mem_of_getLast? hlast)
          have hwrite : tree.walk .write links here (.into name :: rest) = _ := walk_into
          have hfollow : tree.walk .follow links here (.into name :: rest) = _ := walk_into
          have hadmits : Ending.write.admits (here ++ [name]) =
              Ending.follow.admits (here ++ [name]) := by simp [Ending.admits]
          rw [if_neg fun h => hslashes h.2, hadmits] at hwrite
          rw [if_neg (by simp)] at hfollow
          rw [hwrite, hfollow]
          cases hentry : tree.get? (here ++ [name]) with
          | none => rfl
          | some entry =>
              cases entry with
              | link target => exact absurd hentry (hlinks _ _)
              | file content | socket | sink => rfl
              | directory =>
                  by_cases hrest : rest = []
                  · rw [hrest]
                    simp only [walk_nil]
                  · simp only [hgoes _ hrest]

/-- Hops without a way up lead down through directories. -/
theorem leads_of_not_up (hup : Hop.up ∉ hops)
    (h : tree.get? (here ++ hops.filterMap Hop.name?) = some .directory) :
    tree.Leads here hops 0 (here ++ hops.filterMap Hop.name?) := by
  induction hops generalizing here with
  | nil =>
      rw [List.filterMap_nil, List.append_nil]
      exact .nil
  | cons hop rest ih =>
      have hrest : Hop.up ∉ rest := fun hmem => hup (List.mem_cons_of_mem _ hmem)
      cases hop with
      | up => exact absurd List.mem_cons_self hup
      | slash | dot => exact .step rfl (ih hrest h)
      | into name =>
          have hinto : (Hop.into name :: rest).filterMap Hop.name? =
            name :: rest.filterMap Hop.name? := rfl
          rw [hinto, List.append_cons] at h ⊢
          refine .into ?_ (ih hrest h)
          cases hmore : rest.filterMap Hop.name? with
          | nil => rwa [hmore, List.append_nil] at h
          | cons next names => exact get?_of_get?_append (hmore ▸ h)

end FileTree

namespace FileSystem

open FileTree

variable {fs other after : FileSystem} {path : Path} {ending : Ending} {front : List Hop}
  {name : Segment} {entry : Entry} {content : List UInt8}

/-! ## What a path depends on -/

section Congruence

variable (hlinks : fs.tree.LinkFree) (habsolute : path.isAbsolute) (hup : Hop.up ∉ path.hops)
  (hsame : ∀ place, place <+: path.names → other.tree.get? place = fs.tree.get? place)

include hlinks habsolute hup hsame

theorem locate_congr : other.locate ending path = fs.locate ending path := by
  have hwalk : other.tree.walk ending linkLimit [] path.hops =
      fs.tree.walk ending linkLimit [] path.hops :=
    walk_congr_of_prefixes hlinks hup hsame
  rw [locate, locate, reach, reach, if_pos habsolute, if_pos habsolute, hwalk]

theorem pathExists_congr : other.pathExists path = fs.pathExists path := by
  rw [pathExists, pathExists, entryAt, entryAt, locate_congr hlinks habsolute hup hsame]

theorem isDirectory_congr : other.isDirectory path = fs.isDirectory path := by
  rw [isDirectory, isDirectory, entryAt, entryAt, locate_congr hlinks habsolute hup hsame]

theorem isFile_congr : other.isFile path = fs.isFile path := by
  rw [isFile, isFile, entryAt, entryAt, locate_congr hlinks habsolute hup hsame]

theorem open?_congr : other.open? path = fs.open? path := by
  rw [open?, open?, entryAt, entryAt, locate_congr hlinks habsolute hup hsame]

theorem find_congr : other.find ending path = fs.find ending path := by
  rw [find, find, locate_congr hlinks habsolute hup hsame]

theorem leadsInto_congr (location : Location) :
    other.leadsInto location path = fs.leadsInto location path := by
  have hcanonical : other.canonicalize path = fs.canonicalize path := by
    rw [canonicalize, canonicalize, habsolute, find_congr hlinks habsolute hup hsame]
    rfl
  rw [leadsInto, leadsInto, hcanonical]

end Congruence

/-! ## Creating -/

theorem exists_put {directory : Location} (hdirectory : fs.tree.get? directory = some .directory)
    (hfree : fs.tree.get? (directory ++ [name]) = none) (hname : name.IsName) (entry : Entry) :
    ∃ after, fs.put (.free (directory ++ [name])) entry = .ok after := by
  obtain ⟨tree, htree⟩ := Option.isSome_iff_exists.1
    ((isSome_insert?_iff : (fs.tree.insert? (directory ++ [name]) entry).isSome ↔ _).2
      ⟨hdirectory, hfree, hname⟩)
  exact ⟨fs.withTree tree, by rw [put, htree]⟩

section Requests

variable (hlinks : fs.tree.LinkFree) (habsolute : path.isAbsolute) (hup : Hop.up ∉ path.hops)
  (hends : path.hops = front ++ [.into name])

include hends in
theorem bareHops_eq_hops : path.bareHops = path.hops := by
  simp [Path.bareHops, hends]

include hends in
theorem names_eq_concat : path.names = front.filterMap Hop.name? ++ [name] := by
  simp [Path.names, hends, Hop.name?]

include hlinks habsolute hup hends in
/-- What a path with a name at its end comes to is what stands there, if the directory for it does.
-/
theorem reach_last (haccepted : path.Acceptable ending)
    (hending : ending = .follow ∨ ending = .keep) (hname : name.IsName)
    (hdirectory : fs.tree.get? (front.filterMap Hop.name?) = some .directory) :
    fs.reach ending path path.hops =
      .ok ((fs.tree.get? path.names).elim (.free path.names) (.taken path.names)) := by
  have hfront : Hop.up ∉ front := fun hmem => hup (by simp [hends, hmem])
  have hleads : fs.tree.Leads [] front 0 (front.filterMap Hop.name?) :=
    leads_of_not_up hfront (by simpa using hdirectory)
  have hwalk : fs.tree.walk ending (0 + linkLimit) [] (front ++ [.into name]) = _ :=
    walk_last hleads hname hending (hlinks _)
  rw [reach_of_acceptable haccepted, if_pos habsolute, names_eq_concat hends, hends,
    ← Nat.zero_add linkLimit, hwalk]

include hlinks habsolute hup hends in
/-- A directory can be created where its directory stands and nothing else does. -/
theorem exists_create (haccepted : path.Acceptable .keep) (hname : name.IsName)
    (hdirectory : fs.tree.get? (front.filterMap Hop.name?) = some .directory)
    (hfree : fs.tree.get? path.names = none) :
    ∃ after, fs.create path .directory = .ok after ∧
      after.tree.get? path.names = some .directory ∧
      fs.tree.DirectoriesAdded after.tree (· <+: path.names) := by
  obtain ⟨after, hafter⟩ : ∃ after, fs.create path .directory = .ok after := by
    rw [create, bareHops_eq_hops hends,
      reach_last hlinks habsolute hup hends haccepted (.inr rfl) hname hdirectory, hfree]
    rw [names_eq_concat hends] at hfree ⊢
    exact exists_put hdirectory hfree hname _
  have hstart := Place.isLeftOf_append_replicate fs.current
  obtain ⟨-, hget, -⟩ := create_eq_ok hlinks.straight hstart hafter
  have hadded := directoriesAdded_of_create hlinks.straight hstart hafter
  rw [Path.placeFrom_of_not_up hup, if_pos habsolute, List.nil_append] at hget hadded
  exact ⟨after, hafter, by simp [hget], hadded.mono fun place heq => heq ▸ List.prefix_rfl⟩

end Requests

/-- A directory that is there cannot be created again. -/
theorem create_of_directory (hlinks : fs.tree.LinkFree) (habsolute : path.isAbsolute)
    (hup : Hop.up ∉ path.hops) (haccepted : path.Acceptable .keep)
    (hdirectory : fs.tree.get? path.names = some .directory) :
    fs.create path entry = .error .alreadyExists := by
  obtain ⟨slashes, hparts, hslashes⟩ := path.exists_slashes
  have hbare : path.bareHops.filterMap Hop.name? = path.names := by
    have hnone : slashes.filterMap Hop.name? = [] :=
      List.filterMap_eq_nil_iff.2 fun hop hmem => by
        rw [hslashes hop hmem]
        rfl
    rw [Path.names, hparts, List.filterMap_append, hnone, List.append_nil]
  have hbareUp : Hop.up ∉ path.bareHops := fun hmem => hup (by simp [hparts, hmem])
  have hwalk : fs.tree.walk .keep linkLimit [] path.bareHops =
      .ok (.taken ([] ++ path.bareHops.filterMap Hop.name?) .directory) :=
    walk_eq_taken hlinks (by simp) hbareUp get?_root (by rwa [hbare]) (by simp [Ending.admits])
      (.inl rfl)
  rw [create, reach_of_acceptable haccepted, if_pos habsolute, hwalk]
  rfl

/-- Nothing can be created where the directory for it is missing. -/
theorem create_of_missing (habsolute : path.isAbsolute) (hup : Hop.up ∉ path.hops)
    (hends : path.hops = front ++ [.into name]) (haccepted : path.Acceptable .keep)
    (hnames : ∀ name ∈ path.names, name.IsName) (hopen : fs.tree.Open [] path.names)
    (hmissing : fs.tree.get? (front.filterMap Hop.name?) = none) :
    fs.create path entry = .error .noEntry := by
  have hwalk : fs.tree.walk .keep linkLimit [] path.hops = .error .noEntry := by
    refine walk_eq_noEntry (by simp) (by simp [Ending.admits]) hup hnames hopen get?_root ?_
    rwa [← Path.names, names_eq_concat hends, List.dropLast_concat, List.nil_append]
  rw [create, bareHops_eq_hops hends, reach_of_acceptable haccepted, if_pos habsolute, hwalk]
  rfl

theorem names_upTo (path : Path) (count : Nat) :
    (path.upTo count).names =
      ((path.body.take count).map Hop.ofSegment).filterMap Hop.name? := by
  rw [Path.names, Path.hops_upTo]
  split
  · next hempty =>
      rw [hempty]
      rfl
  · rfl

theorem prefix_names_upTo (path : Path) (count : Nat) : (path.upTo count).names <+: path.names := by
  rw [names_upTo]
  exact ((List.take_prefix count path.body).map _).filterMap _

/-- The directory of a path from the root that ends in a name is a shorter part of it. -/
theorem exists_parent (habsolute : path.isAbsolute) (hup : Hop.up ∉ path.hops)
    (hends : path.hops = front ++ [.into name]) :
    ∃ count, path.parent? = some (path.upTo count) ∧
      (path.upTo count).names = front.filterMap Hop.name? ∧
      ((path.upTo count).EndsInName ∨ (path.upTo count).names = []) := by
  obtain ⟨hchain, hlast⟩ := Path.isChain_cuts habsolute hup ⟨name, by simp [hends]⟩
  have hcuts : path.cuts = path.body.length :: path.cuts.tail := rfl
  rw [hcuts] at hchain hlast
  rw [Path.parent?, hcuts]
  cases htail : path.cuts.tail with
  | nil =>
      have hhops : path.hops = [] := by
        rw [htail, List.getLast?_singleton, Option.some.injEq, List.length_eq_zero_iff] at hlast
        rw [Path.hops, hlast, List.map_nil]
      simp [hhops] at hends
  | cons next others =>
      rw [htail] at hchain hlast
      obtain ⟨⟨before, last, hbody, hnext⟩, hrest⟩ := List.isChain_cons_cons.1 hchain
      rw [List.take_length, ← Path.hops, hends] at hbody
      rw [← (List.append_inj_left' hbody rfl), ← names_upTo] at hnext
      refine ⟨next, rfl, hnext, ?_⟩
      cases others with
      | nil =>
          obtain rfl : next = 0 := by simpa using hlast
          exact .inr (by simp [names_upTo])
      | cons later others =>
          obtain ⟨⟨front, name, hfront, -⟩, -⟩ := List.isChain_cons_cons.1 hrest
          refine .inl ⟨name, ?_⟩
          rw [Path.hops_upTo, if_neg (fun hempty => by simp [hempty] at hfront), hfront]
          simp

section Creating

variable (hlinks : fs.tree.LinkFree) (habsolute : path.isAbsolute) (hup : Hop.up ∉ path.hops)
  (hnul : path.hasNul = false) (hsize : path.size ≤ Path.maxSize)
  (hnames : ∀ name ∈ path.names, name.IsName)

include habsolute hnul hsize in
theorem acceptable_upTo (count : Nat) : (path.upTo count).Acceptable ending where
  nulFree := Path.not_hasNul_upTo hnul count
  nonempty := not_isEmpty_of_isAbsolute ((Path.isAbsolute_upTo path count).trans habsolute)
  size_le := .inr (Nat.le_trans (Path.size_upTo_le habsolute count) hsize)

include hlinks habsolute hup hsize in
/-- It is good enough if a directory is there. -/
theorem settle_of_directory {count : Nat} {fault : Fault}
    (hdirectory : fs.tree.get? (path.upTo count).names = some .directory) :
    createAlong.settle fs (path.upTo count) fault = .ok () := by
  have hcount := (Path.isAbsolute_upTo path count).trans habsolute
  have hthere : fs.isDirectory (path.upTo count) = true :=
    (isDirectory_iff hlinks hcount (Path.up_not_mem_hops_upTo hup count)).2
      ⟨Nat.le_trans (Path.size_upTo_le habsolute count) hsize, hdirectory, .inl rfl⟩
  rw [createAlong.settle, if_pos hthere]

include hlinks habsolute hup hnul hsize hnames in
/-- Along cuts that leave one name after the other, a directory is created if nothing stands in its
way. The induction is on the cuts: where the directory for it is missing, the next one creates it.
-/
theorem createAlong_ok {count : Nat} {above : List Nat}
    (hchain : (count :: above).IsChain path.Extends)
    (hlast : (count :: above).getLast? = some 0)
    (hopen : fs.tree.Open [] (path.upTo count).names) :
    ∃ after, fs.createAlong path (count :: above) = (after, .ok ()) ∧
      after.tree.get? (path.upTo count).names = some .directory ∧
      fs.tree.DirectoriesAdded after.tree (· <+: (path.upTo count).names) := by
  induction above generalizing count with
  | nil =>
      obtain rfl : count = 0 := by simpa using hlast
      have hroot : fs.tree.get? (path.upTo 0).names = some .directory := by
        rw [names_upTo]
        rfl
      have haccepted : (path.upTo 0).Acceptable .keep := acceptable_upTo habsolute hnul hsize 0
      refine ⟨fs, ?_, hroot, .refl _⟩
      rw [createAlong, if_neg (by simp [haccepted.nonempty]),
        create_of_directory hlinks ((Path.isAbsolute_upTo path 0).trans habsolute)
          (Path.up_not_mem_hops_upTo hup 0) haccepted hroot]
      dsimp only
      rw [settle_of_directory hlinks habsolute hup hsize hroot]
  | cons next above ih =>
      obtain ⟨⟨front, name, hfront, hnext⟩, hrest⟩ := List.isChain_cons_cons.1 hchain
      have hcount := (Path.isAbsolute_upTo path count).trans habsolute
      have hcountUp := Path.up_not_mem_hops_upTo hup count
      have haccepted : (path.upTo count).Acceptable .keep :=
        acceptable_upTo habsolute hnul hsize count
      have hends : (path.upTo count).hops = front ++ [.into name] := by
        rw [Path.hops_upTo, if_neg fun hempty => ?_, hfront]
        simp [hempty] at hfront
      have hcountNames := names_eq_concat hends
      have hvalid : ∀ name ∈ (path.upTo count).names, name.IsName := fun name hmem =>
        hnames name ((prefix_names_upTo path count).subset hmem)
      have hname : name.IsName := hvalid name (by simp [hcountNames])
      rw [← names_upTo] at hnext
      have habove : (path.upTo next).names <+: (path.upTo count).names := by
        rw [hnext, hcountNames]
        exact List.prefix_append _ _
      rw [createAlong, if_neg (by simp [haccepted.nonempty])]
      rcases hopen _ List.prefix_rfl with hfree | hdirectory
      · rw [List.nil_append] at hfree
        rcases hopen _ habove with hmissing | hthere
        · -- the directory for it is created first
          rw [List.nil_append, hnext] at hmissing
          obtain ⟨middle, hmiddle, hthere, hadded⟩ := ih hrest (by simpa using hlast)
            fun way hway => hopen way (hway.trans habove)
          -- only directories above it are new
          have hmiddleFree : middle.tree.get? (path.upTo count).names = none := by
            rcases hadded.changed (path.upTo count).names with hsame | ⟨-, -, hbelow⟩
            · rw [hsame, hfree]
            · have hlength := hbelow.length_le
              rw [hcountNames, hnext, List.length_append, List.length_singleton] at hlength
              omega
          have hmiddleLinks := hadded.linkFree hlinks
          rw [hnext] at hthere
          obtain ⟨after, hafter, hdirectory, hmore⟩ :=
            exists_create hmiddleLinks hcount hcountUp hends haccepted hname hthere hmiddleFree
          rw [create_of_missing hcount hcountUp hends haccepted hvalid hopen hmissing]
          dsimp only
          rw [hmiddle]
          dsimp only
          rw [hafter]
          exact ⟨after, rfl, hdirectory, (hadded.mono fun _ h => h.trans habove).trans hmore⟩
        · rw [List.nil_append, hnext] at hthere
          obtain ⟨after, hafter, hdirectory, hadded⟩ :=
            exists_create hlinks hcount hcountUp hends haccepted hname hthere hfree
          rw [hafter]
          exact ⟨after, rfl, hdirectory, hadded⟩
      · rw [List.nil_append] at hdirectory
        rw [create_of_directory hlinks hcount hcountUp haccepted hdirectory]
        dsimp only
        rw [settle_of_directory hlinks habsolute hup hsize hdirectory]
        exact ⟨fs, rfl, hdirectory, .refl _⟩

include hlinks habsolute hup hnul hsize hnames in
/-- A directory is created if nothing stands in its way. -/
theorem createDirectories_ok (hends : path.EndsInName ∨ path.names = [])
    (hopen : fs.tree.Open [] path.names) :
    ∃ after, fs.createDirectories path = (after, .ok ()) ∧
      after.tree.get? path.names = some .directory ∧
      fs.tree.DirectoriesAdded after.tree (· <+: path.names) := by
  have hfirst : path.cuts = path.body.length :: path.cuts.tail := rfl
  rw [createDirectories, hfirst]
  rcases hends with hends | hroot
  · obtain ⟨hchain, hlast⟩ := Path.isChain_cuts habsolute hup hends
    rw [hfirst] at hchain hlast
    have hdone := createAlong_ok hlinks habsolute hup hnul hsize hnames hchain hlast
    rw [Path.upTo_length_body] at hdone
    exact hdone hopen
  -- the root cannot be created, but it is there
  · have hthere : fs.tree.get? path.names = some .directory := by
      rw [hroot]
      rfl
    have haccepted : path.Acceptable .keep :=
      ⟨hnul, not_isEmpty_of_isAbsolute habsolute, .inr hsize⟩
    refine ⟨fs, ?_, hthere, .refl _⟩
    rw [createAlong, Path.upTo_length_body, if_neg (by simp [haccepted.nonempty]),
      create_of_directory hlinks habsolute hup haccepted hthere]
    dsimp only
    rw [← path.upTo_length_body, settle_of_directory hlinks habsolute hup hsize]
    rwa [Path.upTo_length_body]

end Creating

/-- What it takes for a directory to be created. -/
structure Creatable (fs : FileSystem) (path : Path) : Prop where
  nulFree : path.hasNul = false
  size_le : path.size ≤ Path.maxSize
  isName : ∀ name ∈ path.names, name.IsName
  openWay : fs.tree.Open [] path.names

/-- Where a directory has been created, nothing was in its way. -/
theorem creatable_of_createDirectories (hlinks : fs.tree.LinkFree) (habsolute : path.isAbsolute)
    (hup : Hop.up ∉ path.hops) (h : fs.createDirectories path = (after, .ok ())) :
    fs.Creatable path := by
  obtain ⟨hadded, -⟩ := fs.createDirectories_leads path
  rw [h] at hadded
  obtain ⟨hsize, hthere, -⟩ := (isDirectory_iff (hadded.linkFree hlinks) habsolute hup).1
    (isDirectory_of_createDirectories (not_isEmpty_of_isAbsolute habsolute) h)
  refine ⟨not_hasNul_of_get? hthere, hsize, ?_, fun way hway => ?_⟩
  · intro name hname
    obtain ⟨front, rest, hnames⟩ := List.append_of_mem hname
    rw [hnames] at hthere
    exact isName_of_get? hthere
  · rw [List.nil_append]
    cases hbefore : fs.tree.get? way with
    | none => exact .inl rfl
    | some entry =>
        obtain ⟨below, hnames⟩ := hway
        rw [← hnames] at hthere
        cases below with
        | nil =>
            rw [List.append_nil, hadded.keeps hbefore] at hthere
            exact .inr hthere
        | cons name below =>
            have hdirectory := get?_of_get?_append hthere
            rw [hadded.keeps hbefore] at hdirectory
            exact .inr hdirectory

/-! ## Writing -/

/-- A file can be written where its directory stands and nothing but a file does. -/
theorem exists_write (hlinks : fs.tree.LinkFree) (habsolute : path.isAbsolute)
    (hup : Hop.up ∉ path.hops) (hends : path.hops = front ++ [.into name])
    (haccepted : path.Acceptable .write) (hname : name.IsName)
    (hdirectory : fs.tree.get? (front.filterMap Hop.name?) = some .directory)
    (hplace : ∀ entry, fs.tree.get? path.names = some entry →
      entry = .sink ∨ ∃ content, entry = .file content) :
    ∃ after, fs.write path content = .ok after := by
  have hfollow : path.Acceptable .follow :=
    ⟨haccepted.nulFree, haccepted.nonempty, .inr (haccepted.size_le.resolve_left (by simp))⟩
  have hlast : ∃ name, path.hops.getLast? = some (.into name) := ⟨name, by simp [hends]⟩
  have hlocate : fs.locate .write path =
      .ok ((fs.tree.get? path.names).elim (.free path.names) (.taken path.names)) := by
    rw [locate, reach_of_acceptable haccepted, walk_write_eq_follow hlinks hlast,
      ← reach_last hlinks habsolute hup hends hfollow (.inl rfl) hname hdirectory,
      reach_of_acceptable hfollow, if_pos habsolute, if_pos habsolute]
  rw [write, hlocate]
  cases hentry : fs.tree.get? path.names with
  | none =>
      rw [names_eq_concat hends] at hentry ⊢
      exact exists_put hdirectory hentry hname _
  | some entry =>
      rcases hplace entry hentry with rfl | ⟨old, rfl⟩
      · exact ⟨fs, rfl⟩
      · exact ⟨_, rfl⟩

theorem acceptable_of_write (h : fs.write path content = .ok after) : path.Acceptable .write := by
  unfold FileSystem.write at h
  cases hspot : fs.locate .write path with
  | error fault => simp [hspot, Except.bind] at h
  | ok spot => exact acceptable_of_reach hspot

/-- What is written to can be followed, and is a file or a sink if it is there. -/
theorem entry_of_write (hlinks : fs.tree.LinkFree) (habsolute : path.isAbsolute)
    (hup : Hop.up ∉ path.hops) (h : fs.write path content = .ok after) :
    path.Acceptable .write ∧ ∀ entry, fs.tree.get? path.names = some entry →
      entry = .sink ∨ ∃ content, entry = .file content := by
  have hstart := fs.current.isLeftOf_append_replicate
  have hplace (start : Location) : path.placeFrom start = path.names := by
    rw [Path.placeFrom_of_not_up hup, if_pos habsolute, List.nil_append]
  refine ⟨acceptable_of_write h, fun entry hentry => ?_⟩
  unfold write at h
  cases hspot : fs.locate .write path with
  | error fault => simp [hspot, Except.bind] at h
  | ok spot =>
      rw [hspot] at h
      rcases locate_holds_of_straight hlinks.straight hstart hspot with ⟨rfl, -⟩ | hholds
      · cases h
      · rw [hplace] at hholds
        cases spot with
        | removed => cases h
        | free location =>
            rw [hholds.2] at hentry
            cases hentry
        | taken location found =>
            obtain rfl : found = entry := Option.some.inj (hholds.2.symm.trans hentry)
            cases found with
            | sink => exact .inl rfl
            | file old => exact .inr ⟨old, rfl⟩
            | directory | link target | socket => cases h

end FileSystem

end Snapshot
