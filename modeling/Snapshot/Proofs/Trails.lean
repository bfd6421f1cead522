import Snapshot.FileTree.WalkLemmas
import Snapshot.Proofs.Places

/-!
# Walks in trees with links

`FileTree.Leads` says without bounds and endings what a walk does: hops lead from one directory to
another, and links on the way are followed, wherever they point. A walk that is to go on after some
hops follows them in just this way, with so many links less for the rest of it. What a walk comes to
is settled by what stands at the places it looks at, its `trail`; so it finds nothing new in a tree
that has less, and the same in every tree that has the same at these places.
-/

namespace Snapshot

/-- The directory in which the hops of a path start, seen from the given one. -/
def Path.startFrom (path : Path) (here : Location) : Location :=
  if path.isAbsolute then [] else here

theorem Path.startFrom_of_isAbsolute {path : Path} (h : path.isAbsolute) (here : Location) :
    path.startFrom here = [] :=
  if_pos h

namespace FileTree

/-- The hops lead from one directory to another, over so many links. -/
inductive Leads (tree : FileTree) : Location → List Hop → Nat → Location → Prop
  | nil {here : Location} : Leads tree here [] 0 here
  | step {here there : Location} {hop : Hop} {hops : List Hop} {links : Nat} :
      hop.name? = none → Leads tree (here.hop hop) hops links there →
      Leads tree here (hop :: hops) links there
  | into {here there : Location} {name : Segment} {hops : List Hop} {links : Nat} :
      tree.get? (here ++ [name]) = some .directory →
      Leads tree (here ++ [name]) hops links there →
      Leads tree here (.into name :: hops) links there
  | link {here there : Location} {name : Segment} {target : Path} {hops : List Hop} {links : Nat} :
      tree.get? (here ++ [name]) = some (.link target) →
      Leads tree (target.startFrom here) (target.hops ++ hops) links there →
      Leads tree here (.into name :: hops) (links + 1) there

variable {tree small big : FileTree} {here there middle place location : Location}
  {ending : Ending} {hop : Hop} {hops front rest : List Hop} {name : Segment} {target : Path}
  {entry : Entry} {spot : Spot} {links more : Nat}

/-! ## One hop -/

@[simp] theorem walk_nil : tree.walk ending links here [] = .ok (.taken here .directory) := by
  cases links with
  | zero => rw [walk_zero, descend]
  | succ links => rw [walk_succ, descend]

/-- A hop that goes into no name looks at nothing. -/
theorem walk_step (hhop : hop.name? = none) :
    tree.walk ending links here (hop :: hops) = tree.walk ending links (here.hop hop) hops := by
  cases links with
  | zero =>
      rw [walk_zero, walk_zero]
      cases hop with
      | slash | dot | up => rw [descend, Location.hop]
      | into name => cases hhop
  | succ links =>
      rw [walk_succ, walk_succ]
      cases hop with
      | slash | dot | up => rw [descend, Location.hop]
      | into name => cases hhop

theorem walk_append_of_nameless (hfront : ∀ hop ∈ front, hop.name? = none) :
    tree.walk ending links here (front ++ rest) =
      tree.walk ending links (here.follow front) rest := by
  induction front generalizing here with
  | nil => rfl
  | cons hop front ih =>
      rw [List.cons_append, walk_step (hfront hop List.mem_cons_self), Location.follow_cons]
      exact ih fun later hmem => hfront later (List.mem_cons_of_mem _ hmem)

/-- How a walk goes on at a link, with one link less. -/
def chase (tree : FileTree) (ending : Ending) (links : Nat) (here : Location) (target : Path)
    (rest : List Hop) : Except Fault Spot :=
  match links with
  | 0 => .error .tooManyLinks
  | links + 1 => tree.walk ending links (target.startFrom here) (target.hops ++ rest)

/-- What a hop into a name comes to. -/
theorem walk_into :
    tree.walk ending links here (.into name :: hops) =
      if ending = .write ∧ hops ≠ [] ∧ hops.all (· = .slash) then .error .isDirectory
      else if Segment.maxSize < name.text.utf8ByteSize ∨ !ending.admits (here ++ [name]) then
        .error .nameTooLong
      else
        match tree.get? (here ++ [name]) with
        | some .directory => tree.walk ending links (here ++ [name]) hops
        | some (.link target) =>
            if hops = [] ∧ ending = .keep then .ok (.taken (here ++ [name]) (.link target))
            else tree.chase ending links here target hops
        | some entry =>
            if hops = [] then .ok (.taken (here ++ [name]) entry) else .error .notDirectory
        | none => if hops = [] then .ok (.free (here ++ [name])) else .error .noEntry := by
  cases links with
  | zero =>
      rw [walk_zero, descend, walk_zero]
      rfl
  | succ links =>
      rw [walk_succ, descend, walk_succ]
      rfl

/-- The recursion of a walk: over the hops, and over the links where one is followed. -/
theorem walk_induction {motive : Nat → Location → List Hop → Prop}
    (nil : ∀ links here, motive links here [])
    (step : ∀ links here hop rest, hop.name? = none → motive links (here.hop hop) rest →
      motive links here (hop :: rest))
    (into : ∀ links here name rest, motive links (here ++ [name]) rest →
      (∀ fewer, links = fewer + 1 → ∀ target : Path,
        motive fewer (target.startFrom here) (target.hops ++ rest)) →
      motive links here (.into name :: rest))
    (links : Nat) (here : Location) (hops : List Hop) : motive links here hops := by
  induction links generalizing here hops with
  | zero =>
      induction hops generalizing here with
      | nil => exact nil _ _
      | cons hop hops ih =>
          cases hop with
          | slash | dot | up => exact step _ _ _ _ rfl (ih _)
          | into name => exact into _ _ _ _ (ih _) (by simp)
  | succ links ihLinks =>
      induction hops generalizing here with
      | nil => exact nil _ _
      | cons hop hops ih =>
          cases hop with
          | slash | dot | up => exact step _ _ _ _ rfl (ih _)
          | into name =>
              refine into _ _ _ _ (ih _) fun fewer heq target => ?_
              obtain rfl : links = fewer := Nat.succ.inj heq
              exact ihLinks _ _

/-- What a walk has met that goes well at a name: a directory to go on from, a link to follow, or
the end of the path. -/
theorem walk_into_eq_ok (h : tree.walk ending links here (.into name :: hops) = .ok spot) :
    (tree.get? (here ++ [name]) = some .directory ∧
        tree.walk ending links (here ++ [name]) hops = .ok spot) ∨
      (∃ target fewer, tree.get? (here ++ [name]) = some (.link target) ∧
        ¬(hops = [] ∧ ending = .keep) ∧ links = fewer + 1 ∧
        tree.walk ending fewer (target.startFrom here) (target.hops ++ hops) = .ok spot) ∨
      hops = [] ∧ ((∃ entry, tree.get? (here ++ [name]) = some entry ∧ entry ≠ .directory ∧
          ((∃ target, entry = .link target) → ending = .keep) ∧
          spot = .taken (here ++ [name]) entry) ∨
        tree.get? (here ++ [name]) = none ∧ spot = .free (here ++ [name])) := by
  rw [walk_into] at h
  split at h
  · cases h
  · split at h
    · cases h
    · split at h
      · next hdirectory => exact .inl ⟨hdirectory, h⟩
      · next target hlink =>
          split at h
          · next hkeep =>
              refine .inr (.inr ⟨hkeep.1, .inl ⟨_, hlink, by simp, ?_, (Except.ok.inj h).symm⟩⟩)
              exact fun _ => hkeep.2
          · next hfollow =>
              cases links with
              | zero => cases h
              | succ fewer => exact .inr (.inl ⟨target, fewer, hlink, hfollow, rfl, h⟩)
      · next entry hnotDirectory hnotLink hentry =>
          split at h
          · next hend =>
              refine .inr (.inr ⟨hend, .inl ⟨entry, hentry, ?_, ?_, (Except.ok.inj h).symm⟩⟩)
              · exact fun heq => hnotDirectory heq
              · rintro ⟨target, heq⟩
                exact absurd heq (hnotLink target)
          · cases h
      · next hnone =>
          split at h
          · next hend => exact .inr (.inr ⟨hend, .inr ⟨hnone, (Except.ok.inj h).symm⟩⟩)
          · cases h

/-- A walk that is not about to write goes on from a directory. -/
theorem walk_into_directory (hwrite : ending ≠ .write) (hadmits : ending.admits (here ++ [name]))
    (hdirectory : tree.get? (here ++ [name]) = some .directory) :
    tree.walk ending links here (.into name :: hops) =
      tree.walk ending links (here ++ [name]) hops := by
  have hsize := (isName_of_get? hdirectory).size_le
  rw [walk_into, if_neg (by simp [hwrite]), if_neg (by simp [Nat.not_lt.2 hsize, hadmits]),
    hdirectory]

theorem walk_into_link (hwrite : ending ≠ .write) (hadmits : ending.admits (here ++ [name]))
    (hlink : tree.get? (here ++ [name]) = some (.link target))
    (hfollow : hops ≠ [] ∨ ending ≠ .keep) :
    tree.walk ending links here (.into name :: hops) =
      tree.chase ending links here target hops := by
  have hsize := (isName_of_get? hlink).size_le
  rw [walk_into, if_neg (by simp [hwrite]), if_neg (by simp [Nat.not_lt.2 hsize, hadmits]), hlink]
  refine if_neg fun hkeep => ?_
  exact hfollow.elim (fun hne => hne hkeep.1) fun hne => hne hkeep.2

/-! ## What is found is there -/

theorem isPlain_of_get? (h : tree.get? location = some entry) : location.IsPlain := by
  intro name hname
  obtain ⟨above, below, rfl⟩ := List.append_of_mem hname
  exact (isName_of_get? h).ofSegment_eq

/-- Above what stands in a tree there are directories. -/
theorem exists_get?_of_prefix {above : Location} (habove : above <+: location)
    (h : tree.get? location = some entry) : ∃ found, tree.get? above = some found := by
  obtain ⟨below, rfl⟩ := habove
  cases below with
  | nil => exact ⟨entry, by rwa [List.append_nil] at h⟩
  | cons name below => exact ⟨_, get?_of_get?_append h⟩

theorem get?_hop (hhere : tree.get? here = some .directory) (hhop : hop.name? = none) :
    tree.get? (here.hop hop) = some .directory := by
  cases hop with
  | slash | dot => exact hhere
  | up => exact get?_dropLast hhere
  | into name => cases hhop

theorem get?_startFrom (hhere : tree.get? here = some .directory) (target : Path) :
    tree.get? (target.startFrom here) = some .directory := by
  unfold Path.startFrom
  split
  · rfl
  · exact hhere

/-- What a walk from a directory finds stands in the tree, and a free place is free. -/
theorem get?_of_walk (hhere : tree.get? here = some .directory)
    (h : tree.walk ending links here hops = .ok spot) :
    (∃ location entry, spot = .taken location entry ∧ tree.get? location = some entry) ∨
      ∃ location, spot = .free location ∧ tree.get? location = none := by
  induction links, here, hops using walk_induction with
  | nil links here =>
      rw [walk_nil] at h
      exact .inl ⟨here, .directory, (Except.ok.inj h).symm, hhere⟩
  | step links here hop rest hhop ih =>
      rw [walk_step hhop] at h
      exact ih (get?_hop hhere hhop) h
  | into links here name rest ih ihLink =>
      rcases walk_into_eq_ok h with
        ⟨hdirectory, hrest⟩ | ⟨target, fewer, -, -, heq, hrest⟩ |
          ⟨-, ⟨entry, hentry, -, -, heq⟩ | ⟨hnone, heq⟩⟩
      · exact ih hdirectory hrest
      · exact ihLink fewer heq target (get?_startFrom hhere target) hrest
      · exact .inl ⟨_, _, heq, hentry⟩
      · exact .inr ⟨_, heq, hnone⟩

/-- Going into a name finds something there. -/
theorem exists_get?_of_walk (hnames : hops.filterMap Hop.name? ≠ [])
    (h : tree.walk ending links here hops = .ok (.taken location entry)) :
    ∃ met, met ≠ [] ∧ ∃ found, tree.get? met = some found := by
  induction hops generalizing here with
  | nil => exact absurd rfl hnames
  | cons hop rest ih =>
      by_cases hhop : hop.name? = none
      · rw [walk_step hhop] at h
        rw [List.filterMap_cons, hhop] at hnames
        exact ih hnames h
      · cases hop with
        | slash | dot | up => exact absurd rfl hhop
        | into name =>
            refine ⟨here ++ [name], by simp, ?_⟩
            rcases walk_into_eq_ok h with
              ⟨hdirectory, -⟩ | ⟨target, fewer, hlink, -⟩ | ⟨-, ⟨found, hfound, -⟩ | ⟨-, heq⟩⟩
            · exact ⟨_, hdirectory⟩
            · exact ⟨_, hlink⟩
            · exact ⟨_, hfound⟩
            · cases heq

/-- What is found in a tree is found in one that has more. -/
theorem walk_mono
    (hsub : ∀ place entry, small.get? place = some entry → big.get? place = some entry)
    (h : small.walk ending links here hops = .ok (.taken location entry)) :
    big.walk ending links here hops = .ok (.taken location entry) := by
  induction links, here, hops using walk_induction with
  | nil links here => rwa [walk_nil] at h ⊢
  | step links here hop rest hhop ih =>
      rw [walk_step hhop] at h ⊢
      exact ih h
  | into links here name rest ih ihLink =>
      rw [walk_into] at h ⊢
      split at h
      · cases h
      · next hslashes =>
          rw [if_neg hslashes]
          split at h
          · cases h
          · next hsize =>
              rw [if_neg hsize]
              cases hplace : small.get? (here ++ [name]) with
              | none =>
                  rw [hplace] at h
                  dsimp only at h
                  split at h <;> cases h
              | some found =>
                  rw [hplace] at h
                  rw [hsub _ _ hplace]
                  cases found with
                  | directory => exact ih h
                  | file content | socket | sink => exact h
                  | link target =>
                      dsimp only at h ⊢
                      split
                      · next hkeep => rwa [if_pos hkeep] at h
                      · next hfollow =>
                          rw [if_neg hfollow] at h
                          cases links with
                          | zero => cases h
                          | succ fewer => exact ihLink fewer rfl target h

/-- Where a walk leads that follows links to the end and may refuse more, the path leads anyway. -/
theorem walk_follow_of_ok (hkeep : ending ≠ .keep)
    (h : tree.walk ending links here hops = .ok spot) :
    tree.walk .follow links here hops = .ok spot := by
  induction links, here, hops using walk_induction with
  | nil links here => rwa [walk_nil] at h ⊢
  | step links here hop rest hhop ih =>
      rw [walk_step hhop] at h ⊢
      exact ih h
  | into links here name rest ih ihLink =>
      rw [walk_into] at h ⊢
      rw [if_neg (by simp)]
      split at h
      · cases h
      · split at h
        · cases h
        · next hsize =>
            rw [if_neg fun hlong => hsize (hlong.imp_right (by simp [Ending.admits]))]
            cases hplace : tree.get? (here ++ [name]) with
            | none => rwa [hplace] at h
            | some found =>
                rw [hplace] at h
                cases found with
                | directory => exact ih h
                | file content | socket | sink => exact h
                | link target =>
                    dsimp only at h ⊢
                    rw [if_neg (by simp [hkeep])] at h
                    rw [if_neg (by simp)]
                    cases links with
                    | zero => cases h
                    | succ fewer => exact ihLink fewer rfl target h

/-! ## Directories that hops lead to -/

namespace Leads

/-- Only directories and links are passed. -/
theorem mono
    (hdirectories : ∀ {place}, small.get? place = some .directory →
      big.get? place = some .directory)
    (hlinks : ∀ {place target}, small.get? place = some (.link target) →
      big.get? place = some (.link target))
    (h : small.Leads here hops links there) : big.Leads here hops links there := by
  induction h with
  | nil => exact .nil
  | step hhop _ ih => exact .step hhop ih
  | into hdirectory _ ih => exact .into (hdirectories hdirectory) ih
  | link hlink _ ih => exact .link (hlinks hlink) ih

/-- Hops lead to one directory only, and over as many links each time. -/
theorem unique (h : tree.Leads here hops links there) (hother : tree.Leads here hops more middle) :
    more = links ∧ middle = there := by
  induction h generalizing more with
  | nil =>
      cases hother
      exact ⟨rfl, rfl⟩
  | step hhop _ ih =>
      cases hother with
      | step _ hother => exact ih hother
      | into _ _ => cases hhop
      | link _ _ => cases hhop
  | into hdirectory _ ih =>
      cases hother with
      | step hhop _ => cases hhop
      | into _ hother => exact ih hother
      | link hlink _ =>
          rw [hdirectory] at hlink
          cases hlink
  | link hlink _ ih =>
      cases hother with
      | step hhop _ => cases hhop
      | into hdirectory _ =>
          rw [hlink] at hdirectory
          cases hdirectory
      | link hsame hother =>
          rw [hlink] at hsame
          cases hsame
          obtain ⟨rfl, hend⟩ := ih hother
          exact ⟨rfl, hend⟩

/-- Hops that lead somewhere lead through a directory at each point. -/
theorem exists_middle (h : tree.Leads here (front ++ rest) links there) :
    ∃ used left middle, links = used + left ∧ tree.Leads here front used middle ∧
      tree.Leads middle rest left there := by
  -- the hops of a link come before the rest, so the front grows in the induction
  generalize heq : front ++ rest = hops at h
  induction h generalizing front with
  | nil =>
      obtain ⟨rfl, rfl⟩ := List.append_eq_nil_iff.1 heq
      exact ⟨0, 0, _, rfl, .nil, .nil⟩
  | @step here _ hop others links hhop hleads ih =>
      cases front with
      | nil =>
          rw [List.nil_append] at heq
          exact ⟨0, links, here, by simp, .nil, heq ▸ .step hhop hleads⟩
      | cons first front =>
          obtain ⟨rfl, hothers⟩ := List.cons.inj heq
          obtain ⟨used, left, middle, hlinks, hfront, hrest⟩ := ih hothers
          exact ⟨used, left, middle, hlinks, .step hhop hfront, hrest⟩
  | @into here _ name others links hdirectory hleads ih =>
      cases front with
      | nil =>
          rw [List.nil_append] at heq
          exact ⟨0, links, here, by simp, .nil, heq ▸ .into hdirectory hleads⟩
      | cons first front =>
          obtain ⟨rfl, hothers⟩ := List.cons.inj heq
          obtain ⟨used, left, middle, hlinks, hfront, hrest⟩ := ih hothers
          exact ⟨used, left, middle, hlinks, .into hdirectory hfront, hrest⟩
  | @link here _ name target others links hlink hleads ih =>
      cases front with
      | nil =>
          rw [List.nil_append] at heq
          exact ⟨0, links + 1, here, by simp, .nil, heq ▸ .link hlink hleads⟩
      | cons first front =>
          obtain ⟨rfl, hothers⟩ := List.cons.inj heq
          rw [List.append_eq] at hothers
          obtain ⟨used, left, middle, hlinks, hfront, hrest⟩ :=
            ih (by rw [← hothers, List.append_assoc])
          exact ⟨used + 1, left, middle, by omega, .link hlink hfront, hrest⟩

/-- A walk that goes on after the hops goes on from where they lead. -/
theorem walk_append (h : tree.Leads here front links there) (hrest : rest ≠ [])
    (hending : ending = .follow ∨ ending = .keep) :
    tree.walk ending (links + more) here (front ++ rest) = tree.walk ending more there rest := by
  have hwrite : ending ≠ .write := by rcases hending with rfl | rfl <;> simp
  have hadmits (place : Location) : ending.admits place := by
    rcases hending with rfl | rfl <;> simp [Ending.admits]
  induction h with
  | nil => simp
  | step hhop _ ih => exact (walk_step hhop).trans ih
  | into hdirectory _ ih => exact (walk_into_directory hwrite (hadmits _) hdirectory).trans ih
  | @link _ _ _ target hops links hlink _ ih =>
      have hne : hops ++ rest ≠ [] := by simp [hrest]
      rw [Nat.add_right_comm, List.cons_append,
        walk_into_link hwrite (hadmits _) hlink (.inl hne), chase, ← List.append_assoc]
      exact ih

/-- The directory is found, if there are links enough, and can be spelled if all on the way can. -/
theorem walk_end (h : tree.Leads here hops links there)
    (hending : ending = .follow ∨ ending = .spell)
    (hadmits : ∀ place entry, tree.get? place = some entry → ending.admits place) :
    tree.walk ending (links + more) here hops = .ok (.taken there .directory) := by
  have hwrite : ending ≠ .write := by rcases hending with rfl | rfl <;> simp
  have hkeep : ending ≠ .keep := by rcases hending with rfl | rfl <;> simp
  induction h with
  | nil => simp
  | step hhop _ ih => exact (walk_step hhop).trans ih
  | into hdirectory _ ih =>
      exact (walk_into_directory hwrite (hadmits _ _ hdirectory) hdirectory).trans ih
  | @link _ _ _ target hops links hlink _ ih =>
      rw [Nat.add_right_comm, walk_into_link hwrite (hadmits _ _ hlink) hlink (.inr hkeep), chase]
      exact ih

theorem walk_follow (h : tree.Leads here hops links there) :
    tree.walk .follow (links + more) here hops = .ok (.taken there .directory) :=
  h.walk_end (.inl rfl) fun _ _ _ => by simp [Ending.admits]

/-- If the last name is that of a link, that is found. -/
theorem walk_keep (h : tree.Leads here hops links there) :
    ∃ place found, tree.walk .keep (links + more) here hops = .ok (.taken place found) := by
  have hadmits (place : Location) : Ending.keep.admits place := by simp [Ending.admits]
  induction h with
  | nil => exact ⟨_, _, walk_nil⟩
  | step hhop _ ih =>
      rw [walk_step hhop]
      exact ih
  | into hdirectory _ ih =>
      rw [walk_into_directory (by simp) (hadmits _) hdirectory]
      exact ih
  | @link _ _ name target hops links hlink _ ih =>
      by_cases hend : hops = []
      · have hsize := (isName_of_get? hlink).size_le
        rw [hend, walk_into, hlink, if_neg (by simp),
          if_neg (by simp [Nat.not_lt.2 hsize, hadmits])]
        exact ⟨_, _, if_pos ⟨rfl, rfl⟩⟩
      · rw [Nat.add_right_comm, walk_into_link (by simp) (hadmits _) hlink (.inl hend), chase]
        exact ih

end Leads

/-- What stands in directories is led to by names. -/
theorem leads_of_get? {names : Location} (h : tree.get? (here ++ names) = some .directory) :
    tree.Leads here (names.map Hop.into) 0 (here ++ names) := by
  induction names generalizing here with
  | nil =>
      rw [List.append_nil]
      exact .nil
  | cons name names ih =>
      rw [List.append_cons] at h ⊢
      refine .into ?_ (ih h)
      cases names with
      | nil => rwa [List.append_nil] at h
      | cons next names => exact get?_of_get?_append h

theorem leads_ofLocation (h : tree.get? location = some .directory) :
    tree.Leads [] (Path.ofLocation location).hops 0 location := by
  rw [Path.hops_ofLocation (isPlain_of_get? h)]
  split
  · next hroot =>
      rw [hroot]
      exact .step rfl .nil
  · exact leads_of_get? h

/-- What a walk has done that goes well: it was led through the hops that others follow. -/
theorem walk_append_eq_ok (hrest : rest ≠ [])
    (h : tree.walk ending links here (front ++ rest) = .ok spot) :
    ∃ used left there, links = used + left ∧ tree.Leads here front used there ∧
      tree.walk ending left there rest = .ok spot := by
  -- a link is followed in front of the hops after it, so the front grows in the induction
  generalize heq : front ++ rest = hops at h
  induction links, here, hops using walk_induction generalizing front with
  | nil links here => simp [hrest] at heq
  | step links here hop others hhop ih =>
      cases front with
      | nil =>
          rw [← heq] at h
          exact ⟨0, links, here, by simp, .nil, h⟩
      | cons first front =>
          obtain ⟨rfl, hothers⟩ := List.cons.inj heq
          obtain ⟨used, left, there, hlinks, hleads, hleft⟩ := ih hothers (walk_step hhop ▸ h)
          exact ⟨used, left, there, hlinks, .step hhop hleads, hleft⟩
  | into links here name others ih ihLink =>
      cases front with
      | nil =>
          rw [← heq] at h
          exact ⟨0, links, here, by simp, .nil, h⟩
      | cons first front =>
          obtain ⟨rfl, hothers⟩ := List.cons.inj heq
          rcases walk_into_eq_ok h with
            ⟨hdirectory, hgoes⟩ | ⟨target, fewer, hlink, -, hfewer, hgoes⟩ | ⟨hnil, -⟩
          · obtain ⟨used, left, there, hlinks, hleads, hleft⟩ := ih hothers hgoes
            exact ⟨used, left, there, hlinks, .into hdirectory hleads, hleft⟩
          · obtain ⟨used, left, there, hlinks, hleads, hleft⟩ :=
              ihLink fewer hfewer target
                (by rw [← hothers, List.append_eq, ← List.append_assoc]) hgoes
            exact ⟨used + 1, left, there, by omega, .link hlink hleads, hleft⟩
          · simp [← hothers, hrest] at hnil

/-- What leads to a directory leads there as well if a path is added. -/
theorem exists_leads_join {left right : Path} (hright : right.isAbsolute = false)
    (h : tree.Leads here left.hops links there) :
    ∃ front, (left.join right).hops = front ++ right.hops ∧ tree.Leads here front links there := by
  obtain ⟨front, hjoin, hleft | hleft⟩ := Path.exists_hops_join left hright
  · exact ⟨front, hjoin, hleft ▸ h⟩
  · -- the slash at the end of the left path is not doubled
    rw [hleft] at h
    obtain ⟨used, left, middle, rfl, hfront, hslash⟩ := h.exists_middle
    cases hslash with
    | step _ hend =>
        cases hend
        exact ⟨front, hjoin, hfront⟩

/-- A directory that is found is led to. -/
theorem leads_of_walk (h : tree.walk ending links here hops = .ok (.taken there .directory)) :
    ∃ used, used ≤ links ∧ tree.Leads here hops used there := by
  induction links, here, hops using walk_induction with
  | nil links here =>
      rw [walk_nil] at h
      cases h
      exact ⟨0, Nat.zero_le _, .nil⟩
  | step links here hop rest hhop ih =>
      obtain ⟨used, hused, hleads⟩ := ih (walk_step hhop ▸ h)
      exact ⟨used, hused, .step hhop hleads⟩
  | into links here name rest ih ihLink =>
      rcases walk_into_eq_ok h with
        ⟨hdirectory, hrest⟩ | ⟨target, fewer, hlink, -, heq, hrest⟩ |
          ⟨-, ⟨found, -, hne, -, heq⟩ | ⟨-, heq⟩⟩
      · obtain ⟨used, hused, hleads⟩ := ih hrest
        exact ⟨used, hused, .into hdirectory hleads⟩
      · obtain ⟨used, hused, hleads⟩ := ihLink fewer heq target hrest
        exact ⟨used + 1, by omega, .link hlink hleads⟩
      · cases heq
        exact absurd rfl hne
      · cases heq

/-- Nothing stands in a place that is free. -/
theorem walk_into_eq_free {name : Segment}
    (h : tree.walk .keep links here [.into name] = .ok (.free location)) :
    location = here ++ [name] ∧ tree.get? location = none := by
  rcases walk_into_eq_ok h with
    ⟨-, hend⟩ | ⟨_, _, -, hfollow, -⟩ | ⟨-, ⟨_, -, -, -, heq⟩ | ⟨hnone, heq⟩⟩
  · rw [walk_nil] at hend
    cases hend
  · exact absurd ⟨rfl, rfl⟩ hfollow
  · cases heq
  · cases heq
    exact ⟨rfl, hnone⟩

/-- A free place at which a link would stand for itself is that of the last name of the path. -/
theorem walk_keep_eq_free (h : tree.walk .keep links here hops = .ok (.free location)) :
    ∃ front name used there, hops = front ++ [.into name] ∧ used ≤ links ∧
      tree.Leads here front used there ∧ location = there ++ [name] ∧
        tree.get? location = none := by
  rcases List.eq_nil_or_concat hops with rfl | ⟨front, last, rfl⟩
  · rw [walk_nil] at h
    cases h
  · rw [List.concat_eq_append] at h ⊢
    obtain ⟨used, left, there, rfl, hleads, hlast⟩ := walk_append_eq_ok (by simp) h
    cases last with
    | slash | dot | up =>
        rw [walk_step rfl, walk_nil] at hlast
        cases hlast
    | into name =>
        exact ⟨front, name, used, there, rfl, Nat.le_add_right _ _, hleads, walk_into_eq_free hlast⟩

/-- Where a path with slashes at its end leads, if what is before them leads to a directory. -/
theorem walk_append_slashes (hending : ending = .follow ∨ ending = .keep)
    (hrest : ∀ hop ∈ rest, hop = .slash)
    (h : tree.walk .keep links here hops = .ok (.taken location .directory)) :
    tree.walk ending links here (hops ++ rest) = .ok (.taken location .directory) := by
  have hwrite : ending ≠ .write := by rcases hending with rfl | rfl <;> simp
  have hadmits (place : Location) : ending.admits place := by
    rcases hending with rfl | rfl <;> simp [Ending.admits]
  induction links, here, hops using walk_induction with
  | nil links here =>
      have hnameless (hop : Hop) (hmem : hop ∈ rest) : hop.name? = none := by
        rw [hrest hop hmem]
        rfl
      have hstay : tree.walk ending links here (rest ++ []) =
          tree.walk ending links (here.follow rest) [] := walk_append_of_nameless hnameless
      rw [List.append_nil, Location.follow_of_slashes hrest, walk_nil] at hstay
      rw [walk_nil] at h
      exact hstay.trans h
  | step links here hop others hhop ih =>
      rw [walk_step hhop] at h
      rw [List.cons_append, walk_step hhop]
      exact ih h
  | into links here name others ih ihLink =>
      rw [List.cons_append]
      rcases walk_into_eq_ok h with
        ⟨hdirectory, hgoes⟩ | ⟨target, fewer, hlink, hfollow, rfl, hgoes⟩ |
          ⟨-, ⟨found, -, hne, -, heq⟩ | ⟨-, heq⟩⟩
      · rw [walk_into_directory hwrite (hadmits _) hdirectory]
        exact ih hgoes
      · have hothers : others ++ rest ≠ [] := fun hnil =>
          hfollow ⟨(List.append_eq_nil_iff.1 hnil).1, rfl⟩
        rw [walk_into_link hwrite (hadmits _) hlink (.inl hothers), chase, ← List.append_assoc]
        exact ihLink fewer rfl target hgoes
      · cases heq
        exact absurd rfl hne
      · cases heq

/-- Once a directory stands at a free place, it is found there. -/
theorem walk_keep_of_free
    (hsub : ∀ place entry, small.get? place = some entry → big.get? place = some entry)
    (hdirectory : big.get? location = some .directory)
    (h : small.walk .keep links here hops = .ok (.free location)) :
    big.walk .keep links here hops = .ok (.taken location .directory) := by
  obtain ⟨front, name, used, there, rfl, hused, hleads, rfl, -⟩ := walk_keep_eq_free h
  have hlast : links = used + (links - used) := by omega
  rw [hlast, (hleads.mono (hsub _ _) (hsub _ _)).walk_append (List.cons_ne_nil _ _) (.inr rfl),
    walk_into_directory (by simp) (by simp [Ending.admits]) hdirectory, walk_nil]

/-! ## Fewer links -/

/-- What is found with some links is found with fewer, or there are too many of them. -/
theorem walk_keep_of_follow (h : tree.walk .follow links here hops = .ok (.taken location entry))
    {fewer : Nat} (hfewer : fewer ≤ links) :
    (∃ location entry, tree.walk .keep fewer here hops = .ok (.taken location entry)) ∨
      tree.walk .keep fewer here hops = .error .tooManyLinks := by
  induction links, here, hops using walk_induction generalizing fewer with
  | nil links here => exact .inl ⟨here, .directory, walk_nil⟩
  | step links here hop rest hhop ih =>
      rw [walk_step hhop] at h ⊢
      exact ih h hfewer
  | into links here name rest ih ihLink =>
      have hadmits : Ending.keep.admits (here ++ [name]) := by simp [Ending.admits]
      rcases walk_into_eq_ok h with
        ⟨hdirectory, hrest⟩ | ⟨target, left, hlink, -, rfl, hrest⟩ |
          ⟨rfl, ⟨found, hfound, hne, hfollow, -⟩ | ⟨-, heq⟩⟩
      · rw [walk_into_directory (by simp) hadmits hdirectory]
        exact ih hrest hfewer
      · by_cases hend : rest = []
        · subst hend
          have hsize := (isName_of_get? hlink).size_le
          left
          rw [walk_into, hlink, if_neg (by simp), if_neg (by simp [Nat.not_lt.2 hsize, hadmits])]
          exact ⟨_, _, if_pos ⟨rfl, rfl⟩⟩
        · rw [walk_into_link (by simp) hadmits hlink (.inl hend)]
          cases fewer with
          | zero => exact .inr rfl
          | succ fewer => exact ihLink left rfl target hrest (Nat.le_of_succ_le_succ hfewer)
      · have hsize := (isName_of_get? hfound).size_le
        left
        rw [walk_into, hfound, if_neg (by simp), if_neg (by simp [Nat.not_lt.2 hsize, hadmits])]
        cases found with
        | directory => exact absurd rfl hne
        | link target => cases hfollow ⟨target, rfl⟩
        | file content | socket | sink => exact ⟨_, _, if_pos rfl⟩
      · cases heq

/-! ## What a walk looks at -/

/-- The places that hops look at. Links are gone on from as `onward` says. -/
def lookups (tree : FileTree) (onward : Location → Path → List Hop → List Location) :
    Location → List Hop → List Location
  | _, [] => []
  | here, .slash :: rest => lookups tree onward here rest
  | here, .dot :: rest => lookups tree onward here rest
  | here, .up :: rest => lookups tree onward here.dropLast rest
  | here, .into name :: rest =>
      let place := here ++ [name]
      place ::
        match tree.get? place with
        | some .directory => lookups tree onward place rest
        | some (.link target) => onward here target rest
        | _ => []

/-- The places that a walk looks at which follows at most so many links, in their order. -/
def trail (tree : FileTree) : (links : Nat) → Location → List Hop → List Location
  | 0 => tree.lookups fun _ _ _ => []
  | links + 1 =>
      tree.lookups fun here target rest =>
        trail tree links (target.startFrom here) (target.hops ++ rest)

theorem trail_step (hhop : hop.name? = none) :
    tree.trail links here (hop :: hops) = tree.trail links (here.hop hop) hops := by
  cases hop with
  | into name => cases hhop
  | slash | dot | up =>
      cases links with
      | zero => rw [trail, lookups, Location.hop]
      | succ links => rw [trail, lookups, Location.hop]

theorem mem_trail_into : here ++ [name] ∈ tree.trail links here (.into name :: hops) := by
  cases links with
  | zero =>
      rw [trail, lookups]
      exact List.mem_cons_self
  | succ links =>
      rw [trail, lookups]
      exact List.mem_cons_self

theorem trail_subset_into_directory (hdirectory : tree.get? (here ++ [name]) = some .directory) :
    tree.trail links (here ++ [name]) hops ⊆ tree.trail links here (.into name :: hops) := by
  cases links with
  | zero =>
      rw [trail, lookups, hdirectory]
      exact List.subset_cons_self _ _
  | succ links =>
      rw [trail, lookups, hdirectory]
      exact List.subset_cons_self _ _

theorem trail_subset_into_link (hlink : tree.get? (here ++ [name]) = some (.link target)) :
    tree.trail links (target.startFrom here) (target.hops ++ hops) ⊆
      tree.trail (links + 1) here (.into name :: hops) := by
  rw [trail.eq_2, lookups, hlink]
  exact List.subset_cons_self _ _

/-- A walk comes to the same in a tree that has the same where it looks. -/
theorem walk_congr {other : FileTree}
    (h : ∀ place ∈ tree.trail links here hops, other.get? place = tree.get? place) :
    other.walk ending links here hops = tree.walk ending links here hops := by
  induction links, here, hops using walk_induction with
  | nil links here => rw [walk_nil, walk_nil]
  | step links here hop rest hhop ih =>
      rw [trail_step hhop] at h
      rw [walk_step hhop, walk_step hhop]
      exact ih h
  | into links here name rest ih ihLink =>
      rw [walk_into, walk_into, h _ mem_trail_into]
      cases hplace : tree.get? (here ++ [name]) with
      | none => rfl
      | some found =>
          cases found with
          | file content | socket | sink => rfl
          | directory =>
              have hrest := ih fun place hmem => h place (trail_subset_into_directory hplace hmem)
              dsimp only
              rw [hrest]
          | link target =>
              have hrest : other.chase ending links here target rest =
                  tree.chase ending links here target rest := by
                cases links with
                | zero => rfl
                | succ fewer =>
                    exact ihLink fewer rfl target fun place hmem =>
                      h place (trail_subset_into_link hplace hmem)
              dsimp only
              rw [hrest]

end FileTree

end Snapshot
