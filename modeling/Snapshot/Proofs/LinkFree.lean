import Snapshot.FileSystem.Operations
import Snapshot.Proofs.Trails

/-!
# Trees without links

In a tree without links a path leads nowhere else than it reads: whatever a walk finds stands at the
place that `Location.follow` gives. For this it is enough that the path itself passes no link. For
absolute paths that never go up it is said exactly what is found. What limits this is the system
alone: a path longer than `Path.maxSize` finds nothing, and a slash or a dot at the end of a path
asks for a directory.
-/

namespace Snapshot

namespace FileTree

/-- No entry of the tree is a link. -/
def LinkFree (tree : FileTree) : Prop :=
  ∀ location target, tree.get? location ≠ some (.link target)

variable {tree : FileTree} {here location : Location} {ending : Ending} {hops : List Hop}
  {entry : Entry} {spot : Spot} {chase : Location → Path → List Hop → Except Fault Spot}

theorem linkFree_of_entries (h : ∀ entry ∈ tree.entries, ¬entry.2 matches .link _) :
    tree.LinkFree := by
  intro location target hlink
  by_cases hroot : location = []
  · simp [hroot] at hlink
  · exact h _ ((get?_eq_some_iff_mem hroot).1 hlink) rfl

theorem isPlain_below {base middle below : Location}
    (h : tree.get? (base ++ (middle ++ below)) = some entry) : below.IsPlain :=
  fun name hmem => isPlain_of_get? h name (by simp [hmem])

theorem isName_below {base middle below : Location} {name : Segment}
    (h : tree.get? (base ++ (middle ++ name :: below)) = some entry) : name.IsName := by
  rw [← List.append_assoc] at h
  exact isName_of_get? h

/-- What a walk finds stands at the location that it was to reach. -/
def Holds (tree : FileTree) (location : Location) : Spot → Prop
  | .taken place entry => place = location ∧ tree.get? location = some entry
  | .free place => place = location ∧ tree.get? location = none
  | .removed => False

/-- The hops pass no link, as they read. -/
def Straight (tree : FileTree) (here : Location) (hops : List Hop) : Prop :=
  ∀ way, way <+: hops → ∀ target, tree.get? (here.follow way) ≠ some (.link target)

theorem LinkFree.straight (h : tree.LinkFree) : tree.Straight here hops :=
  fun _ _ => h _

theorem Straight.tail {hop : Hop} (h : tree.Straight here (hop :: hops)) :
    tree.Straight (here.hop hop) hops :=
  fun way hway => h (hop :: way) (List.cons_prefix_cons.2 ⟨rfl, hway⟩)

theorem Straight.append {front : List Hop} (h : tree.Straight here (front ++ hops)) :
    tree.Straight (here.follow front) hops := by
  induction front generalizing here with
  | nil => exact h
  | cons hop front ih => exact ih h.tail

theorem Straight.of_prefix {front : List Hop} (h : tree.Straight here hops)
    (hfront : front <+: hops) : tree.Straight here front :=
  fun way hway => h way (hway.trans hfront)

/-- A shorter path passes what the path passes. -/
theorem Straight.upTo {path : Path} (h : tree.Straight here path.hops) (count : Nat) :
    tree.Straight here (path.upTo count).hops := by
  rw [Path.hops_upTo]
  split
  · intro way hway
    have hstay : here.follow way = here := by
      obtain ⟨rest, hrest⟩ := hway
      rcases List.append_eq_singleton_iff.1 hrest with ⟨rfl, -⟩ | ⟨rfl, -⟩
      · rfl
      · rfl
    rw [hstay]
    exact h [] List.nil_prefix
  · exact h.of_prefix ((List.take_prefix _ _).map _)

theorem Straight.startFrom_upTo {path : Path} (h : tree.Straight (path.startFrom here) path.hops)
    (count : Nat) : tree.Straight ((path.upTo count).startFrom here) (path.upTo count).hops := by
  rw [Path.startFrom, Path.isAbsolute_upTo]
  exact h.upTo count

/-- The hops pass no link before their end. -/
def Unlinked (tree : FileTree) (here : Location) (hops : List Hop) : Prop :=
  ∀ way, way <+: hops → way ≠ hops → ∀ target, tree.get? (here.follow way) ≠ some (.link target)

theorem Unlinked.tail {hop : Hop} (h : tree.Unlinked here (hop :: hops)) :
    tree.Unlinked (here.hop hop) hops :=
  fun way hway hne => h (hop :: way) (List.cons_prefix_cons.2 ⟨rfl, hway⟩) (by simp [hne])

theorem Straight.unlinked (h : tree.Straight here hops) : tree.Unlinked here hops :=
  fun way hway _ => h way hway

/-- Unless a link at the end is followed, a walk leads where the hops read. -/
theorem walk_holds_of_unlinked (hunlinked : tree.Unlinked here hops)
    (hends : ending = .keep ∨ ∀ target, tree.get? (here.follow hops) ≠ some (.link target))
    (hhere : tree.get? here = some .directory) {links : Nat}
    (h : tree.walk ending links here hops = .ok spot) : tree.Holds (here.follow hops) spot := by
  induction hops generalizing here with
  | nil =>
      rw [walk_nil] at h
      cases h
      exact ⟨rfl, hhere⟩
  | cons hop rest ih =>
      by_cases hhop : hop.name? = none
      · exact ih hunlinked.tail hends (get?_hop hhere hhop) (walk_step hhop ▸ h)
      · cases hop with
        | slash | dot | up => exact absurd rfl hhop
        | into name =>
            rcases walk_into_eq_ok h with
              ⟨hdirectory, hrest⟩ | ⟨target, fewer, hlink, hfollow, -⟩ |
                ⟨rfl, ⟨entry, hentry, -, -, rfl⟩ | ⟨hnone, rfl⟩⟩
            · exact ih hunlinked.tail hends hdirectory hrest
            · by_cases hlast : rest = []
              · subst hlast
                exact absurd hlink (hends.resolve_left (fun hkeep => hfollow ⟨rfl, hkeep⟩) target)
              · have hnot := hunlinked [.into name] ⟨rest, rfl⟩ (by simp [Ne.symm hlast])
                exact absurd hlink (hnot target)
            · exact ⟨rfl, hentry⟩
            · exact ⟨rfl, hnone⟩

theorem walk_holds_of_straight (hstraight : tree.Straight here hops)
    (hhere : tree.get? here = some .directory) {links : Nat}
    (h : tree.walk ending links here hops = .ok spot) : tree.Holds (here.follow hops) spot :=
  walk_holds_of_unlinked hstraight.unlinked (.inr (hstraight hops List.prefix_rfl)) hhere h

theorem walk_holds (hlinks : tree.LinkFree) (hhere : tree.get? here = some .directory)
    {links : Nat} (h : tree.walk ending links here hops = .ok spot) :
    tree.Holds (here.follow hops) spot :=
  walk_holds_of_straight hlinks.straight hhere h

/-- What is no directory is found only under a path that ends in its name. -/
theorem walk_ends (hlinks : tree.LinkFree) {links : Nat}
    (h : tree.walk ending links here hops = .ok (.taken location entry)) :
    entry = .directory ∨ ∃ name, hops.getLast? = some (.into name) := by
  induction hops generalizing here with
  | nil =>
      rw [walk_nil] at h
      cases h
      exact .inl rfl
  | cons hop rest ih =>
      have hlater (hrest : entry = .directory ∨ ∃ name, rest.getLast? = some (.into name)) :
          entry = .directory ∨ ∃ name, (hop :: rest).getLast? = some (.into name) := by
        refine hrest.imp_right fun ⟨name, hname⟩ => ⟨name, ?_⟩
        rw [List.getLast?_cons, hname]
        rfl
      by_cases hhop : hop.name? = none
      · exact hlater (ih (walk_step hhop ▸ h))
      · cases hop with
        | slash | dot | up => exact absurd rfl hhop
        | into name =>
            rcases walk_into_eq_ok h with ⟨-, hrest⟩ | ⟨target, -, hlink, -⟩ | ⟨rfl, -⟩
            · exact hlater (ih hrest)
            · exact absurd hlink (hlinks _ _)
            · exact .inr ⟨name, rfl⟩

/-- A hop into the name of an entry that can be found goes on from a directory, and ends at anything
else. -/
theorem descend_into_eq (hlinks : tree.LinkFree) (hwrite : ending ≠ .write) {name : Segment}
    (hentry : tree.get? (here ++ [name]) = some entry) (hadmits : ending.admits (here ++ [name]))
    (hends : entry = .directory ∨ hops = []) :
    tree.descend ending chase here (.into name :: hops) =
      if entry = .directory then tree.descend ending chase (here ++ [name]) hops
      else .ok (.taken (here ++ [name]) entry) := by
  have hsize := (isName_of_get? hentry).size_le
  rw [descend]
  simp only [hwrite, false_and, if_false, Nat.not_lt.2 hsize, hadmits, Bool.not_true,
    Bool.false_eq_true, or_self, hentry]
  cases entry with
  | directory => rfl
  | link target => exact absurd hentry (hlinks _ _)
  | file content | socket | sink =>
      obtain rfl : hops = [] := by simpa using hends
      simp

/-- What stands below a directory is found by the names that lead to it. -/
theorem descend_eq_taken (hlinks : tree.LinkFree) (hwrite : ending ≠ .write) (hup : Hop.up ∉ hops)
    (hhere : tree.get? here = some .directory)
    (hentry : tree.get? (here ++ hops.filterMap Hop.name?) = some entry)
    (hadmits : ending.admits (here ++ hops.filterMap Hop.name?))
    (hends : entry = .directory ∨ ∃ name, hops.getLast? = some (.into name)) :
    tree.descend ending chase here hops =
      .ok (.taken (here ++ hops.filterMap Hop.name?) entry) := by
  induction hops generalizing here with
  | nil =>
      simp only [List.filterMap_nil, List.append_nil] at hentry ⊢
      obtain rfl : Entry.directory = entry := by simpa [hhere] using hentry
      rfl
  | cons first rest ih =>
      have hrest : Hop.up ∉ rest := fun hmem => hup (List.mem_cons_of_mem _ hmem)
      have hlater (hne : rest ≠ [] ∨ ∀ name, first ≠ .into name) :
          entry = .directory ∨ ∃ name, rest.getLast? = some (.into name) := by
        refine hends.imp_right fun ⟨name, hname⟩ => ⟨name, ?_⟩
        cases rest with
        | nil =>
            refine absurd (by simpa using hname) (hne.resolve_left (by simp) name)
        | cons second rest => simpa using hname
      cases first with
      | up => exact absurd List.mem_cons_self hup
      | slash => exact ih hrest hhere hentry hadmits (hlater (.inr (by simp)))
      | dot => exact ih hrest hhere hentry hadmits (hlater (.inr (by simp)))
      | into name =>
          simp only [List.filterMap_cons, Hop.name?] at hentry hadmits ⊢
          rw [List.append_cons] at hentry hadmits ⊢
          have hplace := admits_of_append hadmits
          by_cases hnil : rest = []
          · subst hnil
            simp only [List.filterMap_nil, List.append_nil] at hentry ⊢
            rw [descend_into_eq hlinks hwrite hentry hplace (.inr rfl)]
            split
            · next hdirectory => rw [hdirectory, descend]
            · rfl
          · -- something follows, so the name is that of a directory
            have hends' := hlater (.inl hnil)
            have hdirectory : tree.get? (here ++ [name]) = some .directory := by
              cases hbelow : rest.filterMap Hop.name? with
              | cons next below => exact get?_of_get?_append (hbelow ▸ hentry)
              | nil =>
                  rw [hbelow, List.append_nil] at hentry
                  rcases hends' with rfl | ⟨last, hlast⟩
                  · exact hentry
                  · have hmem : last ∈ rest.filterMap Hop.name? :=
                      List.mem_filterMap.2 ⟨_, List.mem_of_getLast? hlast, rfl⟩
                    simp [hbelow] at hmem
            rw [descend_into_eq hlinks hwrite hdirectory hplace (.inl rfl), if_pos rfl]
            exact ih hrest hdirectory hentry hadmits hends'

theorem walk_eq_taken (hlinks : tree.LinkFree) (hwrite : ending ≠ .write) (hup : Hop.up ∉ hops)
    (hhere : tree.get? here = some .directory) {links : Nat}
    (hentry : tree.get? (here ++ hops.filterMap Hop.name?) = some entry)
    (hadmits : ending.admits (here ++ hops.filterMap Hop.name?))
    (hends : entry = .directory ∨ ∃ name, hops.getLast? = some (.into name)) :
    tree.walk ending links here hops = .ok (.taken (here ++ hops.filterMap Hop.name?) entry) := by
  cases links with
  | zero =>
      rw [walk_zero]
      exact descend_eq_taken hlinks hwrite hup hhere hentry hadmits hends
  | succ links =>
      rw [walk_succ]
      exact descend_eq_taken hlinks hwrite hup hhere hentry hadmits hends

end FileTree

end Snapshot
