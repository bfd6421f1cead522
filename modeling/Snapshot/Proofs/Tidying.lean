import Mathlib.Data.List.TakeWhile
import Snapshot.Proofs.Cuts
import Snapshot.Proofs.Listings
import Snapshot.Proofs.Spelling
import Snapshot.Proofs.Success

/-!
# Spellings that the system sees alike

A path can be written with more dots and slashes and still ask for the same. In the middle they
change nothing, whatever links there are. At its end one of them asks for a directory, and it does
not matter which one or how many; what is a directory is found with them and without them.
-/

namespace Snapshot

namespace Hop

/-- Whether a hop leads nowhere. -/
def stays : Hop → Bool
  | .slash => true
  | .dot => true
  | .up => false
  | .into _ => false

/-- The hops that lead somewhere. -/
def moves (hops : List Hop) : List Hop :=
  hops.filter fun hop => !hop.stays

/-- Whether the last of some hops leads nowhere, and so asks for a directory. -/
def endsIdle (hops : List Hop) : Bool :=
  hops.getLast?.any stays

/-- Whether hops ask for the same. -/
structure Alike (hops other : List Hop) : Prop where
  moves_eq : moves other = moves hops
  endsIdle_eq : endsIdle other = endsIdle hops

variable {hop : Hop} {hops other front rest later : List Hop}

@[simp] theorem moves_nil : moves [] = [] := rfl

theorem moves_cons_of_stays (h : hop.stays = true) : moves (hop :: rest) = moves rest := by
  simp [moves, h]

theorem moves_cons_of_not_stays (h : hop.stays = false) :
    moves (hop :: rest) = hop :: moves rest := by
  simp [moves, h]

theorem moves_append : moves (front ++ rest) = moves front ++ moves rest :=
  List.filter_append ..

theorem moves_eq_nil_iff : moves hops = [] ↔ ∀ hop ∈ hops, hop.stays = true := by
  simp [moves]

/-- Before a hop that leads somewhere, others lead nowhere. -/
theorem exists_of_moves_eq_cons (h : moves other = hop :: rest) :
    ∃ idle later, other = idle ++ hop :: later ∧ moves idle = [] ∧ hop.stays = false ∧
      moves later = rest := by
  obtain ⟨idle, later, rfl, hidle, hhop, hrest⟩ := List.filter_eq_cons_iff.1 h
  exact ⟨idle, later, rfl, moves_eq_nil_iff.2 (by simpa using hidle), by simpa using hhop, hrest⟩

/-- Where nothing goes up, the hops that lead somewhere go into names. -/
theorem moves_of_not_up (hup : Hop.up ∉ hops) :
    moves hops = (hops.filterMap Hop.name?).map Hop.into := by
  induction hops with
  | nil => rfl
  | cons hop hops ih =>
      have hrest := ih fun hmem => hup (List.mem_cons_of_mem _ hmem)
      cases hop with
      | slash | dot => exact hrest
      | up => exact absurd List.mem_cons_self hup
      | into name => exact congrArg (Hop.into name :: ·) hrest

theorem endsIdle_append (hrest : rest ≠ []) : endsIdle (front ++ rest) = endsIdle rest := by
  rw [endsIdle, endsIdle, List.getLast?_append_of_ne_nil _ hrest]

theorem endsIdle_cons (hrest : rest ≠ []) : endsIdle (hop :: rest) = endsIdle rest := by
  rw [← List.singleton_append, endsIdle_append hrest]

theorem endsIdle_cons_of_not_stays (h : hop.stays = false) :
    endsIdle (hop :: rest) = endsIdle rest := by
  by_cases hrest : rest = []
  · simp [hrest, endsIdle, h]
  · exact endsIdle_cons hrest

theorem eq_nil_of_moves_eq_nil (hmoves : moves hops = []) (hends : endsIdle hops = false) :
    hops = [] := by
  by_contra hne
  have hlast := moves_eq_nil_iff.1 hmoves _ (List.getLast_mem hne)
  rw [endsIdle, List.getLast?_eq_some_getLast hne, Option.any_some, hlast] at hends
  cases hends

namespace Alike

theorem refl (hops : List Hop) : Alike hops hops :=
  ⟨rfl, rfl⟩

theorem eq_nil_iff (h : Alike hops other) : other = [] ↔ hops = [] := by
  constructor
  · rintro rfl
    exact eq_nil_of_moves_eq_nil h.moves_eq.symm h.endsIdle_eq.symm
  · rintro rfl
    exact eq_nil_of_moves_eq_nil h.moves_eq h.endsIdle_eq

theorem append_left (h : Alike rest later) (front : List Hop) :
    Alike (front ++ rest) (front ++ later) := by
  by_cases hrest : rest = []
  · rw [hrest, h.eq_nil_iff.2 hrest]
    exact .refl _
  · have hlater : later ≠ [] := mt h.eq_nil_iff.1 hrest
    refine ⟨?_, ?_⟩
    · rw [moves_append, moves_append, h.moves_eq]
    · rw [endsIdle_append hrest, endsIdle_append hlater, h.endsIdle_eq]

/-- Hops alike to some of which the first one leads somewhere go there first, too. -/
theorem exists_eq_append (h : Alike (hop :: rest) other) (hhop : hop.stays = false) :
    ∃ idle later, other = idle ++ hop :: later ∧ moves idle = [] ∧ Alike rest later := by
  obtain ⟨hmoves, hends⟩ := h
  rw [moves_cons_of_not_stays hhop] at hmoves
  obtain ⟨idle, later, rfl, hidle, -, hlater⟩ := exists_of_moves_eq_cons hmoves
  rw [endsIdle_append (List.cons_ne_nil _ _), endsIdle_cons_of_not_stays hhop,
    endsIdle_cons_of_not_stays hhop] at hends
  exact ⟨idle, later, rfl, hidle, hlater, hends⟩

theorem of_cons_stays (h : Alike (hop :: rest) other) (hhop : hop.stays = true)
    (hrest : rest ≠ []) : Alike rest other :=
  ⟨h.moves_eq.trans (moves_cons_of_stays hhop), h.endsIdle_eq.trans (endsIdle_cons hrest)⟩

end Alike

end Hop

namespace FileTree

variable {tree : FileTree} {here there : Location} {ending : Ending} {hops other : List Hop}
  {links : Nat}

/-! ## Walks -/

theorem walk_of_moves_eq_nil (h : Hop.moves hops = []) :
    tree.walk ending links here hops = .ok (.taken here .directory) := by
  rw [Hop.moves_eq_nil_iff] at h
  induction hops with
  | nil => exact walk_nil
  | cons hop hops ih =>
      have hrest := ih fun later hlater => h later (List.mem_cons_of_mem _ hlater)
      have hstays := h hop List.mem_cons_self
      cases hop with
      | slash | dot => exact (walk_step rfl).trans hrest
      | up | into name => cases hstays

/-- Hops that lead nowhere can be left out in front of others. -/
theorem walk_append_of_moves_eq_nil {idle : List Hop} (h : Hop.moves idle = []) :
    tree.walk ending links here (idle ++ hops) = tree.walk ending links here hops := by
  rw [Hop.moves_eq_nil_iff] at h
  induction idle with
  | nil => rfl
  | cons hop idle ih =>
      have hrest := ih fun later hlater => h later (List.mem_cons_of_mem _ hlater)
      have hstays := h hop List.mem_cons_self
      cases hop with
      | slash | dot => exact (walk_step rfl).trans hrest
      | up | into name => cases hstays

/-- Hops that ask for the same come to the same, whatever links there are. -/
theorem walk_eq_of_alike (h : Hop.Alike hops other)
    (hwrite : ending = .write → Hop.endsIdle hops = false) :
    tree.walk ending links here other = tree.walk ending links here hops := by
  induction links, here, hops using walk_induction generalizing other with
  | nil links here => rw [h.eq_nil_iff.2 rfl]
  | step links here hop rest hhop ih =>
      rw [walk_step hhop]
      cases hop with
      | into name => cases hhop
      | slash | dot =>
          by_cases hrest : rest = []
          · rw [hrest, walk_nil]
            exact walk_of_moves_eq_nil (h.moves_eq.trans (by rw [hrest]; rfl))
          · rw [Hop.endsIdle_cons hrest] at hwrite
            exact ih (h.of_cons_stays rfl hrest) hwrite
      | up =>
          obtain ⟨idle, later, rfl, hidle, hlater⟩ := h.exists_eq_append rfl
          rw [Hop.endsIdle_cons_of_not_stays rfl] at hwrite
          rw [walk_append_of_moves_eq_nil hidle, walk_step rfl]
          exact ih hlater hwrite
  | into links here name rest ih ihLink =>
      obtain ⟨idle, later, rfl, hidle, hlater⟩ := h.exists_eq_append rfl
      rw [walk_append_of_moves_eq_nil hidle]
      by_cases hrest : rest = []
      · rw [hrest, hlater.eq_nil_iff.2 hrest]
      · have hlaterNe : later ≠ [] := mt hlater.eq_nil_iff.1 hrest
        rw [Hop.endsIdle_cons hrest] at hwrite
        have hslashes {hops : List Hop} (hne : hops ≠ [])
            (hends : ending = .write → Hop.endsIdle hops = false) :
            ¬(ending = .write ∧ hops ≠ [] ∧ hops.all (· = .slash) = true) := by
          rintro ⟨heq, -, hall⟩
          refine hne (Hop.eq_nil_of_moves_eq_nil (Hop.moves_eq_nil_iff.2 fun hop hmem => ?_)
            (hends heq))
          rw [of_decide_eq_true (List.all_eq_true.1 hall hop hmem)]
          rfl
        rw [walk_into, walk_into, if_neg (hslashes hrest hwrite),
          if_neg (hslashes hlaterNe (hlater.endsIdle_eq ▸ hwrite)), ih hlater hwrite]
        simp only [hrest, hlaterNe, if_false, false_and]
        split
        · rfl
        · cases hplace : tree.get? (here ++ [name]) with
          | none => rfl
          | some entry =>
              cases entry with
              | directory | file content | socket | sink => rfl
              | link target =>
                  cases links with
                  | zero => rfl
                  | succ fewer =>
                      refine ihLink fewer rfl target (hlater.append_left target.hops) fun heq => ?_
                      rw [Hop.endsIdle_append hrest]
                      exact hwrite heq

/-- A directory is found whether or not it is asked for one, unless a link could stand for itself.
-/
theorem walk_directory_of_moves (hmoves : Hop.moves other = Hop.moves hops)
    (hwrite : ending ≠ .write) (hkeep : ending = .keep → tree.LinkFree)
    (h : tree.walk ending links here hops = .ok (.taken there .directory)) :
    tree.walk ending links here other = .ok (.taken there .directory) := by
  induction links, here, hops using walk_induction generalizing other with
  | nil links here =>
      rw [walk_nil] at h
      rw [walk_of_moves_eq_nil hmoves, h]
  | step links here hop rest hhop ih =>
      rw [walk_step hhop] at h
      cases hop with
      | into name => cases hhop
      | slash | dot => exact ih (hmoves.trans (Hop.moves_cons_of_stays rfl)) h
      | up =>
          rw [Hop.moves_cons_of_not_stays rfl] at hmoves
          obtain ⟨idle, later, rfl, hidle, -, hlater⟩ := Hop.exists_of_moves_eq_cons hmoves
          rw [walk_append_of_moves_eq_nil hidle, walk_step rfl]
          exact ih hlater h
  | into links here name rest ih ihLink =>
      rw [Hop.moves_cons_of_not_stays rfl] at hmoves
      obtain ⟨idle, later, rfl, hidle, -, hlater⟩ := Hop.exists_of_moves_eq_cons hmoves
      have hadmits := admits_of_walk_into h
      rw [walk_append_of_moves_eq_nil hidle]
      rcases walk_into_eq_ok h with
        ⟨hdirectory, hrest⟩ | ⟨target, fewer, hlink, -, rfl, hrest⟩ |
          ⟨-, ⟨entry, -, hne, -, heq⟩ | ⟨-, heq⟩⟩
      · rw [walk_into_directory hwrite hadmits hdirectory]
        exact ih hlater hrest
      · have hfollow : ending ≠ .keep := fun heq => hkeep heq _ _ hlink
        rw [walk_into_link hwrite hadmits hlink (.inr hfollow)]
        refine ihLink fewer rfl target ?_ hrest
        rw [Hop.moves_append, Hop.moves_append, hlater]
      · exact absurd (Spot.taken.inj heq).2.symm hne
      · cases heq

end FileTree

namespace Place

variable {hops other : List Hop} {lost : Nat}

theorem leave_append_of_moves_eq_nil {idle : List Hop} (h : Hop.moves idle = []) :
    leave (lost + 1) (idle ++ hops) = leave (lost + 1) hops := by
  rw [Hop.moves_eq_nil_iff] at h
  induction idle with
  | nil => rfl
  | cons hop idle ih =>
      have hrest := ih fun later hlater => h later (List.mem_cons_of_mem _ hlater)
      have hstays := h hop List.mem_cons_self
      cases hop with
      | slash | dot => exact hrest
      | up | into name => cases hstays

/-- Hops that move alike leave removed directories alike. -/
theorem leave_cases (hmoves : Hop.moves other = Hop.moves hops) :
    (∃ rest later, leave lost hops = .ok (some rest) ∧ leave lost other = .ok (some later) ∧
      Hop.moves later = Hop.moves rest ∧
        (Hop.endsIdle other = Hop.endsIdle hops → Hop.endsIdle later = Hop.endsIdle rest) ∧
          (Hop.endsIdle hops = false → Hop.endsIdle rest = false)) ∨
      leave lost other = leave lost hops ∧ ∀ rest, leave lost hops ≠ .ok (some rest) := by
  induction lost generalizing hops other with
  | zero => exact .inl ⟨hops, other, by rw [leave], by rw [leave], hmoves, id, id⟩
  | succ lost ih =>
      cases hhops : Hop.moves hops with
      | nil =>
          have hnone {hops : List Hop} (h : Hop.moves hops = []) :
              leave (lost + 1) hops = .ok none := by
            rw [← List.append_nil hops, leave_append_of_moves_eq_nil h, leave]
          rw [hnone hhops, hnone (hmoves.trans hhops)]
          exact .inr ⟨rfl, by simp⟩
      | cons hop moves =>
          obtain ⟨idle, rest, rfl, hidle, hhop, hrest⟩ := Hop.exists_of_moves_eq_cons hhops
          obtain ⟨idle', later, rfl, hidle', -, hlater⟩ :=
            Hop.exists_of_moves_eq_cons (hmoves.trans hhops)
          rw [leave_append_of_moves_eq_nil hidle, leave_append_of_moves_eq_nil hidle',
            Hop.endsIdle_append (List.cons_ne_nil _ _), Hop.endsIdle_append (List.cons_ne_nil _ _),
            Hop.endsIdle_cons_of_not_stays hhop, Hop.endsIdle_cons_of_not_stays hhop]
          cases hop with
          | slash | dot => cases hhop
          | up =>
              rw [leave, leave]
              exact ih (hlater.trans hrest.symm)
          | into name =>
              rw [leave, leave]
              exact .inr ⟨rfl, by simp⟩

end Place

/-! ## Paths -/

namespace Path

/-- Whether the system takes two paths to the same place, as long as nothing is asked at their ends.
-/
structure Parallel (path other : Path) : Prop where
  isAbsolute_eq : other.isAbsolute = path.isAbsolute
  hasNul_eq : other.hasNul = path.hasNul
  isEmpty_eq : other.isEmpty = path.isEmpty
  size_le_iff : other.size ≤ maxSize ↔ path.size ≤ maxSize
  moves_eq : Hop.moves other.hops = Hop.moves path.hops

/-- Whether a path ends in a dot, slashes after it left out. -/
def EndsInDot (path : Path) : Prop :=
  path.bareHops.getLast? = some .dot

instance (path : Path) : Decidable path.EndsInDot :=
  inferInstanceAs (Decidable (path.bareHops.getLast? = some .dot))

variable {path other left right : Path}

theorem exists_hops_eq_bareHops (path : Path) :
    ∃ slashes, path.hops = path.bareHops ++ slashes ∧ ∀ hop ∈ slashes, hop = .slash := by
  refine ⟨(path.hops.reverse.takeWhile (· = .slash)).reverse, ?_, fun hop hmem => ?_⟩
  · rw [bareHops, ← List.reverse_append, List.takeWhile_append_dropWhile, List.reverse_reverse]
  · have hslash := List.mem_takeWhile_imp (List.mem_reverse.1 hmem)
    exact of_decide_eq_true hslash

theorem moves_bareHops (path : Path) : Hop.moves path.bareHops = Hop.moves path.hops := by
  obtain ⟨slashes, heq, hslashes⟩ := path.exists_hops_eq_bareHops
  have hnone : Hop.moves slashes = [] :=
    Hop.moves_eq_nil_iff.2 fun hop hmem => by rw [hslashes hop hmem]; rfl
  rw [heq, Hop.moves_append, hnone, List.append_nil]

theorem endsIdle_bareHops (h : ¬path.EndsInDot) : Hop.endsIdle path.bareHops = false := by
  have hslash : path.bareHops.getLast? ≠ some .slash := by
    rw [bareHops, List.getLast?_reverse]
    intro hhead
    have hnot := List.head?_dropWhile_not (· = Hop.slash) path.hops.reverse
    simp [hhead] at hnot
  unfold Hop.endsIdle
  cases hlast : path.bareHops.getLast? with
  | none => rfl
  | some hop =>
      cases hop with
      | slash => exact absurd hlast hslash
      | dot => exact absurd hlast h
      | up | into name => rfl

theorem endsIdle_of_endsInName (h : path.EndsInName) : Hop.endsIdle path.hops = false := by
  obtain ⟨name, hlast⟩ := h
  rw [Hop.endsIdle, hlast]
  rfl

theorem not_endsInDot_of_endsInName (h : path.EndsInName) : ¬path.EndsInDot := by
  obtain ⟨name, hlast⟩ := h
  obtain ⟨front, hhops⟩ := List.getLast?_eq_some_iff.1 hlast
  rw [EndsInDot, FileSystem.bareHops_eq_hops hhops, hlast]
  simp

/-- Only names can hold a byte that no path can. -/
theorem hasNul_eq_any_names (path : Path) :
    path.hasNul = path.names.any fun name => '\x00' ∈ name.text.toList := by
  rw [hasNul_eq_any_body, names, hops]
  induction path.body with
  | nil => rfl
  | cons segment rest ih =>
      rw [List.any_cons, ih, List.map_cons, List.filterMap_cons]
      by_cases hempty : segment = Segment.empty
      · rw [hempty]
        rfl
      by_cases hdot : segment = Segment.dot
      · rw [hdot]
        rfl
      by_cases hdots : segment = Segment.dotDot
      · rw [hdots]
        rfl
      have hinto : Hop.ofSegment segment = .into segment := by
        rw [Hop.ofSegment, if_neg hempty, if_neg hdot, if_neg hdots]
      rw [hinto]
      rfl

theorem moves_hops_join (h : right.isAbsolute = false) :
    Hop.moves (left.join right).hops = Hop.moves left.hops ++ Hop.moves right.hops := by
  obtain ⟨front, hjoin, hleft | hleft⟩ := exists_hops_join left h
  · rw [hjoin, hleft, Hop.moves_append]
  · have hslash : Hop.moves [.slash] = [] := rfl
    rw [hjoin, hleft, Hop.moves_append, Hop.moves_append, hslash, List.append_nil]

/-- A path ends as what was joined to it. -/
theorem endsInDot_join (h : right.isAbsolute = false) (hnames : right.names ≠ []) :
    (left.join right).EndsInDot ↔ right.EndsInDot := by
  obtain ⟨front, hjoin, -⟩ := exists_hops_join left h
  have hbare : right.bareHops ≠ [] := fun hnil => by
    have hmoves := right.moves_bareHops
    rw [hnil, Hop.moves_nil, eq_comm, Hop.moves_eq_nil_iff] at hmoves
    refine hnames (List.filterMap_eq_nil_iff.2 fun hop hmem => ?_)
    cases hop with
    | slash | dot | up => rfl
    | into name => cases hmoves _ hmem
  have hsplit : (left.join right).bareHops = front ++ right.bareHops := by
    rw [bareHops, hjoin, List.reverse_append, List.dropWhile_append, if_neg, List.reverse_append,
      List.reverse_reverse, ← bareHops]
    rwa [List.isEmpty_iff, ← List.reverse_eq_nil_iff]
  rw [EndsInDot, EndsInDot, hsplit, List.getLast?_append_of_ne_nil _ hbare]

namespace Parallel

theorem refl (path : Path) : path.Parallel path :=
  ⟨rfl, rfl, rfl, .rfl, rfl⟩

theorem symm (h : path.Parallel other) : other.Parallel path :=
  ⟨h.isAbsolute_eq.symm, h.hasNul_eq.symm, h.isEmpty_eq.symm, h.size_le_iff.symm, h.moves_eq.symm⟩

/-- What is before the slashes at the end is alike if there is no dot. -/
theorem bareHops (h : path.Parallel other) (hpath : ¬path.EndsInDot) (hother : ¬other.EndsInDot) :
    Hop.Alike path.bareHops other.bareHops where
  moves_eq := by rw [moves_bareHops, moves_bareHops, h.moves_eq]
  endsIdle_eq := (endsIdle_bareHops hother).trans (endsIdle_bareHops hpath).symm

/-- Paths that both end in a name are alike to their ends. -/
theorem hops (h : path.Parallel other) (hpath : path.EndsInName) (hother : other.EndsInName) :
    Hop.Alike path.hops other.hops where
  moves_eq := h.moves_eq
  endsIdle_eq := (endsIdle_of_endsInName hother).trans (endsIdle_of_endsInName hpath).symm

/-- Absolute paths that go down over the same names are parallel. -/
theorem of_names (hpath : path.isAbsolute) (hother : other.isAbsolute)
    (hup : Hop.up ∉ path.hops) (hupOther : Hop.up ∉ other.hops) (hnames : other.names = path.names)
    (hsize : other.size ≤ maxSize ↔ path.size ≤ maxSize) : path.Parallel other where
  isAbsolute_eq := hother.trans hpath.symm
  hasNul_eq := by rw [hasNul_eq_any_names, hasNul_eq_any_names, hnames]
  isEmpty_eq := (FileSystem.not_isEmpty_of_isAbsolute hother).trans
    (FileSystem.not_isEmpty_of_isAbsolute hpath).symm
  size_le_iff := hsize
  moves_eq := by
    rw [Hop.moves_of_not_up hup, Hop.moves_of_not_up hupOther]
    exact congrArg (List.map Hop.into) hnames

end Parallel

/-- Whether a path down into a directory is another spelling of one: with the same names, and with
no dot at the end. -/
structure Respells (path other : Path) : Prop where
  goesDown : path.GoesDown
  goesDown_other : other.GoesDown
  names_eq : other.names = path.names
  names_ne_nil : path.names ≠ []
  noDot : ¬path.EndsInDot
  noDot_other : ¬other.EndsInDot

namespace Respells

variable {name : Segment}

theorem symm (h : path.Respells other) : other.Respells path :=
  ⟨h.goesDown_other, h.goesDown, h.names_eq.symm, h.names_eq ▸ h.names_ne_nil, h.noDot_other,
    h.noDot⟩

theorem moves_hops_join (h : path.Respells other) (left : Path) :
    Hop.moves (left.join other).hops = Hop.moves (left.join path).hops := by
  rw [Path.moves_hops_join h.goesDown_other.relative, Path.moves_hops_join h.goesDown.relative,
    Hop.moves_of_not_up h.goesDown_other.up_not_mem, Hop.moves_of_not_up h.goesDown.up_not_mem]
  exact congrArg (fun names => Hop.moves left.hops ++ List.map Hop.into names) h.names_eq

theorem hasNul_join (h : path.Respells other) (left : Path) :
    (left.join other).hasNul = (left.join path).hasNul := by
  rw [Path.hasNul_join h.goesDown_other.relative, Path.hasNul_join h.goesDown.relative,
    hasNul_eq_any_names other, hasNul_eq_any_names path, h.names_eq]

/-- After any path, both spellings are parallel. -/
theorem parallel (h : path.Respells other)
    (hsize : (left.join other).size ≤ maxSize ↔ (left.join path).size ≤ maxSize) :
    (left.join path).Parallel (left.join other) where
  isAbsolute_eq := by
    rw [(body_join left h.goesDown_other.relative).1, (body_join left h.goesDown.relative).1]
  hasNul_eq := h.hasNul_join left
  isEmpty_eq := by
    have hnonempty {right : Path} (hright : right.GoesDown) (hnames : right.names ≠ []) :
        (left.join right).isEmpty = false := by
      apply FileSystem.not_isEmpty_of_names_ne_nil
      rw [names_join hright.relative]
      exact List.append_ne_nil_of_right_ne_nil _ hnames
    rw [hnonempty h.goesDown h.names_ne_nil,
      hnonempty h.goesDown_other (h.names_eq ▸ h.names_ne_nil)]
  size_le_iff := hsize
  moves_eq := h.moves_hops_join left

/-- Below the two, the spellings end in the same name. -/
theorem join (h : path.Respells other) (hname : Hop.ofSegment name = .into name) :
    (path.join (.ofSegment name)).Respells (other.join (.ofSegment name)) := by
  obtain ⟨hpath, hnames⟩ := goesDown_join_ofSegment h.goesDown hname
  obtain ⟨hother, hnames'⟩ := goesDown_join_ofSegment h.goesDown_other hname
  have hends (left : Path) : ¬(left.join (.ofSegment name)).EndsInDot :=
    not_endsInDot_of_endsInName (endsInName_join_ofSegment hname)
  exact ⟨hpath, hother, by rw [hnames, hnames', h.names_eq], by simp [hnames], hends path,
    hends other⟩

end Respells

end Path

namespace FileSystem

variable {fs : FileSystem} {path other : Path} {ending : Ending} {hops later : List Hop}
  {spot : Spot}

/-! ## Requests -/

theorem reach_eq_of_alike (h : path.Parallel other) (hhops : Hop.Alike hops later)
    (hwrite : ending = .write → Hop.endsIdle hops = false) :
    fs.reach ending other later = fs.reach ending path hops := by
  have hsize : Path.maxSize < other.size ↔ Path.maxSize < path.size := by
    rw [← Nat.not_le, ← Nat.not_le, h.size_le_iff]
  unfold reach
  rw [h.hasNul_eq, h.isEmpty_eq, h.isAbsolute_eq, FileTree.walk_eq_of_alike hhops hwrite]
  simp only [hsize]
  rcases Place.leave_cases hhops.moves_eq with
    ⟨rest, later, hrest, hlater, hmoves, hends, hname⟩ | ⟨heq, -⟩
  · rw [hrest, hlater]
    dsimp only
    rw [FileTree.walk_eq_of_alike ⟨hmoves, hends hhops.endsIdle_eq⟩ fun heq => hname (hwrite heq)]
  · rw [heq]

/-- A directory is reached whether or not it is asked for one. -/
theorem reach_directory (h : path.Parallel other) (hmoves : Hop.moves later = Hop.moves hops)
    (hwrite : ending ≠ .write) (hkeep : ending = .keep → fs.tree.LinkFree)
    (hdirectory : spot.entry? = some .directory) (hreach : fs.reach ending path hops = .ok spot) :
    fs.reach ending other later = .ok spot := by
  have hwalk {here : Location} {hops later : List Hop} (hmoves : Hop.moves later = Hop.moves hops)
      (hhere : fs.tree.get? here = some .directory)
      (h : fs.tree.walk ending linkLimit here hops = .ok spot) :
      fs.tree.walk ending linkLimit here later = .ok spot := by
    rcases FileTree.get?_of_walk hhere h with ⟨there, entry, rfl, -⟩ | ⟨there, rfl, -⟩
    · cases hdirectory
      exact FileTree.walk_directory_of_moves hmoves hwrite hkeep h
    · cases hdirectory
  obtain ⟨⟨hnul, hempty, hsize⟩, hreach⟩ := reach_eq_ok_iff.1 hreach
  refine reach_eq_ok_iff.2 ⟨⟨h.hasNul_eq.trans hnul, h.isEmpty_eq.trans hempty,
    hsize.imp_right h.size_le_iff.2⟩, ?_⟩
  rw [h.isAbsolute_eq]
  split
  · next habsolute =>
      rw [if_pos habsolute] at hreach
      exact hwalk hmoves rfl hreach
  · next habsolute =>
      rw [if_neg habsolute] at hreach
      have hcases := @Place.leave_cases hops later fs.current.lost hmoves
      rcases hcases with ⟨rest, left, hrest, hleft, hmoves, -⟩ | ⟨heq, hnone⟩
      · rcases hreach with ⟨some, hsome, hreach⟩ | ⟨hnone, -⟩
        · obtain rfl : rest = some := by simpa [hrest] using hsome
          exact .inl ⟨left, hleft, hwalk hmoves fs.anchored hreach⟩
        · simp [hrest] at hnone
      · rcases hreach with ⟨rest, hrest, -⟩ | ⟨hgone, hremoved⟩
        · exact absurd hrest (hnone rest)
        · exact .inr ⟨heq.trans hgone, hremoved⟩

/-! What is asked about paths that are written alike to their ends is answered alike. -/

section Alike

variable (h : path.Parallel other) (hhops : Hop.Alike path.hops other.hops)

include h hhops

theorem locate_eq_of_alike (hwrite : ending ≠ .write) :
    fs.locate ending other = fs.locate ending path :=
  reach_eq_of_alike h hhops fun heq => absurd heq hwrite

theorem entryAt_eq_of_alike (hwrite : ending ≠ .write) :
    fs.entryAt ending other = fs.entryAt ending path := by
  rw [entryAt, entryAt, locate_eq_of_alike h hhops hwrite]

theorem find_eq_of_alike (hwrite : ending ≠ .write) :
    fs.find ending other = fs.find ending path := by
  rw [find, find, locate_eq_of_alike h hhops hwrite]

theorem isFile_eq_of_alike : fs.isFile other = fs.isFile path := by
  rw [isFile, isFile, entryAt_eq_of_alike h hhops (by simp)]

theorem open?_eq_of_alike : fs.open? other = fs.open? path := by
  rw [open?, open?, entryAt_eq_of_alike h hhops (by simp)]

theorem canonicalize_eq_of_alike : fs.canonicalize other = fs.canonicalize path := by
  rw [canonicalize, canonicalize, h.isAbsolute_eq, find_eq_of_alike h hhops (by simp)]

theorem leadsInto_eq_of_alike (location : Location) :
    fs.leadsInto location other = fs.leadsInto location path := by
  rw [leadsInto, leadsInto, canonicalize_eq_of_alike h hhops]

theorem write_eq_of_alike (hends : path.EndsInName) (content : List UInt8) :
    fs.write other content = fs.write path content := by
  have hlocate : fs.locate .write other = fs.locate .write path :=
    reach_eq_of_alike h hhops fun _ => Path.endsIdle_of_endsInName hends
  rw [write, write, hlocate]

end Alike

/-! What stands before the slashes at the end decides what is created or removed, and whether a
directory is found. -/

section Parallel

variable (h : path.Parallel other)

include h

theorem locate_eq_of_directory (hwrite : ending ≠ .write)
    (hkeep : ending = .keep → fs.tree.LinkFree)
    (hentry : fs.entryAt ending path = .ok .directory) :
    fs.locate ending other = fs.locate ending path := by
  unfold entryAt at hentry
  cases hlocate : fs.locate ending path with
  | error fault =>
      rw [hlocate] at hentry
      cases hentry
  | ok spot =>
      rw [hlocate] at hentry
      have hspot : spot.entry? = some .directory := by
        cases spot with
        | free location => cases hentry
        | removed => rfl
        | taken location entry => exact congrArg some (Except.ok.inj hentry)
      exact reach_directory h h.moves_eq hwrite hkeep hspot hlocate

theorem entryAt_eq_of_directory (hwrite : ending ≠ .write)
    (hkeep : ending = .keep → fs.tree.LinkFree)
    (hentry : fs.entryAt ending path = .ok .directory) :
    fs.entryAt ending other = .ok .directory := by
  rw [← hentry, entryAt, entryAt, locate_eq_of_directory h hwrite hkeep hentry]

theorem isDirectory_eq_of_parallel : fs.isDirectory other = fs.isDirectory path := by
  rw [Bool.eq_iff_iff, isDirectory_iff_entryAt, isDirectory_iff_entryAt]
  exact ⟨entryAt_eq_of_directory h.symm (by simp) (by simp),
    entryAt_eq_of_directory h (by simp) (by simp)⟩

theorem find_directory_of_parallel {location : Location} (hwrite : ending ≠ .write)
    (hkeep : ending = .keep → fs.tree.LinkFree)
    (hfind : fs.find ending path = .ok (location, .directory)) :
    fs.find ending other = .ok (location, .directory) :=
  find_eq_ok_iff.2 (reach_directory h h.moves_eq hwrite hkeep rfl (find_eq_ok_iff.1 hfind))

theorem list_of_parallel {names : List Segment} (hlist : fs.list path = .ok names) :
    fs.list other = .ok names := by
  unfold list at hlist ⊢
  cases hfind : fs.find .follow path with
  | error fault =>
      rw [hfind] at hlist
      cases hlist
  | ok found =>
      obtain ⟨location, entry⟩ := found
      rw [hfind] at hlist
      cases entry with
      | directory =>
          rw [find_directory_of_parallel h (by simp) (by simp) hfind]
          exact hlist
      | file content | link target | socket | sink => cases hlist

section NoDot

variable (hpath : ¬path.EndsInDot) (hother : ¬other.EndsInDot)

include hpath hother

theorem create_eq_of_parallel (entry : Entry) : fs.create other entry = fs.create path entry := by
  rw [create, create, reach_eq_of_alike h (h.bareHops hpath hother) (by simp)]

theorem removeDirectory_eq_of_parallel : fs.removeDirectory other = fs.removeDirectory path := by
  have hpath' : ¬path.bareHops.getLast? = some .dot := hpath
  have hother' : ¬other.bareHops.getLast? = some .dot := hother
  rw [removeDirectory, removeDirectory, if_neg hpath', if_neg hother',
    reach_eq_of_alike h (h.bareHops hpath hother) (by simp)]

theorem removeAll_eq_of_parallel (hfind : fs.find .keep other = fs.find .keep path) :
    fs.removeAll other = fs.removeAll path := by
  unfold removeAll
  simp only [hfind, removeDirectory_eq_of_parallel h hpath hother]

end NoDot

end Parallel

end FileSystem

end Snapshot
