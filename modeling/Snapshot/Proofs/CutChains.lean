import Mathlib.Data.List.Forall2
import Snapshot.Proofs.Filtering
import Snapshot.Proofs.Tidying

/-!
# Creating what two spellings name

A directory is created along the cuts of its path. Two spellings of a path without dots at their
ends are cut at the same names, whatever stands between these, so every request on the way is one
that the system sees alike: the same directories are created, in the same order, and the same fault
stops the creation. The cuts themselves are different numbers.
-/

namespace Snapshot

namespace Path

variable {path other : Path} {count next also : Nat} {counts others : List Nat}

/-- The first cut of a path keeps all of it, the others end at components. -/
theorem cuts_eq_cons_stops (path : Path) :
    path.cuts = path.body.length :: (path.stops path.body).tail := by
  rw [cuts_eq, stops, List.tail_reverse]

theorem Extends.names_eq (h : path.Extends count next) :
    (path.upTo count).EndsInName ∧
      ∃ name, (path.upTo count).names = (path.upTo next).names ++ [name] := by
  obtain ⟨front, name, hfront, hnext⟩ := h
  have hends : (path.upTo count).hops = front ++ [.into name] := by
    rw [hops_upTo, if_neg fun hempty => ?_, hfront]
    simp [hempty] at hfront
  refine ⟨⟨name, by rw [hends, List.getLast?_concat]⟩, name, ?_⟩
  rw [FileSystem.names_upTo path next, hnext, FileSystem.names_eq_concat hends]

/-- Whether cuts of two paths keep the same names: none at all, or up to the same last one. -/
structure SameCut (path other : Path) (count also : Nat) : Prop where
  names_eq : (other.upTo also).names = (path.upTo count).names
  ends : count = 0 ∧ also = 0 ∨ (path.upTo count).EndsInName ∧ (other.upTo also).EndsInName

theorem names_upTo_zero (path : Path) : (path.upTo 0).names = [] := by
  rw [FileSystem.names_upTo]
  rfl

/-- Cuts that leave away one name after the other are the same all along if the first ones are. -/
theorem forall₂_sameCut_of_isChain (hchain : (count :: counts).IsChain path.Extends)
    (hchainOther : (also :: others).IsChain other.Extends)
    (hlast : (count :: counts).getLast? = some 0) (hlastOther : (also :: others).getLast? = some 0)
    (hnames : (other.upTo also).names = (path.upTo count).names) :
    List.Forall₂ (SameCut path other) (count :: counts) (also :: others) := by
  induction counts generalizing count also others with
  | nil =>
      obtain rfl : count = 0 := by simpa using hlast
      cases others with
      | nil =>
          obtain rfl : also = 0 := by simpa using hlastOther
          exact .cons ⟨hnames, .inl ⟨rfl, rfl⟩⟩ .nil
      | cons last others =>
          obtain ⟨-, name, hname⟩ := (List.isChain_cons_cons.1 hchainOther).1.names_eq
          simp [hname, names_upTo_zero] at hnames
  | cons next counts ih =>
      obtain ⟨hfirst, hchain⟩ := List.isChain_cons_cons.1 hchain
      obtain ⟨hends, name, hname⟩ := hfirst.names_eq
      cases others with
      | nil =>
          obtain rfl : also = 0 := by simpa using hlastOther
          simp [hname, names_upTo_zero] at hnames
      | cons last others =>
          obtain ⟨hfirstOther, hchainOther⟩ := List.isChain_cons_cons.1 hchainOther
          obtain ⟨hendsOther, name', hname'⟩ := hfirstOther.names_eq
          refine .cons ⟨hnames, .inr ⟨hends, hendsOther⟩⟩ (ih hchain hchainOther ?_ ?_ ?_)
          · simpa using hlast
          · simpa using hlastOther
          · rw [hname, hname'] at hnames
            exact (List.append_inj' hnames rfl).1

/-- Two spellings of a path that goes down from the root, both of which can be followed. -/
structure Variants (path other : Path) : Prop where
  isAbsolute : path.isAbsolute
  isAbsolute_other : other.isAbsolute
  up_not_mem : Hop.up ∉ path.hops
  up_not_mem_other : Hop.up ∉ other.hops
  size_le : path.size ≤ maxSize
  size_le_other : other.size ≤ maxSize
  names_eq : other.names = path.names

theorem Variants.parallel (h : path.Variants other) : path.Parallel other :=
  .of_names h.isAbsolute h.isAbsolute_other h.up_not_mem h.up_not_mem_other h.names_eq
    (iff_of_true h.size_le_other h.size_le)

theorem Variants.upTo (h : path.Variants other) (hsame : SameCut path other count also) :
    (path.upTo count).Variants (other.upTo also) where
  isAbsolute := (isAbsolute_upTo _ _).trans h.isAbsolute
  isAbsolute_other := (isAbsolute_upTo _ _).trans h.isAbsolute_other
  up_not_mem := up_not_mem_hops_upTo h.up_not_mem _
  up_not_mem_other := up_not_mem_hops_upTo h.up_not_mem_other _
  size_le := (size_upTo_le h.isAbsolute _).trans h.size_le
  size_le_other := (size_upTo_le h.isAbsolute_other _).trans h.size_le_other
  names_eq := hsame.names_eq

/-- Two spellings of a path are cut at the same names. -/
theorem Variants.forall₂_sameCut (h : path.Variants other) :
    List.Forall₂ (SameCut path other) (path.stops path.body) (other.stops other.body) := by
  obtain ⟨hchain, first, counts, hstops, -, hfirst, hlast⟩ :=
    isChain_stops h.isAbsolute h.up_not_mem (List.append_nil path.body).symm
  obtain ⟨hchainOther, also, others, hstopsOther, -, halso, hlastOther⟩ :=
    isChain_stops h.isAbsolute_other h.up_not_mem_other (List.append_nil other.body).symm
  rw [hstops] at hchain ⊢
  rw [hstopsOther] at hchainOther ⊢
  refine forall₂_sameCut_of_isChain hchain hchainOther hlast hlastOther ?_
  rw [FileSystem.names_upTo, FileSystem.names_upTo, hfirst, halso]
  exact h.names_eq

/-- Whether two paths can be exchanged in a request to create or remove a directory. -/
structure Interchangeable (path other : Path) : Prop extends path.Parallel other where
  noDot : ¬path.EndsInDot
  noDot_other : ¬other.EndsInDot

/-- The root does not end in a dot. -/
theorem not_endsInDot_upTo_zero (path : Path) : ¬(path.upTo 0).EndsInDot := by
  rw [EndsInDot, bareHops, hops_upTo]
  simp

theorem Variants.interchangeable_upTo (h : path.Variants other)
    (hsame : SameCut path other count also) :
    (path.upTo count).Interchangeable (other.upTo also) := by
  rcases hsame.ends with ⟨rfl, rfl⟩ | ⟨hends, hendsOther⟩
  · exact ⟨(h.upTo hsame).parallel, not_endsInDot_upTo_zero path, not_endsInDot_upTo_zero other⟩
  · exact ⟨(h.upTo hsame).parallel, not_endsInDot_of_endsInName hends,
      not_endsInDot_of_endsInName hendsOther⟩

end Path

namespace FileSystem

variable {fs : FileSystem} {path other : Path} {counts others : List Nat}

/-- Along cuts that can be exchanged one by one, the same directories are created. -/
theorem createAlong_eq_of_interchangeable
    (h : List.Forall₂ (fun count also => (path.upTo count).Interchangeable (other.upTo also))
      counts others) : fs.createAlong other others = fs.createAlong path counts := by
  induction h with
  | nil => rfl
  | @cons count also counts others hfirst _ ih =>
      obtain ⟨hparallel, hnoDot, hnoDotOther⟩ := hfirst
      have hsettle (fs : FileSystem) (fault : Fault) :
          createAlong.settle fs (other.upTo also) fault =
            createAlong.settle fs (path.upTo count) fault := by
        rw [createAlong.settle, createAlong.settle, isDirectory_eq_of_parallel hparallel]
      unfold createAlong
      simp only [hparallel.isEmpty_eq, create_eq_of_parallel hparallel hnoDot hnoDotOther, hsettle,
        ih]

/-- Creating a directory does the same for every spelling without a dot at its end. -/
theorem createDirectories_eq_of_variants (h : path.Variants other) (hnoDot : ¬path.EndsInDot)
    (hnoDotOther : ¬other.EndsInDot) : fs.createDirectories other = fs.createDirectories path := by
  rw [createDirectories, createDirectories, path.cuts_eq_cons_stops, other.cuts_eq_cons_stops,
    ← List.drop_one, ← List.drop_one]
  apply createAlong_eq_of_interchangeable
  refine .cons ?_ (List.forall₂_drop 1 (h.forall₂_sameCut.imp fun _ _ => h.interchangeable_upTo))
  rw [Path.upTo_length_body, Path.upTo_length_body]
  exact ⟨h.parallel, hnoDot, hnoDotOther⟩

/-- What is created for the directory that is to hold the end of a path is the same for every
spelling. -/
theorem createDirectories_parent?_eq (h : path.Variants other) :
    other.parent?.map fs.createDirectories = path.parent?.map fs.createDirectories := by
  have hparent (path : Path) : path.parent? = (path.stops path.body).tail.head?.map path.upTo := by
    rw [Path.parent?, path.cuts_eq_cons_stops, List.getElem?_cons_succ, List.head?_eq_getElem?]
  have htails := List.forall₂_drop 1 h.forall₂_sameCut
  rw [hparent, hparent, ← List.drop_one, ← List.drop_one]
  generalize (path.stops path.body).drop 1 = counts at htails
  generalize (other.stops other.body).drop 1 = others at htails
  cases htails with
  | nil => rfl
  | @cons count also counts others hsame _ =>
      have hcut := h.interchangeable_upTo hsame
      simp only [List.head?_cons, Option.map_some, Option.some_inj]
      exact createDirectories_eq_of_variants (h.upTo hsame) hcut.noDot hcut.noDot_other

/-- A file is saved alike under every spelling of its name. -/
theorem Saves.of_variants {content : List UInt8} {after : FileSystem}
    (hsaves : fs.Saves path content after) (h : path.Variants other) (hends : path.EndsInName)
    (hendsOther : other.EndsInName) : fs.Saves other content after := by
  have hparent : other.parent?.map fs.createDirectories = path.parent?.map fs.createDirectories :=
    createDirectories_parent?_eq h
  obtain ⟨middle, hcreate, hwrite⟩ := hsaves
  refine ⟨middle, ?_, ?_⟩
  · rcases hcreate with ⟨hnone, rfl⟩ | ⟨parent, hsome, hcreated⟩
    · rw [hnone, Option.map_none, Option.map_eq_none_iff] at hparent
      exact .inl ⟨hparent, rfl⟩
    · rw [hsome, Option.map_some, Option.map_eq_some_iff] at hparent
      obtain ⟨parent', hparent', heq⟩ := hparent
      exact .inr ⟨parent', hparent', heq.trans hcreated⟩
  · rwa [write_eq_of_alike h.parallel (h.parallel.hops hends hendsOther) hends]

end FileSystem

theorem FileCopy.retains_of_run {fs after : FileSystem} {input output : Path} {name : String}
    {version : Int64} {outcome : Except Report Bool}
    (h : run fs input output name version = (after, outcome)) : after.Retains fs := by
  unfold run at h
  split at h
  · obtain ⟨rfl, -⟩ := Prod.mk.inj h
    exact .refl _
  · split at h
    · obtain ⟨rfl, -⟩ := Prod.mk.inj h
      exact .refl _
    · exact retains_of_finish h

/-- A copy that goes well goes as well from and to other paths that the system treats alike. -/
theorem FileCopy.run_eq_ok_of_saves {fs after : FileSystem} {input output input' output' : Path}
    {name : String} {version : Int64} {written : Bool}
    (hinput : fs.open? input' = fs.open? input)
    (hsaves : ∀ content after, fs.Saves output content after → fs.Saves output' content after)
    (h : run fs input output name version = (after, .ok written)) (name' : String) :
    run fs input' output' name' version = (after, .ok written) := by
  cases hopen : fs.open? input with
  | error fault => simp [run, FileCopy.open?, hopen] at h
  | ok unread =>
      cases unread with
      | error fault => simp [run, FileCopy.open?, hopen, filtered, Except.map] at h
      | ok content =>
          cases hactions : fileActions version content with
          | error error => simp [run_of_fileActions_eq_error hopen hactions] at h
          | ok actions =>
              have hfinish {input : Path} (hopen : fs.open? input = .ok (.ok content))
                  (output : Path) (name : String) :
                  ∃ done : FileCopy, done.content = emittedBytes actions content ∧
                    done.output = output ∧ run fs input output name version = done.finish fs := by
                obtain ⟨done, hcontent, houtput, -, hrun⟩ := exists_run_eq_finish hopen hactions
                exact ⟨done, hcontent, houtput, hrun⟩
              obtain ⟨done, hcontent, houtput, hrun⟩ := hfinish hopen output name
              obtain ⟨done', hcontent', houtput', hrun'⟩ :=
                hfinish (hinput.trans hopen) output' name'
              rw [← hcontent'] at hcontent
              rw [hrun] at h
              rw [hrun']
              rcases finish_eq_ok_iff.1 h with ⟨rfl, hempty, rfl⟩ | ⟨rfl, hne, -⟩
              · exact finish_eq_ok_iff.2 (.inl ⟨rfl, hcontent ▸ hempty, rfl⟩)
              · rw [finish_eq_ok_true_iff (hcontent ▸ hne), ← hcontent, houtput']
                apply hsaves
                rw [← houtput]
                exact (finish_eq_ok_true_iff hne).1 h

end Snapshot
