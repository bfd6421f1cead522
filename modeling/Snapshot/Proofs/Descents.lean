import Snapshot.Path.Lemmas
import Snapshot.Proofs.Acceptance
import Snapshot.Proofs.Cuts

/-!
# Roots that stay inside

Roots are given as texts. Which of them are allowed is told here by the pieces between their slashes
alone, and so is what an allowed root adds to a directory: the names among these pieces, and nothing
else. A root that is not allowed adds nothing, or goes up, or does not start at the directory.
-/

namespace Snapshot

/-- What is between the slashes of a text. -/
def pieces (text : String) : List (List Char) :=
  text.toList.splitOn '/'

/-- Whether a piece of a text stays where it is read. -/
def IsIdle (piece : List Char) : Prop :=
  piece = [] ∨ piece = ['.']

instance : DecidablePred IsIdle :=
  fun piece => inferInstanceAs (Decidable (piece = [] ∨ piece = ['.']))

/-- Whether a text leads from any directory to a place below it. -/
structure StaysInside (text : String) : Prop where
  relative : text.toList.head? ≠ some '/'
  not_up : ['.', '.'] ∉ pieces text
  moves : ∃ piece ∈ pieces text, ¬IsIdle piece

instance (text : String) : Decidable (StaysInside text) :=
  decidable_of_iff (text.toList.head? ≠ some '/' ∧ ['.', '.'] ∉ pieces text ∧
      ∃ piece ∈ pieces text, ¬IsIdle piece)
    ⟨fun ⟨relative, not_up, moves⟩ => ⟨relative, not_up, moves⟩,
      fun h => ⟨h.relative, h.not_up, h.moves⟩⟩

theorem Segment.eq_of_toList_eq {segment other : Segment}
    (h : segment.text.toList = other.text.toList) : segment = other := by
  cases segment
  cases other
  simpa [String.toList_inj] using h

theorem isIdle_toList_iff {segment : Segment} :
    IsIdle segment.text.toList ↔ segment.isBlank = true := by
  have hempty : segment.text.toList = [] ↔ segment = Segment.empty :=
    ⟨fun h => Segment.eq_of_toList_eq (h.trans rfl), fun h => by rw [h]; rfl⟩
  have hdot : segment.text.toList = ['.'] ↔ segment = Segment.dot :=
    ⟨fun h => Segment.eq_of_toList_eq (h.trans rfl), fun h => by rw [h]; rfl⟩
  simp [IsIdle, Segment.isBlank, hempty, hdot]

namespace Path

variable {path left right : Path} {text : String}

/-! ## Texts and segments -/

theorem pieces_eq (text : String) :
    pieces text = (ofString text).segments.map (·.text.toList) :=
  (map_toList_segments_ofString text).symm

theorem dotDot_mem_segments_iff :
    Segment.dotDot ∈ (ofString text).segments ↔ ['.', '.'] ∈ pieces text := by
  rw [pieces_eq, List.mem_map]
  refine ⟨fun h => ⟨_, h, rfl⟩, fun ⟨segment, hmem, heq⟩ => ?_⟩
  have hsegment : segment = Segment.dotDot := Segment.eq_of_toList_eq (heq.trans rfl)
  exact hsegment ▸ hmem

theorem exists_not_isBlank_iff :
    (∃ segment ∈ (ofString text).segments, segment.isBlank = false) ↔
      ∃ piece ∈ pieces text, ¬IsIdle piece := by
  simp [pieces_eq, isIdle_toList_iff]

/-- A path starts at the root if its text starts with a slash. -/
theorem isAbsolute_ofString_iff : (ofString text).isAbsolute ↔ text.toList.head? = some '/' := by
  have hpieces := map_toList_segments_ofString text
  rw [isAbsolute_iff]
  constructor
  · rintro ⟨second, rest, hsegments⟩
    have htext := congrArg (['/'].intercalate ·) hpieces
    simp only [hsegments, List.intercalate_splitOn] at htext
    simp [← htext, List.intercalate_cons_cons, Segment.empty]
  · intro hhead
    obtain ⟨rest, htext⟩ := List.head?_eq_some_iff.1 hhead
    rw [htext, List.splitOn_cons_eq_if_modifyHead, if_pos (by simp)] at hpieces
    obtain ⟨first, others, hsegments, hfirst, hothers⟩ := List.map_eq_cons_iff.1 hpieces
    have hne : others ≠ [] := by
      rintro rfl
      exact List.splitOn_ne_nil _ _ hothers.symm
    obtain ⟨second, rest, rfl⟩ := List.exists_cons_of_ne_nil hne
    have hempty : first = Segment.empty := Segment.eq_of_toList_eq (hfirst.trans rfl)
    exact ⟨second, rest, by rw [hsegments, hempty]⟩

/-! ## Components -/

theorem components_of_isAbsolute (h : path.isAbsolute) :
    path.components = .root :: path.body.filterMap Component.ofSegment? := by
  rw [components, if_pos h, body, if_pos h]

theorem components_of_relative (h : path.isAbsolute = false) :
    path.components = (if path.segments.head? = some Segment.dot then [.current] else []) ++
      path.segments.filterMap Component.ofSegment? := by
  rw [components, if_neg (by simp [h])]
  split
  · next hdot =>
      have hnone : Component.ofSegment? Segment.dot = none := rfl
      obtain ⟨rest, hrest⟩ := List.head?_eq_some_iff.1 hdot
      rw [hrest, List.filterMap_cons_none hnone]
      rfl
  · rfl

theorem eq_current_or_mem_of_mem_components (h : path.isAbsolute = false) {component : Component}
    (hmem : component ∈ path.components) :
    component = .current ∨
      ∃ segment ∈ path.segments, Component.ofSegment? segment = some component := by
  rw [components_of_relative h, List.mem_append, List.mem_filterMap] at hmem
  refine hmem.imp_left fun hfront => ?_
  split at hfront
  · exact List.mem_singleton.1 hfront
  · cases hfront

/-- After a path from the root the components of a relative one are those that its segments make.
A dot at its front is lost. -/
theorem components_join (hleft : left.isAbsolute) (h : right.isAbsolute = false) :
    (left.join right).components =
      left.components ++ right.segments.filterMap Component.ofSegment? := by
  obtain ⟨habsolute, front, hjoin, hbody⟩ := body_join_of_isAbsolute hleft h
  have hnone : Component.ofSegment? Segment.empty = none := rfl
  rw [components_of_isAbsolute habsolute, components_of_isAbsolute hleft, hjoin,
    body_of_not_isAbsolute h, List.filterMap_append, List.cons_append]
  rcases hbody with hbody | hbody
  · rw [hbody]
  · rw [hbody, List.filterMap_append, List.filterMap_cons_none hnone, List.filterMap_nil,
      List.append_nil]

/-- The name that is added to a path is its last component then. -/
theorem components_join_ofSegment {name : Segment} (hname : Hop.ofSegment name = .into name) :
    (left.join (.ofSegment name)).components = left.components ++ [.name name] := by
  have hrelative : (ofSegment name).isAbsolute = false := rfl
  have hblank := Segment.not_isBlank_of_ofSegment hname
  have hdots : name ≠ Segment.dotDot := by
    rintro rfl
    cases hname
  have hcomponent : [name].filterMap Component.ofSegment? = [.name name] := by
    simp [Component.ofSegment?, hblank, hdots]
  cases hleft : left.isAbsolute with
  | true => rw [components_join hleft hrelative, ← hcomponent]; rfl
  | false =>
      have hdot : name ≠ Segment.dot := by
        rintro rfl
        cases hblank
      have hempty : [Segment.empty].filterMap Component.ofSegment? = [] := rfl
      have hfront : ¬some name = some Segment.dot := fun heq => hdot (Option.some.inj heq)
      rw [components_of_relative (not_isAbsolute_join hleft hrelative),
        components_of_relative hleft, segments_join hrelative, List.filterMap_append, ← List.append_assoc]
      congr 1
      rcases left.openEnd_or_segments with heq | heq
      · rw [heq, List.head?_append_of_ne_nil _ left.nonempty]
      · rw [heq, List.filterMap_append, hempty, List.append_nil]
        cases left.openEnd with
        | nil => exact congrArg (· ++ []) (if_neg hfront)
        | cons first rest => rfl

/-- Segments without a way up make names. -/
theorem filterMap_ofSegment_of_not_up {segments : List Segment}
    (hup : Segment.dotDot ∉ segments) :
    segments.filterMap Component.ofSegment? =
      (segments.filter fun segment => !segment.isBlank).map .name := by
  induction segments with
  | nil => rfl
  | cons segment segments ih =>
      rw [List.mem_cons, not_or] at hup
      cases hblank : segment.isBlank with
      | true =>
          have hnone : Component.ofSegment? segment = none := by simp [Component.ofSegment?, hblank]
          rw [List.filterMap_cons_none hnone, List.filter_cons_of_neg (by simp [hblank]), ih hup.2]
      | false =>
          have hname : Component.ofSegment? segment = some (.name segment) := by
            simp [Component.ofSegment?, hblank, Ne.symm hup.1]
          rw [List.filterMap_cons_some hname, List.filter_cons_of_pos (by simp [hblank]),
            List.map_cons, ih hup.2]

theorem isDescent_iff : path.IsDescent ↔ path.isAbsolute = false ∧
    Segment.dotDot ∉ path.segments ∧ ∃ segment ∈ path.segments, segment.isBlank = false := by
  constructor
  · intro h
    have hrelative := h.goesDown.1.relative
    obtain ⟨hcomponents, name, hname⟩ := h
    obtain ⟨hmem, hinto⟩ := exists_of_name_mem_components hrelative hname
    refine ⟨hrelative, fun hup => ?_, name, hmem, Segment.not_isBlank_of_ofSegment hinto⟩
    exact (hcomponents .parent (mem_components_of_mem_segments hrelative hup rfl)).2 rfl
  · rintro ⟨hrelative, hup, name, hname, hblank⟩
    have hne : name ≠ Segment.dotDot := fun heq => hup (heq ▸ hname)
    refine ⟨fun component hcomponent => ?_, name, ?_⟩
    · rcases eq_current_or_mem_of_mem_components hrelative hcomponent with
        rfl | ⟨segment, hsegment, heq⟩
      · simp
      · have hnotUp : segment ≠ Segment.dotDot := fun h => hup (h ▸ hsegment)
        rw [Component.ofSegment?, if_neg hnotUp] at heq
        split at heq
        · cases heq
        · cases heq
          simp
    · refine mem_components_of_mem_segments hrelative hname ?_
      simp [Component.ofSegment?, hblank, hne]

theorem isDescent_ofString_iff : (ofString text).IsDescent ↔ StaysInside text := by
  rw [isDescent_iff, dotDot_mem_segments_iff, exists_not_isBlank_iff, ← Bool.not_eq_true,
    isAbsolute_ofString_iff]
  exact ⟨fun ⟨hrelative, hup, hmoves⟩ => ⟨hrelative, hup, hmoves⟩,
    fun h => ⟨h.relative, h.not_up, h.moves⟩⟩

/-- The names that a text adds to a directory are the pieces of it that do not stay. -/
theorem components_join_of_staysInside (hleft : left.isAbsolute) (h : StaysInside text) :
    ∃ names : List Segment, names.map (·.text.toList) = (pieces text).filter (¬IsIdle ·) ∧
      (left.join (ofString text)).components = left.components ++ names.map .name := by
  obtain ⟨hrelative, hup, -⟩ := isDescent_iff.1 (isDescent_ofString_iff.2 h)
  refine ⟨(ofString text).segments.filter fun segment => !segment.isBlank, ?_, ?_⟩
  · rw [pieces_eq, List.filter_map]
    simp [Function.comp_def, isIdle_toList_iff]
  · rw [components_join hleft hrelative, filterMap_ofSegment_of_not_up hup]

/-- What is not allowed does not start at the directory, or adds nothing to it, or goes up. -/
theorem components_join_of_not_staysInside (hleft : left.isAbsolute) (h : ¬StaysInside text) :
    left.join (ofString text) = ofString text ∨ ∃ added,
      (left.join (ofString text)).components = left.components ++ added ∧
        (added = [] ∨ .parent ∈ added) := by
  rw [← isDescent_ofString_iff, isDescent_iff] at h
  cases habsolute : (ofString text).isAbsolute with
  | true => exact .inl (by rw [join, if_pos habsolute])
  | false =>
      refine .inr ⟨_, components_join hleft habsolute, ?_⟩
      by_cases hup : Segment.dotDot ∈ (ofString text).segments
      · exact .inr (List.mem_filterMap.2 ⟨_, hup, rfl⟩)
      · refine .inl (List.filterMap_eq_nil_iff.2 fun segment hsegment => ?_)
        have hblank : segment.isBlank = true := by
          by_contra hblank
          exact h ⟨habsolute, hup, segment, hsegment, by simpa using hblank⟩
        simp [Component.ofSegment?, hblank]

end Path

/-- The first root that is not allowed is the one that is named. -/
theorem Config.validate_eq_error {config : Config} {front later : List Path} {root : Path}
    (hroots : config.roots = front ++ root :: later) (hfront : ∀ other ∈ front, other.IsDescent)
    (hroot : ¬root.IsDescent) :
    config.validate = .error ((Report.of (.path root)).noting (.rootOutsideProject root)) := by
  have hfound : (config.roots.find? fun root => ¬root.IsDescent) = some root := by
    rw [List.find?_eq_some_iff_append]
    exact ⟨by simpa using hroot, front, later, hroots, by simpa using hfront⟩
  rw [validate, hfound]

/-- The roots that are allowed are those whose texts start with no slash, have no two dots between
slashes, and have something there besides nothing and one dot; the first that is not of this kind is
reported. Below any directory an allowed root leads to a place strictly inside it, by the names in
its text in their order. One that is not allowed leads to the directory itself, goes up, or starts
at the root. -/
theorem Config.validate_iff_staysInside (config : Config) (texts : List String) :
    let checked := { config with roots := texts.map Path.ofString }
    (checked.validate = .ok () ↔ ∀ text ∈ texts, StaysInside text) ∧
    (∀ front text later, texts = front ++ text :: later → (∀ other ∈ front, StaysInside other) →
      ¬StaysInside text → checked.validate = .error
        ((Report.of (.path (.ofString text))).noting (.rootOutsideProject (.ofString text)))) ∧
    ∀ directory : Path, directory.isAbsolute → ∀ text,
      (StaysInside text → ∃ names : List Segment, names ≠ [] ∧
        names.map (·.text.toList) = (pieces text).filter (¬IsIdle ·) ∧
        (directory.join (.ofString text)).components = directory.components ++ names.map .name) ∧
      (¬StaysInside text → directory.join (.ofString text) = .ofString text ∨ ∃ added,
        (directory.join (.ofString text)).components = directory.components ++ added ∧
          (added = [] ∨ .parent ∈ added)) := by
  intro checked
  refine ⟨?_, fun front text later htexts hfront htext => ?_, fun directory hdirectory text =>
    ⟨fun htext => ?_, Path.components_join_of_not_staysInside hdirectory⟩⟩
  · rw [Config.validate_eq_ok_iff]
    simp [checked, Path.isDescent_ofString_iff]
  · have hroots : checked.roots = front.map Path.ofString ++ .ofString text ::
        later.map Path.ofString := by simp [checked, htexts]
    refine Config.validate_eq_error hroots ?_ (mt Path.isDescent_ofString_iff.1 htext)
    simpa [Path.isDescent_ofString_iff] using hfront
  · obtain ⟨names, htexts, hjoin⟩ := Path.components_join_of_staysInside hdirectory htext
    refine ⟨names, ?_, htexts, hjoin⟩
    rintro rfl
    obtain ⟨piece, hmem, hmoves⟩ := htext.moves
    have hnone := List.filter_eq_nil_iff.1 htexts.symm piece hmem
    simp [hmoves] at hnone

/-- Three dots are a name, and so are two with more after them. A way up is found wherever it
stands, and of two roots that are not allowed the first is reported. -/
theorem Config.validate_iff_staysInside_dots :
    (∀ text ∈ [".../src", "./src//..x/"], StaysInside text) ∧ ¬StaysInside "src/../.." ∧
      ({ roots := [".../src", "./src//..x/", "src/../..", "/etc"].map Path.ofString } :
        Config).validate = .error ((Report.of (.path (.ofString "src/../.."))).noting
          (.rootOutsideProject (.ofString "src/../.."))) ∧
      (Path.ofString "/").isAbsolute ∧ ∃ names : List Segment, names ≠ [] ∧
        names.map (·.text.toList) = ["src".toList, "..x".toList] ∧
        ((Path.ofString "/").join (.ofString "./src//..x/")).components =
          .root :: names.map .name := by
  have hallowed : ∀ text ∈ [".../src", "./src//..x/"], StaysInside text := by decide +kernel
  have hrefused : ¬StaysInside "src/../.." := by decide +kernel
  obtain ⟨-, herror, hjoined⟩ := Config.validate_iff_staysInside {}
    [".../src", "./src//..x/", "src/../..", "/etc"]
  have hroot : (Path.ofString "/").isAbsolute := by decide +kernel
  obtain ⟨names, hne, htexts, hcomponents⟩ :=
    (hjoined _ hroot "./src//..x/").1 (hallowed _ (by simp))
  exact ⟨hallowed, hrefused, herror [".../src", "./src//..x/"] _ ["/etc"] rfl hallowed hrefused,
    hroot, names, hne, htexts.trans (by decide +kernel), hcomponents⟩

end Snapshot
