import Mathlib.Data.List.Basic
import Snapshot.FileSystem.Canonical

/-!
# Where a path leads as it reads

Without links a path leads where its text says: names go down, two dots go up, dots and repeated
slashes stay. `Location.follow` takes the hops of a path in this way and looks at no tree. The
statements here say how this reading goes with joining paths, with cutting them short, and with
spelling a location.
-/

namespace Snapshot

/-- The name that a hop goes into, if it goes into one. -/
def Hop.name? : Hop → Option Segment
  | .into name => some name
  | _ => none

theorem Hop.eq_of_ofSegment_eq_into {segment name : Segment}
    (h : Hop.ofSegment segment = .into name) : segment = name := by
  unfold Hop.ofSegment at h
  grind

namespace Location

/-- The location whose names are written in a text, with slashes between them. -/
def ofString (text : String) : Location :=
  (Path.ofString text).segments

/-- The place after one hop. -/
def hop (here : Location) : Hop → Location
  | .slash => here
  | .dot => here
  | .up => here.dropLast
  | .into name => here ++ [name]

/-- The place after some hops, one after the other. -/
def follow (here : Location) (hops : List Hop) : Location :=
  hops.foldl hop here

/-- No name on the way is one with a meaning of its own. -/
def IsPlain (location : Location) : Prop :=
  ∀ name ∈ location, Hop.ofSegment name = .into name

variable {here : Location} {hops : List Hop}

@[simp] theorem follow_nil : here.follow [] = here := rfl

@[simp] theorem follow_cons (first : Hop) :
    here.follow (first :: hops) = (here.hop first).follow hops := rfl

@[simp] theorem follow_append (left right : List Hop) :
    here.follow (left ++ right) = (here.follow left).follow right :=
  List.foldl_append

theorem follow_of_slashes (hslashes : ∀ hop ∈ hops, hop = .slash) : here.follow hops = here := by
  induction hops with
  | nil => rfl
  | cons first hops ih =>
      rw [hslashes first List.mem_cons_self, follow_cons]
      exact ih fun hop hmem => hslashes hop (List.mem_cons_of_mem _ hmem)

/-- Without a way up a path adds its names. -/
theorem follow_of_not_up (hup : Hop.up ∉ hops) :
    here.follow hops = here ++ hops.filterMap Hop.name? := by
  induction hops generalizing here with
  | nil => simp
  | cons first hops ih =>
      have hrest : Hop.up ∉ hops := fun hmem => hup (List.mem_cons_of_mem _ hmem)
      rw [follow_cons, ih hrest]
      cases first with
      | up => exact absurd List.mem_cons_self hup
      | slash | dot => rfl
      | into name => simp [hop, Hop.name?]

theorem map_ofSegment_of_isPlain {location : Location} (h : location.IsPlain) :
    location.map Hop.ofSegment = location.map Hop.into :=
  List.map_congr_left h

/-- The components of a path count as its hops do. -/
theorem foldl_extend (segments : List Segment) :
    (segments.filterMap Component.ofSegment?).foldl Location.extend here =
      here.follow (segments.map Hop.ofSegment) := by
  induction segments generalizing here with
  | nil => rfl
  | cons segment segments ih =>
      rw [List.map_cons, follow_cons, ← ih, List.filterMap_cons]
      by_cases hempty : segment = Segment.empty
      · rw [hempty]
        rfl
      · by_cases hdot : segment = Segment.dot
        · rw [hdot]
          rfl
        · by_cases hdots : segment = Segment.dotDot
          · rw [hdots]
            rfl
          · simp [Component.ofSegment?, Segment.isBlank, Hop.ofSegment, hempty, hdot, hdots, hop,
              extend]

end Location

theorem Segment.IsName.ofSegment_eq {segment : Segment} (h : segment.IsName) :
    Hop.ofSegment segment = .into segment := by
  have hblank := h.not_blank
  simp only [Segment.isBlank, Bool.or_eq_true, decide_eq_true_eq, not_or] at hblank
  rw [Hop.ofSegment, if_neg hblank.1, if_neg hblank.2, if_neg h.ne_dotDot]

theorem Segment.IsName.size_pos {segment : Segment} (h : segment.IsName) :
    0 < segment.text.utf8ByteSize := by
  rw [Nat.pos_iff_ne_zero]
  intro hzero
  have hempty : segment = Segment.empty := by
    obtain ⟨text, hslash⟩ := segment
    obtain rfl := String.utf8ByteSize_eq_zero_iff.1 hzero
    rfl
  exact h.not_blank (by simp [hempty, Segment.isBlank])

namespace Path

/-- The names in a path, in their order. -/
def names (path : Path) : Location :=
  path.hops.filterMap Hop.name?

/-- Whether the path ends in a name, with no slash or dot after it. -/
def EndsInName (path : Path) : Prop :=
  ∃ name, path.hops.getLast? = some (.into name)

/-- Where the path leads as it reads, seen from the given place. -/
def placeFrom (start : Location) (path : Path) : Location :=
  Location.follow (if path.isAbsolute then [] else start) path.hops

variable {path left right : Path} {start location : Location}

/-! ## Joined paths -/

theorem isAbsolute_iff : path.isAbsolute ↔
    ∃ second rest, path.segments = Segment.empty :: second :: rest := by
  unfold isAbsolute
  split
  · next first second rest hsegments => simp [hsegments]
  · next hsegments =>
      simp only [Bool.false_eq_true, false_iff]
      intro h
      obtain ⟨second, rest, heq⟩ := h
      exact hsegments _ _ _ heq

theorem body_of_isAbsolute {segments : List Segment}
    (h : path.segments = Segment.empty :: segments) (hne : segments ≠ []) :
    path.isAbsolute = true ∧ path.body = segments := by
  obtain ⟨second, rest, rfl⟩ := List.exists_cons_of_ne_nil hne
  have habsolute : path.isAbsolute := isAbsolute_iff.2 ⟨second, rest, h⟩
  exact ⟨habsolute, by rw [body, if_pos habsolute, h, List.tail_cons]⟩

theorem body_of_not_isAbsolute (h : path.isAbsolute = false) : path.body = path.segments := by
  rw [body, if_neg (by simp [h])]

theorem hops_ne_nil (h : path.isAbsolute = false) : path.hops ≠ [] := by
  rw [hops, body_of_not_isAbsolute h, ne_eq, List.map_eq_nil_iff]
  exact path.nonempty

theorem openEnd_or_segments (path : Path) :
    path.openEnd = path.segments ∨ path.segments = path.openEnd ++ [Segment.empty] := by
  unfold openEnd
  split
  · next hlast =>
      obtain ⟨init, hinit⟩ := List.getLast?_eq_some_iff.1 hlast
      exact .inr (by simp [hinit])
  · exact .inl rfl

theorem segments_join (h : right.isAbsolute = false) :
    (left.join right).segments = left.openEnd ++ right.segments := by
  simp [join, h]

theorem hasNul_join (h : right.isAbsolute = false) :
    (left.join right).hasNul = (left.hasNul || right.hasNul) := by
  have hempty : decide ('\x00' ∈ Segment.empty.text.toList) = false := by decide
  rw [hasNul, hasNul, hasNul, segments_join h, List.any_append]
  rcases left.openEnd_or_segments with heq | heq
  · rw [heq]
  · simp [heq, hempty]

theorem body_join_of_isAbsolute (hleft : left.isAbsolute) (h : right.isAbsolute = false) :
    (left.join right).isAbsolute ∧ ∃ front, (left.join right).body = front ++ right.body ∧
      (left.body = front ∨ left.body = front ++ [Segment.empty]) := by
  obtain ⟨second, rest, hsegments⟩ := isAbsolute_iff.1 hleft
  have hopen := left.openEnd_or_segments
  obtain ⟨tail, htail⟩ : ∃ tail, left.openEnd = Segment.empty :: tail := by
    rcases hopen with heq | heq
    · exact ⟨_, heq.trans hsegments⟩
    · rw [hsegments] at heq
      cases hcase : left.openEnd with
      | nil => simp [hcase] at heq
      | cons first tail =>
          rw [hcase, List.cons_append, List.cons.injEq] at heq
          exact ⟨tail, by rw [heq.1]⟩
  obtain ⟨-, hleftBody⟩ := body_of_isAbsolute hsegments (by simp)
  have hjoin : (left.join right).segments = _ := segments_join h
  rw [htail, List.cons_append] at hjoin
  obtain ⟨hjoinAbsolute, hjoinBody⟩ := body_of_isAbsolute hjoin (by simp [right.nonempty])
  refine ⟨hjoinAbsolute, tail, by rw [hjoinBody, body_of_not_isAbsolute h], ?_⟩
  rw [hleftBody]
  rw [hsegments, htail] at hopen
  simpa [eq_comm] using hopen

/-- The slash in front of an absolute path holds no NUL. -/
theorem hasNul_eq_any_body (path : Path) :
    path.hasNul = path.body.any fun segment => '\x00' ∈ segment.text.toList := by
  cases habsolute : path.isAbsolute with
  | false => rw [hasNul, body_of_not_isAbsolute habsolute]
  | true =>
      obtain ⟨second, rest, heq⟩ := isAbsolute_iff.1 habsolute
      have hempty : decide ('\x00' ∈ Segment.empty.text.toList) = false := by decide
      rw [hasNul, (body_of_isAbsolute heq (List.cons_ne_nil _ _)).2, heq, List.any_cons, hempty,
        Bool.false_or]

/-- Two relative paths make a relative path. Only a left path that starts with an empty segment
could be in the way, and such a path is empty or absolute. -/
theorem not_isAbsolute_join (hleft : left.isAbsolute = false) (h : right.isAbsolute = false) :
    (left.join right).isAbsolute = false := by
  refine Bool.eq_false_iff.2 fun htrue => ?_
  obtain ⟨second, rest, heq⟩ := isAbsolute_iff.1 htrue
  rw [segments_join h] at heq
  cases hcase : left.openEnd with
  | nil =>
      rw [hcase, List.nil_append] at heq
      exact Bool.eq_false_iff.1 h (isAbsolute_iff.2 ⟨second, rest, heq⟩)
  | cons first tail =>
      rw [hcase, List.cons_append, List.cons.injEq] at heq
      obtain ⟨rfl, -⟩ := heq
      apply Bool.eq_false_iff.1 hleft
      rw [isAbsolute_iff]
      have hopen := left.openEnd_or_segments
      rw [hcase] at hopen
      rcases hopen with heq | heq
      · -- a path that is one empty segment is open at its front
        cases tail with
        | nil =>
            have hlast : left.segments.getLast? = some Segment.empty := by simp [← heq]
            rw [openEnd, if_pos hlast, ← heq] at hcase
            simp at hcase
        | cons second rest => exact ⟨second, rest, heq.symm⟩
      · cases tail with
        | nil => exact ⟨_, _, heq⟩
        | cons second rest => exact ⟨_, _, heq⟩

/-- The segments that a relative path is added to are those of the left path, without the slash at
its end. -/
theorem body_join (left : Path) (h : right.isAbsolute = false) :
    (left.join right).isAbsolute = left.isAbsolute ∧
      ∃ front, (left.join right).body = front ++ right.body ∧
        (left.body = front ∨ left.body = front ++ [Segment.empty]) := by
  cases habsolute : left.isAbsolute with
  | true => exact body_join_of_isAbsolute habsolute h
  | false =>
      have hjoin := not_isAbsolute_join habsolute h
      refine ⟨hjoin, left.openEnd, ?_, ?_⟩
      · rw [body_of_not_isAbsolute hjoin, segments_join h, body_of_not_isAbsolute h]
      · rw [body_of_not_isAbsolute habsolute]
        exact left.openEnd_or_segments.imp_left Eq.symm

theorem exists_hops_join (left : Path) (h : right.isAbsolute = false) :
    ∃ front, (left.join right).hops = front ++ right.hops ∧
      (left.hops = front ∨ left.hops = front ++ [.slash]) := by
  obtain ⟨-, front, hjoin, hleft⟩ := body_join left h
  refine ⟨front.map Hop.ofSegment, by simp [hops, hjoin], ?_⟩
  rcases hleft with hleft | hleft
  · exact .inl (by rw [hops, hleft])
  · exact .inr (by simp [hops, hleft, Hop.ofSegment])

theorem EndsInName.join (hends : right.EndsInName) (h : right.isAbsolute = false) :
    (left.join right).EndsInName := by
  obtain ⟨name, hname⟩ := hends
  obtain ⟨front, hjoin, -⟩ := exists_hops_join left h
  exact ⟨name, by rw [hjoin, List.getLast?_append, hname, Option.some_or]⟩

theorem names_join (h : right.isAbsolute = false) :
    (left.join right).names = left.names ++ right.names := by
  obtain ⟨front, hjoin, hleft | hleft⟩ := exists_hops_join left h
  · simp [names, hjoin, hleft]
  · simp [names, hjoin, hleft, Hop.name?]

theorem up_mem_hops_join (h : right.isAbsolute = false) :
    Hop.up ∈ (left.join right).hops ↔ Hop.up ∈ left.hops ∨ Hop.up ∈ right.hops := by
  obtain ⟨front, hjoin, hleft | hleft⟩ := exists_hops_join left h
  · simp [hjoin, hleft]
  · simp [hjoin, hleft]

theorem placeFrom_join (h : right.isAbsolute = false) :
    (left.join right).placeFrom start = (left.placeFrom start).follow right.hops := by
  obtain ⟨front, hjoin, hleft⟩ := exists_hops_join left h
  rw [placeFrom, placeFrom, (body_join left h).1, hjoin]
  rcases hleft with hleft | hleft
  · simp [hleft]
  · simp [hleft, Location.hop]

theorem placeFrom_of_not_up (hup : Hop.up ∉ path.hops) :
    path.placeFrom start = (if path.isAbsolute then [] else start) ++ path.names :=
  Location.follow_of_not_up hup

/-- The first slash of a path from the root makes up for the one that its last segment lacks. -/
theorem size_of_isAbsolute (h : path.isAbsolute) :
    path.size = Segment.sizeWithSlashes path.body := by
  obtain ⟨second, rest, hsegments⟩ := isAbsolute_iff.1 h
  have hbody := (body_of_isAbsolute hsegments (List.cons_ne_nil _ _)).2
  simp [size, hsegments, hbody, Segment.sizeWithSlashes, Segment.empty]

theorem size_pos_of_isAbsolute (h : path.isAbsolute) : 0 < path.size := by
  obtain ⟨second, rest, hsegments⟩ := isAbsolute_iff.1 h
  rw [size_of_isAbsolute h, (body_of_isAbsolute hsegments (List.cons_ne_nil _ _)).2,
    Segment.sizeWithSlashes]
  omega

/-- The names in an absolute path take no more space than the path. -/
theorem size_names_le (h : path.isAbsolute) : path.names.size ≤ path.size := by
  rw [size_of_isAbsolute h, names, hops, Location.size]
  generalize path.body = segments
  induction segments with
  | nil => exact Nat.le_refl _
  | cons segment segments ih =>
      rw [List.map_cons, List.filterMap_cons]
      split
      · exact Nat.le_trans ih (by simp [Segment.sizeWithSlashes])
      · next name hname =>
          have heq : segment = name := by
            cases hhop : Hop.ofSegment segment with
            | slash | dot | up => simp [hhop, Hop.name?] at hname
            | into other =>
                obtain rfl : other = name := by simpa [hhop, Hop.name?] using hname
                exact Hop.eq_of_ofSegment_eq_into hhop
          rw [heq, Segment.sizeWithSlashes, Segment.sizeWithSlashes]
          exact Nat.add_le_add_left ih _

/-! ## Spelled locations -/

@[simp] theorem isAbsolute_ofLocation : (ofLocation location).isAbsolute = true := by
  cases location with
  | nil => rfl
  | cons first rest => rfl

theorem hops_ofLocation (h : location.IsPlain) :
    (ofLocation location).hops = if location = [] then [.slash] else location.map Hop.into := by
  rw [hops, body, if_pos isAbsolute_ofLocation]
  cases location with
  | nil => rfl
  | cons first rest => exact Location.map_ofSegment_of_isPlain h

theorem up_not_mem_hops_ofLocation (h : location.IsPlain) :
    Hop.up ∉ (ofLocation location).hops := by
  rw [hops_ofLocation h]
  split <;> simp

theorem names_ofLocation (h : location.IsPlain) : (ofLocation location).names = location := by
  rw [names, hops_ofLocation h]
  split
  · next hnil => simp [hnil, Hop.name?]
  · rw [List.filterMap_map]
    exact List.filterMap_some

theorem placeFrom_ofLocation (h : location.IsPlain) :
    (ofLocation location).placeFrom start = location := by
  rw [placeFrom_of_not_up (up_not_mem_hops_ofLocation h), names_ofLocation h]
  simp

theorem isAbsolute_ofLocation_join : ((ofLocation location).join path).isAbsolute = true := by
  cases habsolute : path.isAbsolute with
  | true => rwa [join, if_pos habsolute]
  | false => rw [(body_join _ habsolute).1, isAbsolute_ofLocation]

/-- A path that is joined to a location reads as it does from there. -/
theorem placeFrom_join_ofLocation (h : location.IsPlain) (path : Path) :
    ((ofLocation location).join path).placeFrom start = path.placeFrom location := by
  cases habsolute : path.isAbsolute with
  | true => simp [join, placeFrom, habsolute]
  | false =>
      rw [placeFrom_join habsolute, placeFrom_ofLocation h]
      simp [placeFrom, habsolute]

/-! ## Paths that go down -/

/-- Whether the path is relative and never goes up. -/
structure GoesDown (path : Path) : Prop where
  relative : path.isAbsolute = false
  up_not_mem : Hop.up ∉ path.hops

theorem up_not_mem_ofLocation_join (hlocation : location.IsPlain) (h : path.GoesDown) :
    Hop.up ∉ ((ofLocation location).join path).hops := by
  rw [up_mem_hops_join h.relative, not_or]
  exact ⟨up_not_mem_hops_ofLocation hlocation, h.up_not_mem⟩

theorem names_ofLocation_join (hlocation : location.IsPlain) (h : path.GoesDown) :
    ((ofLocation location).join path).names = location ++ path.names := by
  rw [names_join h.relative, names_ofLocation hlocation]

theorem placeFrom_ofLocation_join (hlocation : location.IsPlain) (h : path.GoesDown) :
    ((ofLocation location).join path).placeFrom start = location ++ path.names := by
  rw [placeFrom_join h.relative, placeFrom_ofLocation hlocation,
    Location.follow_of_not_up h.up_not_mem, names]

theorem hops_ofSegment {name : Segment} (hname : Hop.ofSegment name = .into name) :
    (ofSegment name).hops = [.into name] := by
  rw [hops, body_of_not_isAbsolute rfl]
  exact congrArg (· :: []) hname

/-- A path with one name more. -/
theorem goesDown_join_ofSegment (h : path.GoesDown) {name : Segment}
    (hname : Hop.ofSegment name = .into name) :
    (path.join (ofSegment name)).GoesDown ∧
      (path.join (ofSegment name)).names = path.names ++ [name] := by
  have hrelative : (ofSegment name).isAbsolute = false := rfl
  refine ⟨⟨by rw [(body_join _ hrelative).1, h.relative], ?_⟩, ?_⟩
  · simp [up_mem_hops_join hrelative, h.up_not_mem, hops_ofSegment hname]
  · rw [names_join hrelative]
    simp [names, hops_ofSegment hname, Hop.name?]

/-! ## Shorter paths -/

theorem upTo_length_body (path : Path) : path.upTo path.body.length = path := by
  obtain ⟨segments, hne⟩ := path
  cases habsolute : isAbsolute ⟨segments, hne⟩ with
  | true =>
      obtain ⟨second, rest, rfl⟩ := isAbsolute_iff.1 habsolute
      simp [upTo, body, habsolute]
  | false => simp [upTo, body, habsolute, hne]

theorem isAbsolute_upTo (path : Path) (count : Nat) :
    (path.upTo count).isAbsolute = path.isAbsolute := by
  cases habsolute : path.isAbsolute with
  | true =>
      have hne : (if (path.body.take count).isEmpty then [Segment.empty]
          else path.body.take count) ≠ [] := by
        split
        · simp
        · next h => simpa using h
      exact (body_of_isAbsolute (by simp [upTo, habsolute]) hne).1
  | false =>
      refine Bool.eq_false_iff.2 fun htrue => ?_
      obtain ⟨second, rest, heq⟩ := isAbsolute_iff.1 htrue
      have hbody := body_of_not_isAbsolute habsolute
      simp only [upTo, habsolute, Bool.false_eq_true, if_false] at heq
      split at heq
      · simp at heq
      · rw [hbody] at heq
        have hsegments := List.take_append_drop count path.segments
        rw [heq, List.cons_append, List.cons_append] at hsegments
        exact Bool.eq_false_iff.1 habsolute (isAbsolute_iff.2 ⟨_, _, hsegments.symm⟩)

theorem body_upTo (path : Path) (count : Nat) :
    (path.upTo count).body =
      if path.body.take count = [] then [Segment.empty] else path.body.take count := by
  have hupTo := isAbsolute_upTo path count
  rw [body]
  cases habsolute : path.isAbsolute with
  | true =>
      rw [if_pos (hupTo.trans habsolute)]
      by_cases hempty : path.body.take count = []
      · simp [upTo, habsolute, hempty]
      · simp [upTo, habsolute, hempty]
  | false =>
      rw [if_neg (by simp [hupTo, habsolute])]
      by_cases hempty : path.body.take count = []
      · simp [upTo, habsolute, hempty]
      · simp [upTo, habsolute, hempty]

theorem hops_upTo (path : Path) (count : Nat) :
    (path.upTo count).hops =
      if path.body.take count = [] then [.slash]
      else (path.body.take count).map Hop.ofSegment := by
  rw [hops, body_upTo]
  split <;> rfl

theorem up_not_mem_hops_upTo (hup : Hop.up ∉ path.hops) (count : Nat) :
    Hop.up ∉ (path.upTo count).hops := by
  rw [hops_upTo]
  split
  · simp
  · exact fun hmem => hup (List.map_subset _ (List.take_subset count path.body) hmem)

theorem follow_hops_upTo (count : Nat) :
    start.follow (path.upTo count).hops =
      start.follow ((path.body.take count).map Hop.ofSegment) := by
  rw [hops_upTo]
  split
  · next hempty => simp [hempty, Location.hop]
  · rfl

/-- A path leads where the rest of it leads from a shorter one. -/
theorem foldl_extend_after (count : Nat) :
    (path.after count).foldl Location.extend ((path.upTo count).placeFrom start) =
      path.placeFrom start := by
  rw [after, Location.foldl_extend, placeFrom, placeFrom, isAbsolute_upTo, follow_hops_upTo,
    ← Location.follow_append, ← List.map_append, List.take_append_drop, hops]

/-- Without a way up a shorter path leads to a place above. -/
theorem placeFrom_upTo_prefix (hup : Hop.up ∉ path.hops) (count : Nat) :
    (path.upTo count).placeFrom start <+: path.placeFrom start := by
  have hparts : path.hops = (path.body.take count).map Hop.ofSegment ++
      (path.body.drop count).map Hop.ofSegment := by
    rw [← List.map_append, List.take_append_drop, hops]
  rw [hparts, List.mem_append, not_or] at hup
  rw [placeFrom, placeFrom, isAbsolute_upTo, follow_hops_upTo, hparts, Location.follow_append,
    Location.follow_of_not_up hup.2]
  exact List.prefix_append _ _

/-- What the hops of a path have more than its bare ones. -/
theorem exists_slashes (path : Path) :
    ∃ slashes, path.hops = path.bareHops ++ slashes ∧ ∀ hop ∈ slashes, hop = .slash := by
  refine ⟨(path.hops.reverse.takeWhile (· = .slash)).reverse, ?_, fun hop hmem => ?_⟩
  · rw [bareHops, ← List.reverse_append, List.takeWhile_append_dropWhile, List.reverse_reverse]
  · simpa using List.all_eq_true.1 List.all_takeWhile _ (List.mem_reverse.1 hmem)

theorem bareHops_prefix (path : Path) : path.bareHops <+: path.hops := by
  obtain ⟨slashes, hslashes, -⟩ := path.exists_slashes
  exact ⟨slashes, hslashes.symm⟩

/-- Slashes at the end of a path lead nowhere else. -/
theorem follow_bareHops : start.follow path.bareHops = start.follow path.hops := by
  obtain ⟨slashes, hparts, hslashes⟩ := path.exists_slashes
  rw [hparts, Location.follow_append, Location.follow_of_slashes hslashes]

end Path

end Snapshot
