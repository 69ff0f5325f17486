import ComponentDocs.Proofs.Path.Normal
/-! The path above a path, as it is written: the first pieces of the path, unless it is empty or the root. -/
namespace ComponentDocs.Path

theorem glue_pieces (cs : List Char) : glue (pieces cs) = cs := by
  induction cs with
  | nil => rfl
  | cons c cs ih =>
    obtain ⟨first, rest, hp⟩ := List.exists_cons_of_ne_nil (pieces_ne_nil cs)
    rw [hp] at ih
    by_cases hc : c = '/'
    · subst hc
      rw [pieces_slash, hp, glue_cons_cons, ih]
      rfl
    · have hpieces : pieces (c :: cs) = (c :: first) :: rest := by simp [pieces, hc, hp]
      rw [hpieces, ← ih]
      cases rest with
      | nil => simp
      | cons second rest => simp [glue_cons_cons]

/-- The piece that a path begins with, if it is not one of its body. -/
def Lead.pieces : Lead → List (List Char)
  | .plain => []
  | .root => [[]]
  | .here => [['.']]

theorem pieces_eq_body (p : Path) : Path.pieces p.chars = p.lead.pieces ++ p.body := by
  unfold body
  cases hl : p.lead with
  | plain => rfl
  | root | here =>
    unfold lead at hl
    split at hl <;> simp_all [Lead.pieces]

/-- The pieces before the body have no segments but the beginning. -/
theorem filterMap_pieces (p : Path) : (pieces p.chars).filterMap segment? = p.steps := by
  rw [pieces_eq_body, List.filterMap_append]
  cases p.lead <;> rfl

theorem pieces_build {l : Lead} {ps : List (List Char)} (hne : ps ≠ []) (hslash : ∀ piece ∈ ps, '/' ∉ piece) :
    Path.pieces (build l ps).chars = l.pieces ++ ps := by
  have hp := pieces_glue_of_no_slash hne hslash
  cases l with
  | plain => exact hp
  | root => exact (pieces_slash _).trans (congrArg _ hp)
  | here =>
    obtain ⟨first, rest, rfl⟩ := List.exists_cons_of_ne_nil hne
    exact (pieces_append_slash (n := ['.']) (by decide) _).trans (congrArg _ hp)

theorem parent?_cases {p parent : Path} (h : p.parent? = some parent) :
    parent = ⟨[]⟩ ∨ parent = ⟨['/']⟩ ∨
      ∃ more, more ≠ [] ∧ Path.pieces p.chars = Path.pieces parent.chars ++ more := by
  unfold parent? at h
  split at h
  · split at h
    · exact .inl (Option.some.inj h).symm
    · cases h
  · next hne =>
    obtain rfl := Option.some.inj h
    obtain ⟨idle, hidle⟩ := trimIdle_prefixOf p.body
    obtain ⟨between, hbetween⟩ := trimIdle_prefixOf p.tightBody.dropLast
    have hlast := List.dropLast_append_getLast hne
    have hbody : p.body = trimIdle p.tightBody.dropLast ++ (between ++ [p.tightBody.getLast hne] ++ idle) := by
      rw [List.append_assoc between, ← List.append_assoc, hbetween, ← List.append_assoc, hlast, tightBody, hidle]
    have hslash : ∀ piece ∈ trimIdle p.tightBody.dropLast, '/' ∉ piece := by
      intro piece hm
      exact no_slash_of_mem_tightBody (List.dropLast_subset _ (mem_of_mem_trimIdle hm))
    by_cases hfront : trimIdle p.tightBody.dropLast = []
    · rw [hfront] at hbody ⊢
      cases hl : p.lead with
      | plain => exact .inl rfl
      | root => exact .inr (.inl rfl)
      | here =>
        refine .inr (.inr ⟨p.body, by simp [hbody], ?_⟩)
        rw [pieces_eq_body, hl]
        rfl
    · refine .inr (.inr ⟨between ++ [p.tightBody.getLast hne] ++ idle, by simp, ?_⟩)
      rw [pieces_build hfront hslash, pieces_eq_body, List.append_assoc, ← hbody]

theorem isAbsolute_parent?_eq {p parent : Path} (h : p.parent? = some parent) (he : parent.isEmpty = false) :
    parent.isAbsolute = p.isAbsolute := by
  have hlead := lead_eq_of_prefixOf (segments_ne_nil he) (segments_parent? h)
  rw [Bool.eq_iff_iff, ← lead_eq_root_iff, ← lead_eq_root_iff, hlead]

theorem length_parent?_lt {p parent : Path} (h : p.parent? = some parent) : parent.chars.length < p.chars.length := by
  rcases parent?_cases h with rfl | rfl | ⟨more, hmore, hp⟩
  · refine List.length_pos_of_ne_nil fun hp => ?_
    obtain rfl : p = ⟨[]⟩ := congrArg Path.mk hp
    cases h
  · have ha : p.isAbsolute = true := (isAbsolute_parent?_eq h rfl).symm
    obtain ⟨cs⟩ := p
    cases cs with
    | nil => cases ha
    | cons c cs =>
      cases cs with
      | nil =>
        obtain rfl : c = '/' := by simpa [isAbsolute] using ha
        cases h
      | cons d cs => simp
  · have hchars : p.chars = parent.chars ++ '/' :: glue more := by
      rw [← glue_pieces p.chars, hp, glue_append (pieces_ne_nil _) hmore, glue_pieces]
    simp [hchars]

/-! The normal form of a path: how it looks, which paths are in it already, and that a path can be brought into it
before another is joined to it, or after. -/

/-- A path without `.`, in which nothing but steps up comes before a step up. -/
def IsNormal (p : Path) : Prop := .here ∉ p.segments ∧ p.segments.Pairwise fun s t => t = .up → s = .up

theorem foldl_climb_lead (absolute : Bool) (l : Lead) (start : List Segment) :
    l.segments.foldl (climb absolute) start = start := by
  cases l <;> rfl

theorem passed_eq (p : Path) : p.passed = p.steps.foldl (climb p.isAbsolute) [] := by
  rw [passed, segments_eq_steps, List.foldl_append, foldl_climb_lead]

theorem normalize_eq (p : Path) :
    p.normalize = build (if p.isAbsolute then .root else .plain) (p.passed.reverse.map segmentChars) := rfl

theorem isStep_of_mem_passed {p : Path} {s : Segment} (h : s ∈ p.passed.reverse) : IsStep s := by
  obtain ⟨k, names, hnames, -, hpassed⟩ := p.exists_passed
  rw [hpassed, List.reverse_reverse] at h
  exact isStep_of_mem_upDown hnames s h

theorem view_normalize (p : Path) :
    p.normalize.lead = (if p.isAbsolute then .root else .plain) ∧ p.normalize.steps = p.passed.reverse := by
  have hl : (if p.isAbsolute then .root else .plain : Lead) ≠ .here := by cases p.isAbsolute <;> decide
  obtain ⟨hlead, -, hsegments⟩ := view_build (fun _ => isStep_of_mem_passed) _ hl
  rw [← normalize_eq] at hlead hsegments
  rw [segments_eq_steps, hlead] at hsegments
  exact ⟨hlead, List.append_cancel_left hsegments⟩

theorem isAbsolute_normalize_eq (p : Path) : p.normalize.isAbsolute = p.isAbsolute := by
  rw [Bool.eq_iff_iff, ← lead_eq_root_iff, p.view_normalize.1]
  cases p.isAbsolute <;> decide

theorem passed_normalize (p : Path) : p.normalize.passed = p.passed := by
  obtain ⟨k, names, -, hk, hpassed⟩ := p.exists_passed
  rw [passed_eq, p.view_normalize.2, isAbsolute_normalize_eq, hpassed, List.reverse_reverse, foldl_climb_upDown _ hk]

theorem pairwise_upDown (k : Nat) (names : List (List Char)) :
    (upDown k names).Pairwise fun s t => t = .up → s = .up := by
  refine List.pairwise_append.2 ⟨List.pairwise_replicate.2 (.inr fun _ => rfl), ?_, ?_⟩
  · exact List.pairwise_map.2 (List.pairwise_of_forall fun _ _ h => Segment.noConfusion h)
  · intro s hs _ _ _
    exact List.eq_of_mem_replicate hs

theorem exists_upDown_of_pairwise {steps : List Segment} (hsteps : ∀ s ∈ steps, IsStep s)
    (h : steps.Pairwise fun s t => t = .up → s = .up) : ∃ k names, steps = upDown k names := by
  induction steps with
  | nil => exact ⟨0, [], rfl⟩
  | cons s rest ih =>
    obtain ⟨hs, hrest⟩ := List.forall_mem_cons.1 hsteps
    obtain ⟨hfirst, hpairs⟩ := List.pairwise_cons.1 h
    obtain rfl | ⟨n, hn, rfl⟩ := hs
    · obtain ⟨k, names, rfl⟩ := ih hrest hpairs
      exact ⟨k + 1, names, rfl⟩
    · have hdown : ∀ t ∈ .name n :: rest, IsDown t := by
        refine List.forall_mem_cons.2 ⟨hn.isDown, fun t ht => (hrest t ht).resolve_left ?_⟩
        exact fun hup => Segment.noConfusion (hfirst t ht hup)
      obtain ⟨names, -, hnames⟩ := exists_names_of_isDown hdown
      exact ⟨0, names, hnames⟩

theorem isNormal_normalize (p : Path) : p.normalize.IsNormal := by
  obtain ⟨k, names, h, hk, hpassed⟩ := p.exists_passed
  have hsegments : p.normalize.segments = p.normalize.lead.segments ++ upDown k names := by
    rw [segments_eq_steps, p.view_normalize.2, hpassed, List.reverse_reverse]
  rw [IsNormal, hsegments, p.view_normalize.1]
  cases ha : p.isAbsolute with
  | false =>
    refine ⟨fun hhere => ?_, pairwise_upDown k names⟩
    obtain hup | ⟨n, -, hn⟩ := isStep_of_mem_upDown h _ hhere
    · cases hup
    · cases hn
  | true =>
    obtain rfl := hk ha
    refine ⟨by simp [upDown, Lead.segments], List.pairwise_cons.2 ⟨?_, pairwise_upDown 0 names⟩⟩
    rintro s hs rfl
    simp [upDown] at hs

theorem IsNormal.lead_eq {p : Path} (h : p.IsNormal) : p.lead = if p.isAbsolute then .root else .plain := by
  cases ha : p.isAbsolute with
  | true => exact lead_eq_root_iff.2 ha
  | false => exact lead_eq_plain ha h.1

/-- A normal path leads where it says. -/
theorem IsNormal.passed_eq {p : Path} (h : p.IsNormal) : p.passed = p.steps.reverse := by
  have hpairs := h.2
  rw [segments_eq_steps] at hpairs
  obtain ⟨-, hsteps, hfirst⟩ := List.pairwise_append.1 hpairs
  obtain ⟨k, names, he⟩ := exists_upDown_of_pairwise (fun _ => isStep_of_mem_steps) hsteps
  rw [Path.passed_eq, he]
  refine foldl_climb_upDown _ (fun ha => ?_) names
  by_contra hk
  obtain ⟨j, rfl⟩ := Nat.exists_eq_succ_of_ne_zero hk
  have hup : .up ∈ p.steps := he ▸ List.mem_cons_self
  rw [lead_eq_root_iff.2 ha] at hfirst
  cases hfirst .root List.mem_cons_self .up hup rfl

/-- Only normal paths keep their segments. -/
theorem same_normalize_iff {p : Path} : p.normalize.same p = true ↔ p.IsNormal := by
  rw [same_iff]
  constructor
  · intro hs
    rw [IsNormal, ← hs]
    exact p.isNormal_normalize
  · intro h
    rw [segments_eq_steps, segments_eq_steps, p.view_normalize.2, h.passed_eq, List.reverse_reverse, p.view_normalize.1,
      h.lead_eq]

/-- Steps that are worked out by themselves lead on from any start as they did before. -/
theorem foldl_climb_reduced (absolute : Bool) (start steps : List Segment) :
    (steps.foldl (climb false) []).reverse.foldl (climb absolute) start = steps.foldl (climb absolute) start := by
  induction steps using List.reverseRecOn with
  | nil => rfl
  | append_singleton steps s ih =>
    rw [List.foldl_concat, List.foldl_concat, ← ih]
    cases s with
    | root | here => rfl
    | name n => rw [climb, List.reverse_cons, List.foldl_concat]
    | up =>
      cases steps.foldl (climb false) [] with
      | nil => rfl
      | cons last front =>
        cases last with
        | name n => simp [climb]
        | root | here | up => simp [climb]

section Join
variable {p : Path} (hp : p.isAbsolute = false)
include hp

theorem isAbsolute_join_eq (base : Path) : (base.join p).isAbsolute = base.isAbsolute := by
  cases hb : base.isEmpty with
  | true => rw [isEmpty_iff.1 hb, join_empty_left, hp, isAbsolute]; rfl
  | false => exact (isAbsolute_join hb hp).2

theorem passed_join (base : Path) : (base.join p).passed = p.steps.foldl (climb base.isAbsolute) base.passed := by
  cases hb : base.isEmpty with
  | true =>
    rw [isEmpty_iff.1 hb, join_empty_left, passed_eq, hp]
    rfl
  | false =>
    rw [passed, isAbsolute_join_eq hp, segments_join hb hp, filterMap_pieces, List.foldl_append]
    rfl

theorem normalize_join (base : Path) : (base.join p).normalize =
    build (if base.isAbsolute then .root else .plain)
      ((p.steps.foldl (climb base.isAbsolute) base.passed).reverse.map segmentChars) := by
  rw [normalize_eq, isAbsolute_join_eq hp, passed_join hp]

end Join

/-- Every path has a normal form, absolute if the path is. A second time nothing changes, not even the spelling, and
only normal paths keep their segments. What is joined can be brought into normal form first, each part by itself. -/
theorem normalize_canonical (base p : Path) :
    p.normalize.IsNormal ∧ p.normalize.isAbsolute = p.isAbsolute ∧ p.normalize.normalize = p.normalize ∧
      (p.normalize.same p = true ↔ p.IsNormal) ∧
      (base.join p).normalize = (base.normalize.join p).normalize ∧
      (p.isAbsolute = false → (base.join p).normalize = (base.join p.normalize).normalize) := by
  refine ⟨p.isNormal_normalize, p.isAbsolute_normalize_eq, p.normalize_normalize, same_normalize_iff, ?_, fun hp => ?_⟩
  · cases hp : p.isAbsolute with
    | true => rw [join_absolute base hp, join_absolute base.normalize hp]
    | false => rw [normalize_join hp, normalize_join hp, passed_normalize, isAbsolute_normalize_eq]
  · have hn : p.normalize.isAbsolute = false := p.isAbsolute_normalize_eq.trans hp
    rw [normalize_join hp, normalize_join hn, p.view_normalize.2, passed_eq p, hp, foldl_climb_reduced]

theorem normalize_canonical_above :
    (Path.ofString "x/../../c").isAbsolute = false ∧ (Path.ofString "x/../../c").normalize = .ofString "../c" ∧
      ((Path.ofString "/a/./b").join (.ofString "x/../../c")).normalize = .ofString "/a/c" ∧
      ((Path.ofString "/a/./b").join (.ofString "x/../../c")).normalize =
        ((Path.ofString "/a/./b").join (Path.ofString "x/../../c").normalize).normalize := by
  have hp : (Path.ofString "x/../../c").isAbsolute = false := by decide
  obtain ⟨-, -, -, -, -, hjoin⟩ := normalize_canonical (.ofString "/a/./b") (.ofString "x/../../c")
  exact ⟨hp, by decide +kernel, by decide +kernel, hjoin hp⟩

/-! The texts by which paths are shown. Read as paths they lead back to where they come from: what is shown of a path
below a directory, from that directory on, and the key of a relative path by itself. -/

theorem view_dropSegments {front : List Segment} {ps rest : List (List Char)} (h : dropSegments front ps = some rest) :
    rest <:+ ps ∧ ps.filterMap segment? = front ++ rest.filterMap segment? := by
  induction ps generalizing front with
  | nil =>
    cases front with
    | nil =>
      cases h
      exact ⟨List.suffix_rfl, rfl⟩
    | cons s front => cases h
  | cons piece ps ih =>
    cases front with
    | nil =>
      cases h
      exact ⟨List.suffix_rfl, rfl⟩
    | cons s front =>
      cases hp : segment? piece with
      | none =>
        simp only [dropSegments, hp] at h
        obtain ⟨hrest, hsegments⟩ := ih h
        exact ⟨hrest.trans (List.suffix_cons _ _), by rw [List.filterMap_cons_none hp, hsegments]⟩
      | some found =>
        simp only [dropSegments, hp] at h
        split at h
        · next he =>
          obtain ⟨hrest, hsegments⟩ := ih h
          exact ⟨hrest.trans (List.suffix_cons _ _), by rw [List.filterMap_cons_some hp, hsegments, he]; rfl⟩
        · cases h

theorem steps_glue {ps : List (List Char)} (h : ∀ piece ∈ ps, '/' ∉ piece) :
    (Path.mk (glue ps)).steps = ps.filterMap segment? := by
  rw [← filterMap_pieces]
  by_cases hne : ps = []
  · subst hne
    rfl
  · rw [pieces_glue_of_no_slash hne h]

/-- What is left of a path behind the segments of another has the remaining ones. -/
theorem segments_of_stripPrefix? {p base rest : Path} (hne : base.segments ≠ [])
    (h : p.stripPrefix? base = some rest) : p.segments = base.segments ++ rest.steps := by
  unfold stripPrefix? at h
  rw [if_neg (by simpa using hne)] at h
  split at h
  · cases h
  · next hlead =>
    obtain ⟨left, hleft, rfl⟩ := Option.map_eq_some_iff.1 h
    obtain ⟨hsuffix, hsegments⟩ := view_dropSegments hleft
    have hslash : ∀ piece ∈ trimIdle (left.dropWhile isIdle), '/' ∉ piece := by
      intro piece hm
      exact no_slash_of_mem_body (hsuffix.subset ((List.dropWhile_suffix _).subset (mem_of_mem_trimIdle hm)))
    rw [steps_glue hslash, filterMap_trimIdle, filterMap_dropWhile_isIdle, segments, segments, hsegments,
      not_not.1 hlead, List.append_assoc]

theorem segments_join_displayRelative {p base : Path} (hp : p.isAbsolute = true) (hb : base.segments ≠ []) :
    (base.join (.ofString (p.displayRelative base))).segments = p.segments := by
  unfold displayRelative
  split
  · next rest hrest => rw [segments_join_key, segments_of_stripPrefix? hb hrest]
  · rw [Path.toString, Path.ofString, String.toList_ofList, join_absolute base hp]

theorem segments_ofString_key {r : Path} (ha : r.isAbsolute = false) (hdot : .here ∉ r.segments) :
    (Path.ofString r.key).segments = r.segments := by
  have hkey := segments_join_key ⟨[]⟩ r
  rw [join_empty_left] at hkey
  rw [hkey, segments_eq_steps r, lead_eq_plain ha hdot]
  rfl

/-- What is shown of an absolute path leads back to it from the directory it is seen from, whether it lies below that
directory or not. The key of a relative path leads where the path leads, so that two of them have the same key only if
they are the same path. -/
theorem shown_leads_back :
    (∀ p base : Path, p.isAbsolute = true → base.isAbsolute = true →
      (base.join (.ofString (p.displayRelative base))).same p = true) ∧
    (∀ r : Path, r.isAbsolute = false → .here ∉ r.segments → (Path.ofString r.key).segments = r.segments) ∧
    ∀ r s : Path, r.isAbsolute = false → .here ∉ r.segments → s.isAbsolute = false → .here ∉ s.segments →
      (r.key = s.key ↔ r.same s = true) := by
  refine ⟨fun p base hp hb => ?_, fun r => segments_ofString_key, fun r s hr hrdot hs hsdot => ?_⟩
  · have hbase : base.segments ≠ [] := by
      rw [segments_eq_steps, lead_eq_root_iff.2 hb]
      exact List.cons_ne_nil _ _
    exact same_iff.2 (segments_join_displayRelative hp hbase)
  · rw [same_iff]
    constructor
    · intro hkey
      rw [← segments_ofString_key hr hrdot, hkey, segments_ofString_key hs hsdot]
    · intro hsegments
      rw [key, key, hsegments]

theorem shown_leads_back_up :
    (Path.ofString "/a//../b/./c/").displayRelative (.ofString "/a/./..") = "b/c" ∧
      ((Path.ofString "/a/./..").join
        (.ofString ((Path.ofString "/a//../b/./c/").displayRelative (.ofString "/a/./..")))).same
          (.ofString "/a//../b/./c/") = true ∧
      (Path.ofString "../x//y/").key = "../x/y" ∧
      (Path.ofString (Path.ofString "../x//y/").key).segments = (Path.ofString "../x//y/").segments ∧
      ((Path.ofString "../x//y/").key = (Path.ofString "../x/y").key ↔
        (Path.ofString "../x//y/").same (.ofString "../x/y") = true) := by
  obtain ⟨hdisplayed, hkeyed, hsame⟩ := shown_leads_back
  exact ⟨by decide +kernel, hdisplayed _ _ (by decide) (by decide), by decide +kernel,
    hkeyed _ (by decide) (by decide +kernel),
    hsame _ _ (by decide) (by decide +kernel) (by decide) (by decide +kernel)⟩

end ComponentDocs.Path
