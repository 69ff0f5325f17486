import ComponentDocs.Proofs.Path.Join
/-! Normal paths: some steps up, at the front of a relative path only, and then names. -/
namespace ComponentDocs.Path

theorem IsName.isDown {n : List Char} (h : IsName n) : IsDown (.name n) := ⟨n, h, rfl⟩

/-- A segment that is a piece of its own wherever it stands. -/
def IsStep (s : Segment) : Prop := s = .up ∨ IsDown s

theorem IsStep.piece {s : Segment} (h : IsStep s) : segment? (segmentChars s) = some s ∧ '/' ∉ segmentChars s := by
  rcases h with rfl | ⟨n, hn, rfl⟩
  · exact ⟨rfl, by decide⟩
  · exact ⟨hn.segment?, hn.no_slash⟩

section Steps
variable {steps : List Segment} (h : ∀ s ∈ steps, IsStep s)
include h

theorem pieces_glue_steps (hne : steps ≠ []) : pieces (glue (steps.map segmentChars)) = steps.map segmentChars :=
  pieces_glue_of_no_slash (by simpa using hne) fun p hp => by
    obtain ⟨s, hs, rfl⟩ := List.mem_map.1 hp
    exact (h s hs).piece.2

theorem trimIdle_steps : trimIdle (steps.map segmentChars) = steps.map segmentChars := by
  have hidle (s : Segment) (hs : s ∈ steps) : isIdle (segmentChars s) = false := by
    simp [isIdle, (h s hs).piece.1]
  unfold trimIdle
  obtain rfl | ⟨front, s, rfl⟩ := List.eq_nil_or_concat steps
  · rfl
  · simp [hidle s (by simp)]

theorem filterMap_steps : (steps.map segmentChars).filterMap segment? = steps := by
  induction steps with
  | nil => rfl
  | cons s rest ih =>
    rw [List.map_cons, List.filterMap_cons_some (h s (by simp)).piece.1, ih fun x hx => h x (by simp [hx])]

theorem lead_build_plain : (build .plain (steps.map segmentChars)).lead = .plain := by
  cases steps with
  | nil => rfl
  | cons s rest =>
    have hs := (h s (by simp)).piece.1
    unfold lead
    rw [build, pieces_glue_steps h (by simp), List.map_cons]
    split
    · next he => simp_all [segment?]
    · next he => simp_all [segment?]
    · rfl

theorem view_build (l : Lead) (hl : l ≠ .here) :
    (build l (steps.map segmentChars)).lead = l ∧
      (build l (steps.map segmentChars)).tightBody = steps.map segmentChars ∧
      (build l (steps.map segmentChars)).segments = l.segments ++ steps := by
  have hbody (ps : List (List Char)) (hps : ps = if steps = [] then [[]] else steps.map segmentChars) :
      trimIdle ps = steps.map segmentChars ∧ ps.filterMap segment? = steps := by
    subst hps
    split
    · next he =>
      subst he
      exact ⟨rfl, rfl⟩
    · exact ⟨trimIdle_steps h, filterMap_steps h⟩
  have hpieces : pieces (glue (steps.map segmentChars)) = if steps = [] then [[]] else steps.map segmentChars := by
    split
    · next he => rw [he]; rfl
    · next he => exact pieces_glue_steps h he
  have hlead : (build l (steps.map segmentChars)).lead = l := by
    cases l with
    | plain => exact lead_build_plain h
    | root =>
      obtain ⟨p, ps, hp⟩ := List.exists_cons_of_ne_nil (pieces_ne_nil (glue (steps.map segmentChars)))
      simp [lead, build, pieces_slash, hp]
    | here => contradiction
  have hb : (build l (steps.map segmentChars)).body = if steps = [] then [[]] else steps.map segmentChars := by
    rw [← hpieces, body, hlead]
    cases l with
    | plain => rfl
    | root => simp [build, pieces_slash]
    | here => contradiction
  obtain ⟨ht, hf⟩ := hbody _ hb
  exact ⟨hlead, ht, by rw [segments, hlead, hf]⟩

end Steps

/-- Steps up, and then names. -/
def upDown (k : Nat) (names : List (List Char)) : List Segment := List.replicate k .up ++ names.map .name

theorem upDown_append (k : Nat) (front back : List (List Char)) :
    upDown k (front ++ back) = upDown k front ++ back.map .name := by
  simp [upDown]

theorem isStep_of_mem_upDown {k : Nat} {names : List (List Char)} (h : AreNames names) :
    ∀ s ∈ upDown k names, IsStep s := by
  intro s hs
  rcases List.mem_append.1 hs with hs | hs
  · exact .inl (List.eq_of_mem_replicate hs)
  · obtain ⟨n, hn, rfl⟩ := List.mem_map.1 hs
    exact .inr (h n hn).isDown

theorem climb_name (absolute : Bool) (k : Nat) (names : List (List Char)) (n : List Char) :
    climb absolute (upDown k names).reverse (.name n) = (upDown k (names ++ [n])).reverse := by
  simp [climb, upDown_append]

theorem climb_up_of_name (absolute : Bool) (k : Nat) (names : List (List Char)) (n : List Char) :
    climb absolute (upDown k (names ++ [n])).reverse .up = (upDown k names).reverse := by
  simp [climb, upDown_append]

theorem climb_up (k : Nat) : climb false (upDown k []).reverse .up = (upDown (k + 1) []).reverse := by
  simp only [upDown, List.map_nil, List.append_nil, List.reverse_replicate]
  cases k <;> rfl

/-- What is passed on the way is always some steps up and then names. -/
theorem exists_foldl_climb (absolute : Bool) {segments : List Segment}
    (hs : ∀ n, .name n ∈ segments → IsDown (.name n)) {k : Nat} {names : List (List Char)} (h : AreNames names)
    (hk : absolute = true → k = 0) :
    ∃ k' names', AreNames names' ∧ (absolute = true → k' = 0) ∧
      segments.foldl (climb absolute) (upDown k names).reverse = (upDown k' names').reverse := by
  induction segments generalizing k names with
  | nil => exact ⟨k, names, h, hk, rfl⟩
  | cons s rest ih =>
    have hrest : ∀ n, .name n ∈ rest → IsDown (.name n) := fun n hn => hs n (by simp [hn])
    rw [List.foldl_cons]
    cases s with
    | root | here => exact ih hrest h hk
    | name n =>
      obtain ⟨m, hm, he⟩ := hs n (by simp)
      cases he
      rw [climb_name]
      exact ih hrest (h.append hm.areNames) hk
    | up =>
      obtain rfl | ⟨front, n, rfl⟩ := List.eq_nil_or_concat names
      · cases absolute with
        | true =>
          obtain rfl := hk rfl
          exact ih hrest h hk
        | false =>
          rw [climb_up]
          exact ih hrest h (by simp)
      · rw [List.concat_eq_append] at h ⊢
        rw [climb_up_of_name]
        exact ih hrest h.left hk

theorem foldl_climb_upDown (absolute : Bool) {k : Nat} (hk : absolute = true → k = 0) (names : List (List Char)) :
    (upDown k names).foldl (climb absolute) [] = (upDown k names).reverse := by
  induction names using List.reverseRecOn with
  | append_singleton names n ih =>
    rw [← climb_name absolute, upDown_append, List.foldl_append, ih]
    rfl
  | nil =>
    cases absolute with
    | true =>
      obtain rfl := hk rfl
      rfl
    | false =>
      clear hk
      induction k with
      | zero => rfl
      | succ k ih =>
        have hsucc : upDown (k + 1) [] = upDown k [] ++ [.up] := by simp [upDown, List.replicate_succ']
        rw [← climb_up, hsucc, List.foldl_append, ih]
        rfl

/-- The path of some steps up and then names. -/
def normalPath (absolute : Bool) (k : Nat) (names : List (List Char)) : Path :=
  build (if absolute then .root else .plain) ((upDown k names).map segmentChars)

theorem normalPath_path (l : Location) : normalPath true 0 l = l.path := by
  have hs : segmentChars ∘ Segment.name = id := rfl
  simp [normalPath, upDown, build, Location.path, hs]

/-- What a path passes on its way and does not step up from again, the latest first. -/
def passed (p : Path) : List Segment := p.segments.foldl (climb p.isAbsolute) []

theorem exists_passed (p : Path) : ∃ k names, AreNames names ∧ (p.isAbsolute = true → k = 0) ∧
    p.passed = (upDown k names).reverse :=
  exists_foldl_climb p.isAbsolute (fun _ => isDown_of_mem_segments) areNames_nil fun _ => rfl

theorem exists_normalize (p : Path) : ∃ k names, AreNames names ∧ (p.isAbsolute = true → k = 0) ∧
    p.normalize = normalPath p.isAbsolute k names := by
  obtain ⟨k, names, h, hk, he⟩ := p.exists_passed
  refine ⟨k, names, h, hk, ?_⟩
  rw [passed] at he
  simp only [normalize, normalPath, he, List.reverse_reverse]

theorem exists_place {p : Path} (ha : p.isAbsolute = true) (hn : p.normalize = p) :
    ∃ l, AreNames l ∧ p = Location.path l := by
  obtain ⟨k, names, h, hk, he⟩ := exists_normalize p
  obtain rfl := hk ha
  rw [ha, hn, normalPath_path] at he
  exact ⟨names, h, he⟩

section Normal
variable {absolute : Bool} {k : Nat} {names : List (List Char)} (h : AreNames names)
include h

theorem view_normalPath (absolute : Bool) (k : Nat) :
    let p := normalPath absolute k names
    let lead : Lead := if absolute then .root else .plain
    p.lead = lead ∧ p.tightBody = (upDown k names).map segmentChars ∧ p.segments = lead.segments ++ upDown k names :=
  view_build (isStep_of_mem_upDown h) _ (by cases absolute <;> simp)

theorem isAbsolute_normalPath (absolute : Bool) (k : Nat) : (normalPath absolute k names).isAbsolute = absolute := by
  rw [Bool.eq_iff_iff, ← lead_eq_root_iff, (view_normalPath h absolute k).1]
  cases absolute <;> decide

theorem normalize_normalPath (hk : absolute = true → k = 0) :
    (normalPath absolute k names).normalize = normalPath absolute k names := by
  have hf : (normalPath absolute k names).segments.foldl (climb absolute) [] = (upDown k names).reverse := by
    obtain ⟨-, -, hs⟩ := view_normalPath h absolute k
    rw [hs, List.foldl_append, ← foldl_climb_upDown absolute hk names]
    cases absolute <;> rfl
  unfold normalize
  rw [isAbsolute_normalPath h, hf, List.reverse_reverse]
  rfl

end Normal

theorem normalize_normalize (p : Path) : p.normalize.normalize = p.normalize := by
  obtain ⟨k, names, h, hk, he⟩ := exists_normalize p
  rw [he, normalize_normalPath h hk]

theorem normalize_withExtension {p : Path} (hp : p.normalize = p) {extension : String}
    (hne : extension.toList ≠ []) (hs : '/' ∉ extension.toList) :
    (p.withExtension extension).normalize = p.withExtension extension := by
  obtain ⟨k, names, h, hk, he⟩ := exists_normalize p
  rw [hp] at he
  rw [he]
  obtain ⟨hlead, hbody, -⟩ := view_normalPath h p.isAbsolute k
  obtain rfl | ⟨front, n, rfl⟩ := List.eq_nil_or_concat names
  · have hno : (normalPath p.isAbsolute k []).fileName? = none := by
      rw [fileName?, hbody]
      cases k <;> simp [upDown, List.replicate_succ', segmentChars]
    rw [withExtension, fileStem?, hno]
    exact normalize_normalPath h hk
  · rw [List.concat_eq_append] at h hbody hlead ⊢
    have hn := h n (by simp)
    have hsplit : (upDown k (front ++ [n])).map segmentChars = (upDown k front).map segmentChars ++ [n] := by
      simp [upDown_append, segmentChars]
    have hnew : (normalPath p.isAbsolute k (front ++ [n])).withExtension extension =
        normalPath p.isAbsolute k (front ++ [retitle extension n]) := by
      rw [withExtension_of_tightBody hn (hbody.trans hsplit), hlead, normalPath, upDown_append]
      simp [segmentChars]
    rw [hnew]
    exact normalize_normalPath (h.left.append (hn.retitle hne hs).areNames) hk

end ComponentDocs.Path

namespace ComponentDocs.Location
open ComponentDocs.Path

theorem normalize_path {l : Location} (h : AreNames l) : l.path.normalize = l.path := by
  rw [← normalPath_path, normalize_normalPath h fun _ => rfl]

end ComponentDocs.Location

/-! Paths below others, by segments, and absolute paths without steps up, which stay as they are when they are
brought into normal form. -/
namespace ComponentDocs.Path

/-- The names and steps up that a path goes after its beginning. -/
def steps (p : Path) : List Segment := p.body.filterMap segment?

theorem segments_eq_steps (p : Path) : p.segments = p.lead.segments ++ p.steps := rfl

theorem isStep_of_mem_steps {p : Path} {s : Segment} (h : s ∈ p.steps) : IsStep s := by
  cases s with
  | up => exact .inl rfl
  | name n => exact .inr (isDown_of_mem_segments (List.mem_append_right _ h))
  | root | here =>
    obtain ⟨piece, -, hp⟩ := List.mem_filterMap.1 h
    unfold segment? at hp
    split at hp <;> cases hp

theorem key_eq_steps (p : Path) : p.key = String.ofList (glue (p.steps.map segmentChars)) := by
  rw [key, segments_eq_steps, List.filterMap_append, ← List.nil_append (p.steps.map segmentChars)]
  congr 3
  · cases p.lead <;> rfl
  · rw [← List.filterMap_eq_map]
    apply List.filterMap_congr
    intro s hs
    obtain rfl | ⟨n, -, rfl⟩ := isStep_of_mem_steps hs <;> rfl

theorem segments_join_steps (base : Path) {steps : List Segment} (h : ∀ s ∈ steps, IsStep s) :
    (base.join ⟨glue (steps.map segmentChars)⟩).segments = base.segments ++ steps := by
  obtain ⟨hlead, -, hsegments⟩ := view_build h .plain (by decide)
  cases hb : base.isEmpty with
  | true =>
    rw [isEmpty_iff.1 hb, join_empty_left]
    exact hsegments
  | false =>
    have ha : (Path.mk (glue (steps.map segmentChars))).isAbsolute = false := by
      rw [← Bool.not_eq_true, ← lead_eq_root_iff]
      exact fun hroot => Lead.noConfusion (hlead.symm.trans hroot)
    rw [segments_join hb ha]
    by_cases hne : steps = []
    · subst hne
      rfl
    · rw [pieces_glue_steps h hne, filterMap_steps h]

theorem segments_join_key (base q : Path) : (base.join (.ofString q.key)).segments = base.segments ++ q.steps := by
  rw [key_eq_steps, Path.ofString, String.toList_ofList]
  exact segments_join_steps base fun _ => isStep_of_mem_steps

/-- How a path begins, by its first segment. -/
def Lead.ofFirst : Option Segment → Lead
  | some .root => .root
  | some .here => .here
  | _ => .plain

theorem lead_eq_ofFirst (p : Path) : p.lead = .ofFirst p.segments.head? := by
  rw [segments_eq_steps]
  cases p.lead with
  | root | here => rfl
  | plain =>
    rw [Lead.segments, List.nil_append]
    cases hs : p.steps.head? with
    | none => rfl
    | some first => obtain rfl | ⟨n, -, rfl⟩ := isStep_of_mem_steps (List.mem_of_head? hs) <;> rfl

theorem lead_eq_plain {p : Path} (ha : p.isAbsolute = false) (hdot : .here ∉ p.segments) : p.lead = .plain := by
  cases hl : p.lead with
  | plain => rfl
  | root => exact absurd (lead_eq_root_iff.1 hl) (by simp [ha])
  | here => exact absurd (segments_eq_steps p ▸ hl ▸ List.mem_cons_self) hdot

theorem lead_eq_of_prefixOf {p base : Path} (hne : base.segments ≠ []) (h : base.segments <+: p.segments) :
    base.lead = p.lead := by
  obtain ⟨rest, hp⟩ := h
  rw [lead_eq_ofFirst, lead_eq_ofFirst, ← hp, List.head?_append_of_ne_nil _ hne]

/-- Segments can be taken off pieces if those of the pieces begin with them. -/
theorem isSome_dropSegments_iff (front : List Segment) (ps : List (List Char)) :
    (dropSegments front ps).isSome = true ↔ front <+: ps.filterMap segment? := by
  induction ps generalizing front with
  | nil => cases front <;> simp [dropSegments]
  | cons piece ps ih =>
    cases front with
    | nil => simp [dropSegments]
    | cons s front =>
      cases hp : segment? piece with
      | none => simp only [dropSegments, hp, ih, List.filterMap_cons_none hp]
      | some found =>
        rw [List.filterMap_cons_some hp, List.cons_prefix_cons]
        simp only [dropSegments, hp]
        split
        · next he => simp [he, ih]
        · next he => simp [he]

/-- One path lies below another if its segments begin with those of the other. -/
theorem startsWith_iff {p base : Path} : p.startsWith base = true ↔ base.segments <+: p.segments := by
  unfold startsWith stripPrefix?
  by_cases hempty : base.segments = []
  · simp [hempty]
  rw [if_neg (by simpa using hempty)]
  by_cases hlead : base.lead = p.lead
  · rw [if_neg (not_not.2 hlead), Option.isSome_map, isSome_dropSegments_iff, segments, segments, hlead,
      List.prefix_append_right_inj]
  · rw [if_pos hlead]
    exact iff_of_false (by simp) fun h => hlead (lead_eq_of_prefixOf hempty h)

theorem exists_names_of_isDown {steps : List Segment} (h : ∀ s ∈ steps, IsDown s) :
    ∃ l, AreNames l ∧ steps = l.map .name := by
  induction steps with
  | nil => exact ⟨[], areNames_nil, rfl⟩
  | cons s steps ih =>
    obtain ⟨⟨n, hn, rfl⟩, hsteps⟩ := List.forall_mem_cons.1 h
    obtain ⟨l, hl, rfl⟩ := ih hsteps
    exact ⟨n :: l, hn.areNames.append hl, rfl⟩

theorem normalize_congr {p q : Path} (ha : p.isAbsolute = q.isAbsolute) (hs : p.segments = q.segments) :
    p.normalize = q.normalize := by
  rw [normalize, normalize, ha, hs]

section Absolute
variable {p : Path} (ha : p.isAbsolute = true)
include ha

theorem exists_names_of_not_up (hup : .up ∉ p.segments) : ∃ l, AreNames l ∧ p.segments = .root :: l.map .name := by
  have hsegments : p.segments = .root :: p.steps := by
    rw [segments_eq_steps, lead_eq_root_iff.2 ha]
    rfl
  have hdown : ∀ s ∈ p.steps, IsDown s := by
    intro s hs
    apply (isStep_of_mem_steps hs).resolve_left
    rintro rfl
    exact hup (hsegments ▸ List.mem_cons_of_mem _ hs)
  obtain ⟨l, hl, hsteps⟩ := exists_names_of_isDown hdown
  exact ⟨l, hl, hsteps ▸ hsegments⟩

theorem segments_normalize (hup : .up ∉ p.segments) : p.normalize.segments = p.segments := by
  obtain ⟨l, hl, hs⟩ := exists_names_of_not_up ha hup
  rw [normalize_congr (ha.trans (Location.isAbsolute_path l).symm) (hs.trans (Location.segments_path hl).symm),
    Location.normalize_path hl, Location.segments_path hl, hs]

theorem up_notMem_normalize : .up ∉ p.normalize.segments := by
  obtain ⟨k, names, h, hk, he⟩ := exists_normalize p
  obtain rfl := hk ha
  rw [he, ha, normalPath_path, Location.segments_path h]
  simp

end Absolute

theorem IsAnchored.segments_normalize {p : Path} (hp : p.IsAnchored) (hup : .up ∉ p.segments) :
    p.normalize.segments = p.segments := by
  obtain habs | hempty := hp
  · exact Path.segments_normalize habs hup
  · rw [isEmpty_iff.1 hempty]
    rfl

/-! A path with another extension. Its segments are the same but for the last one, if that is a name. -/

theorem not_isIdle_of_tightBody {p : Path} {front : List (List Char)} {n : List Char}
    (h : p.tightBody = front ++ [n]) : isIdle n = false := by
  have hdrop : p.body.reverse.dropWhile isIdle = n :: front.reverse := by
    rw [← List.reverse_inj, ← trimIdle, ← tightBody, h]
    simp
  have hhead := List.head?_dropWhile_not isIdle p.body.reverse
  rw [hdrop] at hhead
  simpa using hhead

/-- What a path is called by its last segment, if it is called anything. -/
theorem exists_tightBody_of_segments {p : Path} {s : List Segment} {n : List Char}
    (h : p.segments = s ++ [.name n]) :
    ∃ front, p.tightBody = front ++ [n] ∧ IsName n ∧ s = p.lead.segments ++ front.filterMap segment? := by
  rw [segments_eq_tightBody] at h
  obtain hnil | ⟨front, last, hlast⟩ := List.eq_nil_or_concat p.tightBody
  · rw [hnil, List.filterMap_nil, List.append_nil] at h
    have hlead := congrArg List.getLast? h
    cases hl : p.lead <;> simp [hl, Lead.segments] at hlead
  · rw [List.concat_eq_append] at hlast
    obtain ⟨x, hx⟩ := Option.isSome_iff_exists.1 (Option.isNone_eq_false_iff.1 (not_isIdle_of_tightBody hlast))
    have hslash : '/' ∉ last := no_slash_of_mem_tightBody (p := p) (by simp [hlast])
    rw [hlast, List.filterMap_append, ← List.append_assoc] at h
    simp only [List.filterMap_cons, List.filterMap_nil, hx] at h
    obtain ⟨rfl, he⟩ := List.append_inj' h rfl
    cases he
    obtain ⟨m, hm, he⟩ := isDown_of_segment? hslash hx
    cases he
    obtain rfl : last = n := by
      unfold segment? at hx
      split at hx <;> simp_all
    exact ⟨front, hlast, hm, rfl⟩

variable {p : Path} {extension : String}

theorem segments_withExtension (hne : extension.toList ≠ []) (hs : '/' ∉ extension.toList) {s : List Segment}
    {n : List Char} (h : p.segments = s ++ [.name n]) :
    (p.withExtension extension).segments = s ++ [.name (retitle extension n)] := by
  obtain ⟨front, hbody, hn, rfl⟩ := exists_tightBody_of_segments h
  have hnew := hn.retitle hne hs
  rw [withExtension_of_tightBody hn hbody, segments_build, List.filterMap_append, List.append_assoc]
  · simp [hnew.segment?]
  · intro piece hm
    rcases List.mem_append.1 hm with hm | hm
    · exact no_slash_of_mem_tightBody (hbody ▸ List.mem_append_left _ hm)
    · exact List.mem_singleton.1 hm ▸ hnew.no_slash
  · intro hl first hf
    cases front with
    | nil =>
      obtain rfl : retitle extension n = first := by simpa using hf
      exact ⟨hnew.ne_nil, hnew.ne_here⟩
    | cons piece rest =>
      obtain rfl : piece = first := by simpa using hf
      exact head_tightBody hl (by simp [hbody])

theorem withExtension_of_not_name (h : ∀ s n, p.segments ≠ s ++ [.name n]) : p.withExtension extension = p := by
  have hno : p.fileName? = none := by
    unfold fileName?
    obtain hnil | ⟨front, last, hlast⟩ := List.eq_nil_or_concat p.tightBody
    · rw [hnil]
      rfl
    · rw [List.concat_eq_append] at hlast
      have hidle := not_isIdle_of_tightBody hlast
      have hname : segment? last ≠ some (.name last) := by
        intro hx
        refine h (p.lead.segments ++ front.filterMap segment?) last ?_
        rw [segments_eq_tightBody, hlast, List.filterMap_append, List.append_assoc]
        simp [hx]
      have hup : last = ['.', '.'] := by
        unfold isIdle at hidle
        unfold segment? at hidle hname
        split at hname <;> simp_all
      simp [hlast, hup]
  rw [withExtension, fileStem?, hno]
  rfl

theorem length_segments_withExtension (hne : extension.toList ≠ []) (hs : '/' ∉ extension.toList) :
    (p.withExtension extension).segments.length = p.segments.length := by
  by_cases h : ∃ s n, p.segments = s ++ [.name n]
  · obtain ⟨s, n, h⟩ := h
    simp [segments_withExtension hne hs h, h]
  · push Not at h
    rw [withExtension_of_not_name h]

theorem prefix_segments_withExtension (hne : extension.toList ≠ []) (hs : '/' ∉ extension.toList)
    {front rest : List Segment} (h : p.segments = front ++ rest) (hrest : rest ≠ []) :
    front <+: (p.withExtension extension).segments := by
  by_cases hname : ∃ s n, p.segments = s ++ [.name n]
  · obtain ⟨s, n, hn⟩ := hname
    obtain ⟨more, last, rfl⟩ := (List.eq_nil_or_concat' rest).resolve_left hrest
    rw [h, ← List.append_assoc] at hn
    obtain ⟨rfl, rfl⟩ := List.append_singleton_inj.1 hn
    rw [segments_withExtension hne hs (h.trans (List.append_assoc ..).symm), List.append_assoc]
    exact List.prefix_append _ _
  · push Not at hname
    rw [withExtension_of_not_name hname, h]
    exact List.prefix_append _ _

theorem segments_join_ofNames (base : Path) {names : List (List Char)} (h : AreNames names) :
    (base.join (ofNames names)).segments = base.segments ++ names.map .name := by
  have hsteps : ∀ s ∈ names.map Segment.name, IsStep s := by
    intro s hs
    obtain ⟨n, hn, rfl⟩ := List.mem_map.1 hs
    exact .inr (h n hn).isDown
  have hpath : ofNames names = ⟨glue ((names.map Segment.name).map segmentChars)⟩ := by
    rw [List.map_map]
    exact congrArg (fun ns => Path.mk (glue ns)) (List.map_id names).symm
  rw [hpath, segments_join_steps base hsteps]

end ComponentDocs.Path
