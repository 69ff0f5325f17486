import ComponentDocs.Proofs.Path.Names
/-! Paths that are joined to others as they are written, whatever the spelling of the first. -/
namespace ComponentDocs.Path

theorem isEmpty_iff {p : Path} : p.isEmpty = true ↔ p = ⟨[]⟩ := by
  cases p
  simp [isEmpty]

theorem same_iff {p q : Path} : p.same q = true ↔ p.segments = q.segments := by simp [same]

theorem pieces_append (a b : List Char) : pieces (a ++ '/' :: b) = pieces a ++ pieces b := by
  induction a with
  | nil => exact pieces_slash b
  | cons c a ih =>
    by_cases hc : c = '/'
    · subst hc
      rw [List.cons_append, pieces_slash, pieces_slash, ih, List.cons_append]
    · obtain ⟨p, ps, hp⟩ := List.exists_cons_of_ne_nil (pieces_ne_nil a)
      simp [pieces, hc, ih, hp]

theorem eq_nil_of_pieces {cs : List Char} (h : pieces cs = [[]]) : cs = [] := by
  cases cs with
  | nil => rfl
  | cons c cs =>
    obtain ⟨p, ps, hp⟩ := List.exists_cons_of_ne_nil (pieces_ne_nil cs)
    by_cases hc : c = '/' <;> simp [pieces, hc, hp] at h

theorem exists_pieces_join {base : Path} (hb : base.isEmpty = false) :
    ∃ front, front ≠ [] ∧ (pieces base.chars = front ∨ pieces base.chars = front ++ [[]]) ∧
      ∀ p : Path, p.isAbsolute = false → pieces (base.join p).chars = front ++ pieces p.chars := by
  have hne : base.chars ≠ [] := by simpa [isEmpty] using hb
  obtain ⟨cs, c, he⟩ := (List.eq_nil_or_concat base.chars).resolve_left hne
  rw [List.concat_eq_append] at he
  by_cases hc : c = '/'
  · subst hc
    refine ⟨pieces cs, pieces_ne_nil cs, .inr (by rw [he, pieces_append]; rfl), fun p hp => ?_⟩
    simp [join, hp, he, pieces_append]
  · refine ⟨pieces base.chars, pieces_ne_nil _, .inl rfl, fun p hp => ?_⟩
    simp [join, hp, he, hc]
    rw [← pieces_append]
    simp

theorem lead_eq_of_pieces {p q : Path} {first : List Char} {ps qs : List (List Char)}
    (hp : pieces p.chars = first :: ps) (hq : pieces q.chars = first :: qs)
    (hps : first = [] → ps ≠ []) (hqs : first = [] → qs ≠ []) : p.lead = q.lead := by
  unfold lead
  rw [hp, hq]
  cases first with
  | nil =>
    obtain ⟨_, _, rfl⟩ := List.exists_cons_of_ne_nil (hps rfl)
    obtain ⟨_, _, rfl⟩ := List.exists_cons_of_ne_nil (hqs rfl)
    rfl
  | cons c cs =>
    by_cases h : c :: cs = ['.']
    · rw [h]
      rfl
    · split <;> split <;> simp_all

theorem isAbsolute_join {base : Path} (hb : base.isEmpty = false) {p : Path} (hp : p.isAbsolute = false) :
    (base.join p).isEmpty = false ∧ (base.join p).isAbsolute = base.isAbsolute := by
  obtain ⟨c, cs, hc⟩ := List.exists_cons_of_ne_nil (show base.chars ≠ [] by simpa [isEmpty] using hb)
  unfold join
  rw [hp, if_neg Bool.false_ne_true]
  split <;> simp [isEmpty, isAbsolute, hc]

theorem mem_join_iff {base p : Path} (hp : p.isAbsolute = false) {c : Char} (hc : c ≠ '/') :
    c ∈ (base.join p).chars ↔ c ∈ base.chars ∨ c ∈ p.chars := by
  unfold join
  rw [hp, if_neg Bool.false_ne_true]
  split <;> simp [hc]

theorem lead_join {base : Path} (hb : base.isEmpty = false) {p : Path} (hp : p.isAbsolute = false) :
    (base.join p).lead = base.lead := by
  obtain ⟨front, hne, hf, hj⟩ := exists_pieces_join hb
  obtain ⟨first, rest, rfl⟩ := List.exists_cons_of_ne_nil hne
  have hroot : pieces base.chars ≠ [[]] := fun h => by simp [isEmpty, eq_nil_of_pieces h] at hb
  rcases hf with hf | hf
  · refine lead_eq_of_pieces (hj p hp) hf (fun _ => by simp [pieces_ne_nil]) fun h₁ h₂ => ?_
    exact hroot (by rw [hf, h₁, h₂])
  · exact lead_eq_of_pieces (hj p hp) hf (fun _ => by simp [pieces_ne_nil]) fun _ => by simp

theorem body_join {base : Path} (hb : base.isEmpty = false) : ∃ front,
    (base.body = front ∨ base.body = front ++ [[]]) ∧
      ∀ p : Path, p.isAbsolute = false → (base.join p).body = front ++ pieces p.chars := by
  obtain ⟨front, hne, hf, hj⟩ := exists_pieces_join hb
  obtain ⟨first, rest, rfl⟩ := List.exists_cons_of_ne_nil hne
  refine ⟨if base.lead = .plain then first :: rest else rest, ?_, fun p hp => ?_⟩
  · unfold body
    rcases hf with hf | hf <;> rw [hf] <;> cases base.lead <;> simp
  · unfold body
    rw [lead_join hb hp, hj p hp]
    cases base.lead <;> simp

theorem ne_here_of_segment? {piece : List Char} {s : Segment} (h : segment? piece = some s) : s ≠ .here := by
  rintro rfl
  unfold segment? at h
  split at h <;> cases h

theorem lead_eq_root_iff {p : Path} : p.lead = .root ↔ p.isAbsolute = true := by
  obtain ⟨cs⟩ := p
  cases cs with
  | nil => simp [lead, pieces, isAbsolute]
  | cons c cs =>
    obtain ⟨first, rest, hp⟩ := List.exists_cons_of_ne_nil (pieces_ne_nil cs)
    by_cases hc : c = '/'
    · subst hc
      simp [lead, pieces_slash, hp, isAbsolute]
    · have hlead : (Path.mk (c :: cs)).lead ≠ .root := by
        simp only [lead, pieces, hc, hp, beq_iff_eq, if_false]
        split <;> simp_all
      simp [hlead, isAbsolute, hc]

theorem segments_relative {p : Path} (ha : p.isAbsolute = false) :
    ∃ front, (∀ s ∈ front, s = .here) ∧ p.segments = front ++ (pieces p.chars).filterMap segment? := by
  refine ⟨p.lead.segments, ?_, ?_⟩
  · have hroot : p.lead ≠ .root := by simp [lead_eq_root_iff, ha]
    cases hl : p.lead <;> simp_all [Lead.segments]
  · have hroot : p.lead ≠ .root := by simp [lead_eq_root_iff, ha]
    unfold segments body
    cases hl : p.lead with
    | root => contradiction
    | plain => rfl
    | here =>
      unfold lead at hl
      split at hl
      · cases hl
      · next rest hp => rw [hp]; rfl
      · cases hl

/-- A path that is joined to another adds its steps to those of the other. -/
theorem segments_join {base : Path} (hb : base.isEmpty = false) {p : Path} (hp : p.isAbsolute = false) :
    (base.join p).segments = base.segments ++ (pieces p.chars).filterMap segment? := by
  obtain ⟨front, hf, hj⟩ := body_join hb
  have hbody : base.body.filterMap segment? = front.filterMap segment? := by
    rcases hf with hf | hf <;> simp [hf, segment?]
  rw [segments, segments, lead_join hb hp, hj p hp, hbody, List.filterMap_append, List.append_assoc]

theorem segments_ne_nil {p : Path} (h : p.isEmpty = false) : p.segments ≠ [] := by
  unfold segments
  cases hl : p.lead with
  | root | here => simp [Lead.segments]
  | plain =>
    obtain ⟨first, rest, hp⟩ := List.exists_cons_of_ne_nil (pieces_ne_nil p.chars)
    have hs : (segment? first).isSome := by
      unfold lead at hl
      rw [hp] at hl
      unfold segment?
      split
      · cases rest with
        | nil => simp [isEmpty, eq_nil_of_pieces hp] at h
        | cons => simp at hl
      · simp at hl
      · rfl
      · rfl
    obtain ⟨s, hs⟩ := Option.isSome_iff_exists.1 hs
    simp [body, hl, hp, hs]

/-- Taking off the segments of some pieces leaves what comes after them, behind idle pieces at most. -/
theorem dropSegments_filterMap (ps rest : List (List Char)) :
    ∃ idle, (∀ i ∈ idle, isIdle i = true) ∧
      dropSegments (ps.filterMap segment?) (ps ++ rest) = some (idle ++ rest) := by
  induction ps with
  | nil => exact ⟨[], by simp, by cases rest <;> rfl⟩
  | cons p ps ih =>
    obtain ⟨idle, hi, h⟩ := ih
    cases hp : segment? p with
    | none =>
      have hidle : isIdle p = true := by simp [isIdle, hp]
      rw [List.filterMap_cons_none hp]
      cases hs : ps.filterMap segment? with
      | nil =>
        refine ⟨p :: idle, by simpa [hidle] using hi, ?_⟩
        rw [hs] at h
        have : ps ++ rest = idle ++ rest := by cases hps : ps ++ rest <;> simp_all [dropSegments]
        simp [dropSegments, this]
      | cons s segments =>
        refine ⟨idle, hi, ?_⟩
        rw [hs] at h
        simp only [List.cons_append, dropSegments, hp]
        exact h
    | some s =>
      refine ⟨idle, hi, ?_⟩
      rw [List.filterMap_cons_some hp]
      simp [dropSegments, hp, h]

theorem dropWhile_isIdle_pieces {names : List (List Char)} (h : AreNames names) :
    (pieces (ofNames names).chars).dropWhile isIdle = names := by
  by_cases hne : names = []
  · subst hne
    rfl
  · rw [pieces_ofNames hne h, h.dropWhile_isIdle]

theorem not_isAbsolute_ofNames {names : List (List Char)} (h : AreNames names) :
    (ofNames names).isAbsolute = false := by
  by_cases hne : names = []
  · subst hne
    rfl
  · exact isAbsolute_ofNames hne h

/-- A path of names that is joined to another is what is left when the other is taken off again. -/
theorem stripPrefix?_join (base : Path) {names : List (List Char)} (h : AreNames names) :
    (base.join (ofNames names)).stripPrefix? base = some (ofNames names) := by
  have ha := not_isAbsolute_ofNames h
  by_cases hb : base.isEmpty = true
  · obtain rfl := isEmpty_iff.1 hb
    have hs : (Path.mk []).segments.isEmpty = true := rfl
    rw [join_empty_left, stripPrefix?, hs, if_pos rfl]
    by_cases hne : names = []
    · subst hne
      rfl
    · rw [lead_ofNames hne h, tightBody, body_ofNames hne h, h.trimIdle]
      rfl
  · rw [Bool.not_eq_true] at hb
    have hs : base.segments.isEmpty = false := by simpa using segments_ne_nil hb
    obtain ⟨front, hf, hj⟩ := body_join hb
    have hseg : base.body.filterMap segment? = front.filterMap segment? := by
      rcases hf with hf | hf <;> simp [hf, segment?]
    obtain ⟨idle, hi, hd⟩ := dropSegments_filterMap front (pieces (ofNames names).chars)
    rw [stripPrefix?, hs, if_neg Bool.false_ne_true, lead_join hb ha, if_neg (by simp), hseg, hj _ ha, hd,
      Option.map_some, List.dropWhile_append_of_pos hi, dropWhile_isIdle_pieces h, h.trimIdle]
    rfl

/-- What some names lead to from the directory `root`. -/
def below (root : Path) (names : List (List Char)) : Path :=
  if names.isEmpty then root else root.join (ofNames names)

@[simp] theorem below_nil (root : Path) : root.below [] = root := rfl

theorem below_of_ne_nil (root : Path) {names : List (List Char)} (h : names ≠ []) :
    root.below names = root.join (ofNames names) := by
  simp [below, h]

theorem getLast?_join (base : Path) {p : Path} (hp : p.isAbsolute = false) {c : Char}
    (hc : p.chars.getLast? = some c) : (base.join p).chars.getLast? = some c := by
  unfold join
  rw [hp, if_neg Bool.false_ne_true]
  split <;> simp [List.getLast?_cons, hc]

theorem join_of_getLast? {base p : Path} (hp : p.isAbsolute = false) {c : Char}
    (hc : base.chars.getLast? = some c) (hs : c ≠ '/') : base.join p = ⟨base.chars ++ '/' :: p.chars⟩ := by
  simp [join, hp, hc, hs]

theorem below_append (root : Path) {front rest : List (List Char)} (hf : AreNames front) (hr : AreNames rest) :
    root.below (front ++ rest) = (root.below front).below rest := by
  by_cases hf' : front = []
  · simp [hf']
  by_cases hr' : rest = []
  · simp [hr']
  have hne : front ++ rest ≠ [] := by simp [hf']
  obtain ⟨c, hc, hs⟩ := getLast?_glue hf' hf
  have hlast := getLast?_join root (isAbsolute_ofNames hf' hf) hc
  rw [below_of_ne_nil _ hne, below_of_ne_nil _ hf', below_of_ne_nil _ hr',
    join_of_getLast? (isAbsolute_ofNames hr' hr) hlast hs]
  unfold join
  rw [isAbsolute_ofNames hf' hf, isAbsolute_ofNames hne (hf.append hr)]
  simp only [Bool.false_eq_true, if_false, ofNames, glue_append hf' hr']
  split <;> simp

/-! The path above a path. It stands for the segments but the last. -/

theorem trimIdle_prefixOf (ps : List (List Char)) : trimIdle ps <+: ps := by
  have h := List.reverse_prefix.2 (List.dropWhile_suffix isIdle (l := ps.reverse))
  rwa [List.reverse_reverse] at h

theorem filterMap_dropWhile_isIdle (ps : List (List Char)) :
    (ps.dropWhile isIdle).filterMap segment? = ps.filterMap segment? := by
  induction ps with
  | nil => rfl
  | cons p ps ih =>
    cases hp : segment? p with
    | none => simp [isIdle, hp, ih]
    | some s => simp [isIdle, hp]

theorem filterMap_trimIdle (ps : List (List Char)) :
    (trimIdle ps).filterMap segment? = ps.filterMap segment? := by
  rw [trimIdle, List.filterMap_reverse, filterMap_dropWhile_isIdle, ← List.filterMap_reverse, List.reverse_reverse]

theorem segments_eq_tightBody (p : Path) : p.segments = p.lead.segments ++ p.tightBody.filterMap segment? := by
  rw [segments, tightBody, filterMap_trimIdle]

/-- A path that is built from pieces stands for their segments. The first piece of a relative path is not one
that would make another beginning of it. -/
theorem segments_build (l : Lead) {ps : List (List Char)} (hslash : ∀ p ∈ ps, '/' ∉ p)
    (hfirst : l = .plain → ∀ first ∈ ps.head?, first ≠ [] ∧ first ≠ ['.']) :
    (build l ps).segments = l.segments ++ ps.filterMap segment? := by
  by_cases hne : ps = []
  · subst hne
    cases l <;> decide
  have hpieces := pieces_glue_of_no_slash hne hslash
  obtain ⟨first, rest, rfl⟩ := List.exists_cons_of_ne_nil hne
  cases l with
  | plain =>
    have hlead : (build .plain (first :: rest)).lead = .plain := by
      obtain ⟨hnil, hdot⟩ := hfirst rfl first rfl
      rw [lead, build, hpieces]
      split <;> simp_all
    rw [segments, body, hlead, build, hpieces]
  | root =>
    have hlead : (build .root (first :: rest)).lead = .root := lead_eq_root_iff.2 rfl
    rw [segments, body, hlead, build, pieces_slash, hpieces]
    rfl
  | here =>
    have hdot : pieces (build .here (first :: rest)).chars = ['.'] :: first :: rest :=
      (pieces_append_slash (n := ['.']) (by decide) _).trans (congrArg _ hpieces)
    have hlead : (build .here (first :: rest)).lead = .here := by
      rw [lead, hdot]
      split <;> simp_all
    rw [segments, body, hlead, hdot]
    rfl

theorem no_slash_of_mem_tightBody {p : Path} {n : List Char} (h : n ∈ p.tightBody) : '/' ∉ n :=
  no_slash_of_mem_body ((trimIdle_prefixOf _).subset h)

theorem head_tightBody {p : Path} (hl : p.lead = .plain) {first : List Char} (h : first ∈ p.tightBody.head?) :
    first ≠ [] ∧ first ≠ ['.'] := by
  have hbody : p.body = pieces p.chars := by rw [body, hl]
  obtain ⟨piece, rest, hp⟩ := List.exists_cons_of_ne_nil (pieces_ne_nil p.chars)
  have hfirst : first = piece := by
    obtain ⟨more, hmore⟩ := trimIdle_prefixOf p.body
    obtain ⟨tail, htail⟩ := List.head?_eq_some_iff.1 h
    rw [← tightBody, htail, hbody, hp] at hmore
    exact (List.cons.inj hmore).1
  subst hfirst
  refine ⟨?_, ?_⟩
  · rintro rfl
    have hrest : rest = [] := by
      unfold lead at hl
      rw [hp] at hl
      cases rest with
      | nil => rfl
      | cons => cases hl
    rw [tightBody, hbody, hp, hrest] at h
    cases h
  · rintro rfl
    unfold lead at hl
    rw [hp] at hl
    cases hl

theorem segments_parent? {p parent : Path} (h : p.parent? = some parent) : parent.segments <+: p.segments := by
  unfold parent? at h
  split at h
  · split at h
    · cases h
      exact List.nil_prefix
    · cases h
  · cases h
    have hfront : trimIdle p.tightBody.dropLast <+: p.tightBody :=
      (trimIdle_prefixOf _).trans (List.dropLast_prefix _)
    have hslash : ∀ piece ∈ trimIdle p.tightBody.dropLast, '/' ∉ piece := fun piece hm =>
      no_slash_of_mem_tightBody (hfront.subset hm)
    have hhead (first : List Char) (hf : first ∈ (trimIdle p.tightBody.dropLast).head?) :
        first ∈ p.tightBody.head? := by
      obtain ⟨more, hmore⟩ := hfront
      rw [← hmore, List.head?_append_of_ne_nil _ (by rintro he; simp [he] at hf)]
      exact hf
    rw [segments_build _ hslash fun hl first hf => head_tightBody hl (hhead first hf),
      filterMap_trimIdle, segments_eq_tightBody]
    exact List.prefix_append_right_inj _ |>.2 ((List.dropLast_prefix _).filterMap _)

theorem isAbsolute_parent? {p parent : Path} (ha : p.isAbsolute = true) (h : p.parent? = some parent) :
    parent.isAbsolute = true := by
  unfold parent? at h
  rw [lead_eq_root_iff.2 ha] at h
  split at h
  · cases h
  · cases h
    rfl

/-! Paths that mean the same wherever they are taken from: those from the root, and the empty one, which leads
nowhere. -/

def IsAnchored (p : Path) : Prop := p.isAbsolute = true ∨ p.isEmpty = true

theorem IsAnchored.of_isAbsolute {p : Path} (h : p.isAbsolute = true) : p.IsAnchored := .inl h

theorem isAbsolute_join_left {base : Path} (hb : base.isAbsolute = true) (p : Path) :
    (base.join p).isAbsolute = true := by
  cases hp : p.isAbsolute with
  | true => rwa [join_absolute base hp]
  | false =>
    have hne : base.isEmpty = false := by
      obtain ⟨chars⟩ := base
      cases chars with
      | nil => cases hb
      | cons c cs => rfl
    rw [(isAbsolute_join hne hp).2, hb]

theorem isAbsolute_withExtension {p : Path} (hp : p.isAbsolute = true) (extension : String) :
    (p.withExtension extension).isAbsolute = true := by
  unfold withExtension
  split
  · exact hp
  · rw [lead_eq_root_iff.2 hp]
    rfl

theorem isAbsolute_normalize {p : Path} (hp : p.isAbsolute = true) : p.normalize.isAbsolute = true := by
  simp only [normalize, hp, if_true]
  rfl

theorem IsAnchored.parent? {p parent : Path} (hp : p.IsAnchored) (h : p.parent? = some parent) :
    parent.IsAnchored := by
  rcases hp with hp | hp
  · exact .of_isAbsolute (isAbsolute_parent? hp h)
  · rw [isEmpty_iff.1 hp] at h
    cases h

end ComponentDocs.Path
