import ComponentDocs.Proofs.Layout.Titles
/-! Thematic breaks. One that goes in comes out with its marks. A bullet before hyphens and nothing else becomes one
when it gets a hyphen for its mark, and no other line does. -/
namespace ComponentDocs.Layout
open Text

/-- The characters of a line that are not blank. -/
def marks (line : Line) : Line := line.filter fun c => !isBlankChar c

/-- A bullet with two hyphens or more for its text. -/
def IsHyphenBullet (line : Line) : Prop := IsBullet line ∧ ∃ mark n, marks line = mark :: List.replicate (n + 2) '-'

theorem marks_append (as bs : Line) : marks (as ++ bs) = marks as ++ marks bs := List.filter_append ..

theorem marks_cons {c : Char} (cs : Line) (h : isBlankChar c = false) : marks (c :: cs) = c :: marks cs := by
  simp [marks, h]

theorem marks_of_isBlank {line : Line} (h : isBlank line = true) : marks line = [] := by
  simpa [marks, isBlank, List.filter_eq_nil_iff] using h

theorem marks_trimLine (keep : Bool) (line : Line) : marks (trimLine keep line) = marks line := by
  obtain ⟨tail, ht⟩ := trimLine_prefixOf keep line
  conv_rhs => rw [← ht, marks_append, marks_of_isBlank (isBlank_of_trimLine_append ht), List.append_nil]

theorem isThematicBreak_iff (line : Line) : isThematicBreak line = true ↔
    ∃ n mark, (mark = '*' ∨ mark = '-' ∨ mark = '_') ∧ marks line = List.replicate (n + 3) mark := by
  have hmarks : isThematicBreak line = true ↔ 3 ≤ (marks line).length ∧
      ∃ mark rest, marks line = mark :: rest ∧ (mark = '*' ∨ mark = '-' ∨ mark = '_') ∧ ∀ c ∈ rest, c = mark := by
    unfold isThematicBreak
    rw [Bool.and_eq_true, decide_eq_true_eq]
    change 3 ≤ (marks line).length ∧ _ ↔ _
    refine and_congr_right fun _ => ?_
    change (match marks line with | _ :: _ => _ | [] => _) = true ↔ _
    cases marks line with
    | nil => simp
    | cons mark rest => simp [or_assoc]
  rw [hmarks]
  constructor
  · rintro ⟨hlength, mark, rest, he, hmark, hrest⟩
    rw [he] at hlength
    refine ⟨rest.length - 2, mark, hmark, ?_⟩
    rw [he, List.eq_replicate_iff]
    exact ⟨by simp only [List.length_cons] at hlength ⊢; omega, List.forall_mem_cons.2 ⟨rfl, hrest⟩⟩
  · rintro ⟨n, mark, hmark, he⟩
    refine ⟨by simp [he], mark, List.replicate (n + 2) mark, by rw [he]; rfl, hmark, fun c hc => ?_⟩
    exact List.eq_of_mem_replicate hc

theorem isThematicBreak_congr {as bs : Line} (h : marks as = marks bs) : isThematicBreak as = isThematicBreak bs := by
  rw [Bool.eq_iff_iff, isThematicBreak_iff, isThematicBreak_iff, h]

theorem isThematicBreak_of_isBlank {line : Line} (h : isBlank line = true) : isThematicBreak line = false := by
  rw [isThematicBreak_congr (show marks line = marks [] from marks_of_isBlank h)]
  rfl

theorem isThematicBreak_hyphen_iff {before : Line} (after : Line) (h : isBlank before = true) :
    isThematicBreak (before ++ '-' :: after) = true ↔ ∃ n, marks after = List.replicate (n + 2) '-' := by
  have hmarks : marks (before ++ '-' :: after) = '-' :: marks after := by
    rw [marks_append, marks_of_isBlank h, List.nil_append, marks_cons after (by decide)]
  rw [isThematicBreak_iff, hmarks]
  constructor
  · rintro ⟨n, mark, -, he⟩
    obtain ⟨rfl, he⟩ := List.cons.inj he
    exact ⟨n, he⟩
  · rintro ⟨n, he⟩
    exact ⟨n, '-', .inr (.inl rfl), by rw [he]; rfl⟩

theorem marks_of_splitBullet? {line before after : Line} (h : splitBullet? line = some (before, after)) :
    ∃ mark, marks line = mark :: marks after := by
  obtain ⟨mark, -, -, -, rfl, -, hb, hmark, -⟩ := splitBullet?_eq_some_iff.1 h
  exact ⟨mark, by rw [marks_append, marks_of_isBlank hb, List.nil_append, marks_cons after (isBlankChar_mark hmark)]⟩

/-- Respelling makes a thematic break of a bullet before hyphens, and of no other line that is none. -/
theorem isThematicBreak_spellBullet_iff (line : Line) :
    isThematicBreak (spellBullet line) = true ↔ isThematicBreak line = true ∨ IsHyphenBullet line := by
  unfold spellBullet
  split
  · next h => simp [h]
  · next h =>
    rw [or_iff_right h, IsHyphenBullet, ← isSome_splitBullet?_iff]
    cases hs : splitBullet? line with
    | none => simpa using h
    | some parts =>
      obtain ⟨before, after⟩ := parts
      obtain ⟨-, -, -, -, -, -, hb, -⟩ := splitBullet?_eq_some_iff.1 hs
      obtain ⟨mark, hmarks⟩ := marks_of_splitBullet? hs
      simp [isThematicBreak_hyphen_iff after hb, hmarks]

theorem isHyphenBullet_trimLine_iff (keep : Bool) (line : Line) :
    IsHyphenBullet (trimLine keep line) ↔ IsHyphenBullet line := by
  rw [IsHyphenBullet, IsHyphenBullet, isBullet_trimLine_iff, marks_trimLine]

theorem marks_spellBullet {line : Line} (h : isThematicBreak line = true) : marks (spellBullet line) = marks line := by
  rw [spellBullet, if_pos h]

/-- A line that starts with a number sign is neither a thematic break nor a bullet. -/
theorem not_isThematicBreak_sign (rest : Line) :
    isThematicBreak ('#' :: rest) = false ∧ ¬ IsHyphenBullet ('#' :: rest) := by
  constructor
  · rw [← Bool.not_eq_true, isThematicBreak_iff, marks_cons rest (by decide)]
    rintro ⟨n, mark, hmark, he⟩
    obtain ⟨rfl, -⟩ := List.cons.inj he
    exact absurd hmark (by decide)
  · rintro ⟨⟨before, mark, space, c, text, he, hb, hmark, -⟩, -⟩
    cases before with
    | nil =>
      obtain ⟨rfl, -⟩ := List.cons.inj he
      exact absurd hmark (by decide)
    | cons d before =>
      obtain ⟨rfl, -⟩ := List.cons.inj he
      exact absurd (List.all_eq_true.1 hb '#' (by simp)) (by decide)

theorem exists_sign_of_heading? {line heading : Line} (h : heading? line = some heading) :
    (∃ rest, line = '#' :: rest) ∧ ∃ rest, heading = '#' :: rest := by
  obtain ⟨level, text, hopens, rfl⟩ := heading?_eq_some_iff.1 h
  have hsign (after : List Char) : ∃ rest, List.replicate level '#' ++ after = '#' :: rest := by
    obtain ⟨n, rfl⟩ := Nat.exists_eq_add_of_le' hopens.level_pos
    exact ⟨List.replicate n '#' ++ after, rfl⟩
  exact ⟨hopens.line_eq ▸ hsign text, hsign _⟩

theorem isThematicBreak_image_iff (line : Line) (next : Option MarkedLine) :
    isThematicBreak (image (line, false) next) = true ↔ isThematicBreak line = true ∨ IsHyphenBullet line := by
  cases hh : heading? line with
  | some heading =>
    have himage : image (line, false) next = heading := by simp [image, hh]
    obtain ⟨⟨rest, rfl⟩, ⟨rest', rfl⟩⟩ := exists_sign_of_heading? hh
    obtain ⟨hbreak, hbullet⟩ := not_isThematicBreak_sign rest
    simp [himage, hbreak, hbullet, (not_isThematicBreak_sign rest').1]
  | none =>
    have himage : image (line, false) next = spellBullet (trimLine (keepsHardBreak next) line) := by simp [image, hh]
    rw [himage, isThematicBreak_spellBullet_iff, isHyphenBullet_trimLine_iff,
      isThematicBreak_congr (marks_trimLine _ line)]

theorem marks_image {line : Line} (next : Option MarkedLine) (h : isThematicBreak line = true) :
    marks (image (line, false) next) = marks line := by
  cases hh : heading? line with
  | some heading =>
    obtain ⟨⟨rest, rfl⟩, -⟩ := exists_sign_of_heading? hh
    rw [(not_isThematicBreak_sign rest).1] at h
    cases h
  | none =>
    have hbreak : isThematicBreak (trimLine (keepsHardBreak next) line) = true := by
      rwa [isThematicBreak_congr (marks_trimLine _ line)]
    rw [image, hh, Option.getD_none, if_neg Bool.false_ne_true, marks_spellBullet hbreak, marks_trimLine]

/-- Laying out a line puts down a thematic break exactly if it is one or a bullet before hyphens, and the marks of
one that goes in come out. -/
theorem place_isThematicBreak (s : Sheet) (line : Line) (next : Option MarkedLine) :
    ∃ added, (place s (line, false) next).lines = added ++ s.lines ∧
      ((∃ l ∈ added, isThematicBreak l = true) ↔ isThematicBreak line = true ∨ IsHyphenBullet line) ∧
      (isThematicBreak line = true → ∃ l ∈ added, isThematicBreak l = true ∧ marks l = marks line) := by
  obtain ⟨added, hlines, hadded⟩ := exists_lines_place s line next
  have hfilled (h : isThematicBreak line = true ∨ IsHyphenBullet line) : isBlank line = false := by
    refine Bool.eq_false_iff.2 fun hb => ?_
    rcases h with h | ⟨-, mark, n, he⟩
    · rw [isThematicBreak_of_isBlank hb] at h
      cases h
    · rw [marks_of_isBlank hb] at he
      cases he
  refine ⟨added, hlines, ?_, fun h => ?_⟩
  · rw [hadded (isThematicBreak · = true) (by decide), isThematicBreak_image_iff]
    exact ⟨And.right, fun h => ⟨hfilled h, h⟩⟩
  · refine (hadded _ (by simp [isThematicBreak])).2 ⟨hfilled (.inl h), ?_, marks_image next h⟩
    exact (isThematicBreak_image_iff line next).2 (.inl h)

/-- Three lists of one item inside each other come to be a thematic break. -/
theorem canonicalize_makes_break : isThematicBreak "* - -".toList = false ∧
    canonicalize "* - -" = "- - -\n" ∧ isThematicBreak "- - -".toList = true := by
  decide +kernel

end ComponentDocs.Layout
