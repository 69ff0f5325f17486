import ComponentDocs.Proofs.Layout.FixedPoint
/-! Bullets with another mark than a hyphen, and what trimming and respelling makes of them. -/
namespace ComponentDocs.Text

/-- Blanks are dropped behind the last character that is not blank only. -/
theorem trimEnd_append (cs : List Char) {ds : List Char} (h : isBlank ds = false) :
    trimEnd (cs ++ ds) = cs ++ trimEnd ds := by
  induction cs with
  | nil => rfl
  | cons c cs ih =>
    have hne : cs ++ trimEnd ds ≠ [] := by
      intro hn
      rw [List.append_eq_nil_iff, trimEnd_eq_nil_iff, h] at hn
      exact absurd hn.2 Bool.false_ne_true
    rw [List.cons_append, trimEnd, ih]
    cases hx : cs ++ trimEnd ds with
    | nil => exact absurd hx hne
    | cons d rest => simp [hx]

theorem trimEnd_cons {c : Char} (cs : List Char) (h : isBlankChar c = false) :
    trimEnd (c :: cs) = c :: trimEnd cs := by
  rw [trimEnd]
  cases trimEnd cs <;> simp [h]

theorem trimEnd_trimEnd (cs : List Char) : trimEnd (trimEnd cs) = trimEnd cs := by
  induction cs with
  | nil => rfl
  | cons c cs ih =>
    rw [trimEnd]
    cases h : trimEnd cs with
    | nil => cases hc : isBlankChar c <;> simp [trimEnd, hc]
    | cons d ds =>
      rw [h] at ih
      simp only
      rw [trimEnd, ih]

theorem trimEnd_append_of_isBlank (cs : List Char) {ds : List Char} (h : isBlank ds = true) :
    trimEnd (cs ++ ds) = trimEnd cs := by
  induction cs with
  | nil => exact trimEnd_eq_nil_iff.2 h
  | cons c cs ih => rw [List.cons_append, trimEnd, trimEnd, ih]

end ComponentDocs.Text

namespace ComponentDocs.Layout
open Text

/-- A star or a plus after blanks at most, with a gap and some text after it. -/
def IsBullet (line : Line) : Prop :=
  ∃ before mark space c rest, line = before ++ mark :: (space ++ c :: rest) ∧ isBlank before = true ∧
    (mark = '*' ∨ mark = '+') ∧ space ≠ [] ∧ space.all isGap = true ∧ isBlankChar c = false

theorem isBlankChar_of_isGap {c : Char} (h : isGap c = true) : isBlankChar c = true := by
  simp only [isGap, Bool.or_eq_true, beq_iff_eq] at h
  rcases h with rfl | rfl <;> decide

theorem isBlankChar_mark {mark : Char} (h : mark = '*' ∨ mark = '+') : isBlankChar mark = false := by
  rcases h with rfl | rfl <;> decide

/-- The blanks before the mark of a bullet, and what comes after the mark. -/
theorem splitBullet?_eq_some_iff {line before after : Line} :
    splitBullet? line = some (before, after) ↔
      ∃ mark space c rest, line = before ++ mark :: after ∧ after = space ++ c :: rest ∧ isBlank before = true ∧
        (mark = '*' ∨ mark = '+') ∧ space ≠ [] ∧ space.all isGap = true ∧ isBlankChar c = false := by
  constructor
  · intro h
    have hw := List.takeWhile_append_dropWhile (p := isBlankChar) (l := line)
    have hb : isBlank (line.takeWhile isBlankChar) = true := List.all_takeWhile
    unfold splitBullet? at h
    split at h
    swap
    · cases h
    next mark after' hd =>
    split at h
    swap
    · cases h
    next hc =>
    simp only [Bool.and_eq_true, Bool.or_eq_true, beq_iff_eq] at hc
    obtain ⟨⟨hmark, hgap⟩, htext⟩ := hc
    cases h
    have hg := List.takeWhile_append_dropWhile (p := isGap) (l := after)
    cases hx : after.dropWhile isGap with
    | nil => simp [hx] at htext
    | cons c rest =>
      rw [hx] at hg htext
      have hc : isBlankChar c = false := by simpa using htext
      refine ⟨mark, after.takeWhile isGap, c, rest, by rw [← hd, hw], hg.symm, hb, hmark, fun hn => ?_,
        List.all_takeWhile, hc⟩
      rw [hn, List.nil_append] at hg
      rw [← hg] at hgap
      have hcg : isGap c = true := by simpa using hgap
      rw [isBlankChar_of_isGap hcg] at hc
      cases hc
  · rintro ⟨mark, space, c, rest, rfl, rfl, hb, hmark, hne, hg, hc⟩
    have hm := isBlankChar_mark hmark
    have hcg : isGap c = false := by
      by_contra h
      rw [isBlankChar_of_isGap (by simpa using h)] at hc
      cases hc
    have hbefore : ∀ d ∈ before, isBlankChar d = true := List.all_eq_true.1 hb
    have hspace : ∀ d ∈ space, isGap d = true := List.all_eq_true.1 hg
    have hd : (before ++ mark :: (space ++ c :: rest)).dropWhile isBlankChar = mark :: (space ++ c :: rest) := by
      rw [List.dropWhile_append_of_pos hbefore, List.dropWhile_cons, hm, if_neg Bool.false_ne_true]
    have ht : (before ++ mark :: (space ++ c :: rest)).takeWhile isBlankChar = before := by
      rw [List.takeWhile_append_of_pos hbefore, List.takeWhile_cons, hm, if_neg Bool.false_ne_true, List.append_nil]
    have hr : (space ++ c :: rest).dropWhile isGap = c :: rest := by
      rw [List.dropWhile_append_of_pos hspace, List.dropWhile_cons, hcg, if_neg Bool.false_ne_true]
    obtain ⟨g, gs, rfl⟩ := List.exists_cons_of_ne_nil hne
    have hhead : isGap g = true := hspace g (by simp)
    unfold splitBullet?
    rw [hd, ht]
    simp only [hr]
    rcases hmark with rfl | rfl <;> simp [hhead, hc]

theorem isSome_splitBullet?_iff (line : Line) : (splitBullet? line).isSome = true ↔ IsBullet line := by
  rw [Option.isSome_iff_exists]
  constructor
  · rintro ⟨⟨before, after⟩, hs⟩
    obtain ⟨mark, space, c, rest, rfl, rfl, h⟩ := splitBullet?_eq_some_iff.1 hs
    exact ⟨before, mark, space, c, rest, rfl, h⟩
  · rintro ⟨before, mark, space, c, rest, rfl, h⟩
    exact ⟨_, splitBullet?_eq_some_iff.2 ⟨mark, space, c, rest, rfl, rfl, h⟩⟩

instance (line : Line) : Decidable (IsBullet line) := decidable_of_iff _ (isSome_splitBullet?_iff line)

theorem splitBullet?_eq_none_iff (line : Line) : splitBullet? line = none ↔ ¬ IsBullet line := by
  rw [← isSome_splitBullet?_iff, Bool.not_eq_true, Option.isSome_eq_false_iff, Option.isNone_iff_eq_none]

theorem isBullet_trimLine_iff (keep : Bool) (line : Line) : IsBullet (trimLine keep line) ↔ IsBullet line := by
  constructor
  · rintro ⟨before, mark, space, c, rest, he, h⟩
    obtain ⟨tail, ht⟩ := trimLine_prefixOf keep line
    exact ⟨before, mark, space, c, rest ++ tail, by rw [← ht, he]; simp, h⟩
  · rintro ⟨before, mark, space, c, rest, rfl, hb, hmark, hne, hg, hc⟩
    have htext : isBlank (c :: rest) = false := by simp [isBlank, hc]
    have hend : trimEnd (before ++ mark :: (space ++ c :: rest)) =
        before ++ mark :: (space ++ c :: trimEnd rest) := by
      have h := trimEnd_append (before ++ mark :: space) htext
      rw [trimEnd_cons rest hc] at h
      simpa using h
    unfold trimLine
    rw [hend]
    split
    · exact ⟨before, mark, space, c, trimEnd rest ++ [' ', ' '], by simp, hb, hmark, hne, hg, hc⟩
    · exact ⟨before, mark, space, c, trimEnd rest, rfl, hb, hmark, hne, hg, hc⟩

/-- Trimming leaves no blanks at the end of a line, or two spaces that were there. -/
theorem trimLine_cases (keep : Bool) (line : Line) :
    trimLine keep line = trimEnd line ∨
      trimLine keep line = trimEnd line ++ [' ', ' '] ∧ trimLine keep line <+: line := by
  have hp := trimLine_prefixOf keep line
  unfold trimLine at hp ⊢
  split
  · next h =>
    rw [if_pos h] at hp
    exact .inr ⟨rfl, hp⟩
  · exact .inl rfl

theorem isBlank_of_trimLine_append {keep : Bool} {line tail : Line} (h : trimLine keep line ++ tail = line) :
    isBlank tail = true := by
  obtain ⟨more, hm⟩ : trimEnd line <+: trimLine keep line := by
    rcases trimLine_cases keep line with he | ⟨he, -⟩ <;> simp [he]
  have he : blankTail line = more ++ tail := by
    rw [← hm, List.append_assoc] at h
    exact List.append_cancel_left ((trimEnd_append_blankTail line).trans h.symm)
  have hb := isBlank_blankTail line
  rw [he, isBlank_append, Bool.and_eq_true] at hb
  exact hb.2

theorem isThematicBreak_trimLine (keep : Bool) (line : Line) :
    isThematicBreak (trimLine keep line) = isThematicBreak line := by
  obtain ⟨tail, ht⟩ := trimLine_prefixOf keep line
  have hb : ∀ c ∈ tail, isBlankChar c = true := List.all_eq_true.1 (isBlank_of_trimLine_append ht)
  have hmarks : line.filter (fun c => !isBlankChar c) = (trimLine keep line).filter fun c => !isBlankChar c := by
    have hnone : tail.filter (fun c => !isBlankChar c) = [] := by
      simpa [List.filter_eq_nil_iff] using hb
    conv_lhs => rw [← ht, List.filter_append, hnone, List.append_nil]
  unfold isThematicBreak
  rw [hmarks]

/-- A bullet that is no thematic break gets a hyphen for its mark, and any other line stays. -/
theorem spellBullet_cases (line : Line) :
    (IsBullet line ∧ isThematicBreak line = false ∧ ∃ before mark after, line = before ++ mark :: after ∧
      isBlank before = true ∧ (mark = '*' ∨ mark = '+') ∧ spellBullet line = before ++ '-' :: after) ∨
    (¬ (IsBullet line ∧ isThematicBreak line = false) ∧ spellBullet line = line) := by
  unfold spellBullet
  split
  · next h => exact .inr ⟨by simp [h], rfl⟩
  · next h =>
    rw [Bool.not_eq_true] at h
    split
    · next before after hs =>
      have hbullet : IsBullet line := (isSome_splitBullet?_iff line).1 (by simp [hs])
      obtain ⟨mark, -, -, -, he, -, hb, hmark, -⟩ := splitBullet?_eq_some_iff.1 hs
      exact .inl ⟨hbullet, h, before, mark, after, he, hb, hmark, rfl⟩
    · next hs => exact .inr ⟨fun hb => (splitBullet?_eq_none_iff line).1 hs hb.1, rfl⟩

theorem not_isBullet_hyphen {before : Line} (after : Line) (h : isBlank before = true) :
    ¬ IsBullet (before ++ '-' :: after) := by
  rw [← splitBullet?_eq_none_iff]
  have hd : (before ++ '-' :: after).dropWhile isBlankChar = '-' :: after := by
    rw [List.dropWhile_append_of_pos (List.all_eq_true.1 h), List.dropWhile_cons_of_neg (by decide)]
  unfold splitBullet?
  rw [hd]
  rfl

/-- No bullet is left but a thematic break. -/
theorem isThematicBreak_of_isBullet_spellBullet {line : Line} (h : IsBullet (spellBullet line)) :
    isThematicBreak (spellBullet line) = true := by
  rcases spellBullet_cases line with ⟨-, -, before, mark, after, -, hb, -, he⟩ | ⟨hn, he⟩
  · rw [he] at h
    exact absurd h (not_isBullet_hyphen after hb)
  · rw [he] at h ⊢
    simpa [h] using hn

theorem blankTail_spellBullet (line : Line) : blankTail (spellBullet line) = blankTail line := by
  rcases spellBullet_cases line with ⟨-, -, before, mark, after, rfl, -, hmark, he⟩ | ⟨-, he⟩
  · have hsame (c : Char) (hc : isBlankChar c = false) :
        trimEnd (before ++ c :: after) = before ++ c :: trimEnd after := by
      rw [trimEnd_append _ (by simp [isBlank, hc]), trimEnd_cons after hc]
    rw [he, blankTail, blankTail, hsame _ (by decide), hsame _ (isBlankChar_mark hmark)]
    simp only [List.length_append, List.length_cons, List.drop_append]
    simp
  · rw [he]

theorem blankTail_trimLine (keep : Bool) (line : Line) :
    blankTail (trimLine keep line) = [] ∨ blankTail (trimLine keep line) = [' ', ' '] := by
  rcases trimLine_cases keep line with he | ⟨he, -⟩
  · rw [he, blankTail, trimEnd_trimEnd, List.drop_length]
    exact .inl rfl
  · rw [he, blankTail, trimEnd_append_of_isBlank _ (by decide), trimEnd_trimEnd, List.drop_left]
    exact .inr rfl

/-! The texts that are in their canonical layout: what each line has to be, next to its neighbours. -/

/-- A line that is not protected may stand between two others in a canonical layout. -/
structure InPlace (before : Option MarkedLine) (line : Line) (after : Option MarkedLine) : Prop where
  blank : isBlank line = true → line = [] ∧ ∃ b ∈ before, isBlank b.1 = false
  heading : ∀ h, heading? line = some h →
    line = h ∧ (∀ b ∈ before, isBlank b.1 = true) ∧ ∀ a ∈ after, isBlank a.1 = true
  text : isBlank line = false → heading? line = none →
    EndsWell (keepsHardBreak after) line ∧ (IsBullet line → isThematicBreak line = true)

/-- A canonical layout that is not empty. What comes after the last line feed is no line. -/
structure IsCanonical (text : List Char) : Prop where
  no_return : ¬ ['\r', '\n'] <:+: text
  ends : ∃ front last, lines text = front ++ [last, []] ∧ isBlank last = false
  in_place : ∀ front line back, (markLines text).dropLast = front ++ (line, false) :: back →
    InPlace front.getLast? line back.head?

theorem inPlace_of_isBlank {line : Line} (before after : Option MarkedLine) (h : isBlank line = true) :
    InPlace before line after ↔ line = [] ∧ ∃ b ∈ before, isBlank b.1 = false := by
  refine ⟨fun hp => hp.blank h, fun hp => ⟨fun _ => hp, ?_, by simp [h]⟩⟩
  rw [hp.1]
  rintro _ ⟨⟩

theorem inPlace_of_heading? {line heading : Line} (before after : Option MarkedLine) (hb : isBlank line = false)
    (h : heading? line = some heading) : InPlace before line after ↔
      line = heading ∧ (∀ b ∈ before, isBlank b.1 = true) ∧ ∀ a ∈ after, isBlank a.1 = true := by
  refine ⟨fun hp => hp.heading heading h, fun hp => ⟨by simp [hb], ?_, by simp [h]⟩⟩
  rintro other ho
  cases h.symm.trans ho
  exact hp

theorem inPlace_of_text {line : Line} (before after : Option MarkedLine) (hb : isBlank line = false)
    (h : heading? line = none) : InPlace before line after ↔
      EndsWell (keepsHardBreak after) line ∧ (IsBullet line → isThematicBreak line = true) :=
  ⟨fun hp => hp.text hb h, fun hp => ⟨by simp [hb], by simp [h], fun _ _ => hp⟩⟩

/-- Tidy lines are those in place, where the line before tells whether text came last. -/
theorem tidy_iff_inPlace (line : Line) (before after : Option MarkedLine) :
    Tidy (before.any fun b => !isBlank b.1) (line, false) after ↔ InPlace before line after := by
  cases hb : isBlank line with
  | true =>
    rw [inPlace_of_isBlank _ _ hb, tidy_blank_iff _ _ hb, Option.any_eq_true]
    simp
  | false =>
    cases hh : heading? line with
    | some heading =>
      rw [inPlace_of_heading? _ _ hb hh]
      cases before <;> cases after <;> simp [Tidy, hb, hh, @eq_comm _ line]
    | none =>
      rw [inPlace_of_text _ _ hb hh, imp_iff_not_or]
      simp [Tidy, hb, hh, splitBullet?_eq_none_iff]

theorem tidyFrom_iff_along (ms : List MarkedLine) (before : Option MarkedLine) :
    TidyFrom (before.any fun b => !isBlank b.1) ms ↔
      Along (fun b m a => m.2 = false → InPlace b m.1 a) before ms := by
  induction ms generalizing before with
  | nil => exact Iff.rfl
  | cons m rest ih =>
    obtain ⟨line, mark⟩ := m
    refine and_congr ?_ (ih (some (line, mark)))
    cases mark with
    | true => simp [Tidy]
    | false => simp [tidy_iff_inPlace]

theorem isTidy_iff_inPlace (text : List Char) : IsTidy text ↔ ¬ ['\r', '\n'] <:+: text ∧
    ∀ front line back, (markLines text).dropLast = front ++ (line, false) :: back →
      InPlace front.getLast? line back.head? := by
  have h := (tidyFrom_iff_along (markLines text).dropLast none).trans (along_iff none _)
  refine and_congr_right fun _ => h.trans ?_
  constructor
  · intro hall front line back he
    simpa using hall front (line, false) back he rfl
  · rintro hall front ⟨line, mark⟩ back he hm
    obtain rfl : mark = false := hm
    simpa using hall front line back he

theorem areText_concat {text : List Char} {front : List Line} {last : Line}
    (h : lines text = front ++ [last, []]) (hl : isBlank last = false) :
    AreText (front ++ [last]) ∧ text = joinLines (front ++ [last]) ++ ['\n'] := by
  have hsplit : lines text = (front ++ [last]) ++ [[]] := by simp [h]
  have hn : ∀ l ∈ front ++ [last], '\n' ∉ l := fun l hm =>
    not_mem_of_mem_lines (hsplit ▸ List.mem_append_left _ hm)
  have hne : front ++ [last] ≠ [] := by simp
  refine ⟨⟨hne, hn, ?_⟩, ?_⟩
  · exact List.rdropWhile_eq_self_iff.2 fun _ => by simp [hl]
  · calc text = joinLines (lines text) := (joinLines_lines text).symm
      _ = joinLines (lines (joinLines (front ++ [last]) ++ ['\n'])) := by
        rw [lines_append_newline, lines_joinLines hne hn, hsplit]
      _ = _ := joinLines_lines _

theorem AreText.exists_concat {ls : List Line} (h : AreText ls) :
    ∃ front last, ls = front ++ [last] ∧ isBlank last = false := by
  refine ⟨ls.dropLast, ls.getLast h.ne_nil, (List.dropLast_append_getLast _).symm, ?_⟩
  simpa using List.rdropWhile_eq_self_iff.1 h.rdropWhile_eq h.ne_nil

/-- The texts that laying out does not change are the empty one and those in their canonical layout. -/
theorem canonicalize_eq_self_iff (text : String) :
    canonicalize text = text ↔ text = "" ∨ IsCanonical text.toList := by
  have hempty : text = "" ↔ text.toList = [] := by rw [← String.toList_inj]; rfl
  rw [hempty, ← String.toList_inj, canonicalize_toList]
  generalize text.toList = chars
  constructor
  · intro he
    rcases canonical_eq_nil_or chars with hnil | ⟨ls, hls, hcanonical⟩
    · exact .inl (he.symm.trans hnil)
    · right
      obtain rfl := he.symm.trans hcanonical
      obtain ⟨hreturn, hplace⟩ := (isTidy_iff_inPlace _).1 ((canonical_eq_self_iff hls).1 he)
      obtain ⟨front, last, hsplit, hlast⟩ := hls.exists_concat
      exact ⟨hreturn, ⟨front, last, by rw [hls.lines_eq, hsplit, List.append_assoc]; rfl, hlast⟩, hplace⟩
  · rintro (rfl | ⟨hreturn, ⟨front, last, hl, hlast⟩, hplace⟩)
    · rfl
    · obtain ⟨hls, rfl⟩ := areText_concat hl hlast
      exact (canonical_eq_self_iff hls).2 ((isTidy_iff_inPlace _).2 ⟨hreturn, hplace⟩)

end ComponentDocs.Layout
