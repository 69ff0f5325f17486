import ComponentDocs.Layout.Canonical
import Mathlib.Tactic
/-! How one line is spelled: what the trimming of a line, the spelling of its bullet and the
spelling of a heading leave alone, and that none of them makes a line longer. -/
namespace ComponentDocs.Text

theorem isBlank_append (cs ds : List Char) : isBlank (cs ++ ds) = (isBlank cs && isBlank ds) :=
  List.all_append

theorem trimEnd_prefixOf (cs : List Char) : trimEnd cs <+: cs :=
  ⟨blankTail cs, trimEnd_append_blankTail cs⟩

theorem isBlank_blankTail (cs : List Char) : isBlank (blankTail cs) = true := by
  induction cs with
  | nil => rfl
  | cons c cs ih =>
    unfold blankTail at ih ⊢
    cases h : trimEnd cs with
    | nil =>
      have hb := trimEnd_eq_nil_iff.1 h
      by_cases hc : isBlankChar c <;> simp_all [trimEnd, isBlank]
    | cons d ds => simpa [trimEnd, h] using ih

theorem isBlank_trimEnd (cs : List Char) : isBlank (trimEnd cs) = isBlank cs := by
  conv_rhs => rw [← trimEnd_append_blankTail cs]
  simp [isBlank_append, isBlank_blankTail]

theorem length_trimEnd_le (cs : List Char) : (trimEnd cs).length ≤ cs.length :=
  (trimEnd_prefixOf cs).length_le

theorem length_trimStart_le (cs : List Char) : (trimStart cs).length ≤ cs.length :=
  (List.dropWhile_suffix _).length_le

theorem length_trim_le (cs : List Char) : (trim cs).length ≤ cs.length :=
  (length_trimEnd_le _).trans (length_trimStart_le cs)

end ComponentDocs.Text

namespace ComponentDocs.Layout
open Text

/-- A line ends without blanks, or with the two spaces of a hard break that counts. -/
def EndsWell (keep : Bool) (line : Line) : Prop :=
  blankTail line = [] ∨ keep = true ∧ blankTail line = [' ', ' ']

theorem trimLine_prefixOf (keep : Bool) (line : Line) : trimLine keep line <+: line := by
  unfold trimLine
  split
  · next h =>
    simp only [Bool.and_eq_true, List.isPrefixOf_iff_prefix] at h
    obtain ⟨rest, hr⟩ := h.1.2
    exact ⟨rest, by rw [List.append_assoc, hr, trimEnd_append_blankTail]⟩
  · exact trimEnd_prefixOf line

theorem isBlank_trimLine (keep : Bool) (line : Line) : isBlank (trimLine keep line) = isBlank line := by
  unfold trimLine
  split
  · rw [isBlank_append, isBlank_trimEnd, show isBlank [' ', ' '] = true by decide, Bool.and_true]
  · exact isBlank_trimEnd line

theorem trimLine_eq_self_iff (keep : Bool) (line : Line) :
    trimLine keep line = line ↔ EndsWell keep line := by
  have split' := trimEnd_append_blankTail line
  unfold trimLine EndsWell
  split
  · next h =>
    simp only [Bool.and_eq_true, List.isPrefixOf_iff_prefix] at h
    obtain ⟨⟨hk, hp⟩, -⟩ := h
    constructor
    · intro he
      exact .inr ⟨hk, (List.append_cancel_left (split'.trans he.symm))⟩
    · rintro (ht | ⟨-, ht⟩)
      · simp [ht] at hp
      · rw [← ht, split']
  · next h =>
    constructor
    · intro he
      exact .inl (List.append_cancel_left (by rw [split', List.append_nil, he]))
    · rintro (ht | ⟨hk, ht⟩)
      · rw [ht, List.append_nil] at split'
        exact split'
      · have hl : line.getLast? = some ' ' := by rw [← split', ht]; simp
        simp [hk, ht, hl] at h

theorem splitBullet?_eq_some {line before after : Line} (h : splitBullet? line = some (before, after)) :
    ∃ mark, (mark = '*' ∨ mark = '+') ∧ line = before ++ mark :: after := by
  unfold splitBullet? at h
  have hw := List.takeWhile_append_dropWhile (p := isBlankChar) (l := line)
  split at h
  · next mark rest hd =>
    split at h
    · next hc =>
      simp only [Bool.and_eq_true, Bool.or_eq_true, beq_iff_eq] at hc
      simp only [Option.some.injEq, Prod.mk.injEq] at h
      refine ⟨mark, hc.1.1, ?_⟩
      rw [← h.1, ← h.2, ← hd, hw]
    · cases h
  · cases h

theorem length_spellBullet (line : Line) : (spellBullet line).length = line.length := by
  unfold spellBullet
  split
  · rfl
  · split
    · next hs =>
      obtain ⟨mark, -, rfl⟩ := splitBullet?_eq_some hs
      simp
    · rfl

theorem isBlank_spellBullet (line : Line) : isBlank (spellBullet line) = isBlank line := by
  unfold spellBullet
  split
  · rfl
  · split
    · next hs =>
      obtain ⟨mark, hm, rfl⟩ := splitBullet?_eq_some hs
      have hb : isBlankChar mark = false := by rcases hm with rfl | rfl <;> decide
      simp [isBlank, hb, show isBlankChar '-' = false by decide]
    · rfl

theorem spellBullet_eq_self_iff (line : Line) :
    spellBullet line = line ↔ splitBullet? line = none ∨ isThematicBreak line = true := by
  unfold spellBullet
  split
  · next h => simp [h]
  · next h =>
    cases hs : splitBullet? line with
    | none => simp
    | some parts =>
      obtain ⟨before, after⟩ := parts
      obtain ⟨mark, hm, he⟩ := splitBullet?_eq_some hs
      have hne : '-' ≠ mark := by rcases hm with rfl | rfl <;> decide
      have hl : before ++ '-' :: after ≠ line := by simp [he, hne]
      simp [h, hl]

/-- Text is left alone by the layout if and only if it ends well and is no bullet to respell. -/
theorem spellBullet_trimLine_eq_self_iff (keep : Bool) (line : Line) :
    spellBullet (trimLine keep line) = line ↔
      EndsWell keep line ∧ (splitBullet? line = none ∨ isThematicBreak line = true) := by
  rw [← trimLine_eq_self_iff, ← spellBullet_eq_self_iff]
  constructor
  · intro h
    have hl : (trimLine keep line).length = line.length := by
      rw [← length_spellBullet, h]
    have ht := (trimLine_prefixOf keep line).eq_of_length hl
    exact ⟨ht, by rwa [ht] at h⟩
  · rintro ⟨ht, hs⟩
    rw [ht, hs]

theorem length_headingTitle_le (text : List Char) : (headingTitle text).length ≤ (trim text).length := by
  have ho : ((trim text).reverse.dropWhile (· == '#')).length ≤ (trim text).length := by
    simpa using (List.dropWhile_suffix (p := (· == '#')) (l := (trim text).reverse)).length_le
  unfold headingTitle
  dsimp only
  split
  · exact (length_trimEnd_le _).trans (by simpa using ho)
  · exact le_rfl

theorem length_heading?_le {line heading : Line} (h : heading? line = some heading) :
    heading.length ≤ line.length := by
  unfold heading? at h
  dsimp only at h
  split at h
  · next hc =>
    simp only [Option.some.injEq] at h
    subst h
    have hw : (line.takeWhile (· == '#')).length ≤ line.length :=
      (List.takeWhile_prefix _).length_le
    set level := (line.takeWhile (· == '#')).length
    have ht := length_headingTitle_le (line.drop level)
    have hd : (line.drop level).length = line.length - level := List.length_drop
    unfold spellHeading
    split
    · simpa using hw
    · next hne =>
      have hlt : (trim (line.drop level)).length < (line.drop level).length := by
        cases hx : line.drop level with
        | nil => simp [hx, headingTitle, trim, trimStart, trimEnd] at hne
        | cons b rest =>
          have hb : isBlankChar b = true := by simp [hx] at hc; exact hc.2
          have := length_trim_le rest
          simp only [trim, trimStart, List.dropWhile_cons, hb, if_true, List.length_cons] at this ⊢
          omega
      simp only [List.length_append, List.length_replicate, List.length_cons]
      omega
  · cases h

theorem isBlank_heading? {line heading : Line} (h : heading? line = some heading) :
    isBlank heading = false := by
  unfold heading? at h
  dsimp only at h
  split at h
  · next hc =>
    simp only [Bool.and_eq_true, decide_eq_true_eq] at hc
    simp only [Option.some.injEq] at h
    subst h
    cases hl : (line.takeWhile (· == '#')).length with
    | zero => omega
    | succ n => simp [spellHeading, isBlank, List.replicate_succ, show isBlankChar '#' = false by decide]
  · cases h

/-! What the layout leaves of a list of lines, as a function of the lines: a copy of each protected
line, one image of each other line with text, and the blank lines between them. -/

def isHeading (line : MarkedLine) : Bool := !line.2 && (heading? line.1).isSome

/-- What a line with text is laid out as before `next`. -/
def image (line : MarkedLine) (next : Option MarkedLine) : Line :=
  if line.2 then line.1
  else (heading? line.1).getD (spellBullet (trimLine (keepsHardBreak next) line.1))

/-- The blank line that separates what follows, if text came last. -/
def gap (afterText : Bool) : List MarkedLine := if afterText then [([], false)] else []

/-- The lines that are laid out for some lines. Copies of protected lines keep their mark.
`afterText` tells that a line with text came last, `due` that it was a heading. -/
def laid (afterText due : Bool) : List MarkedLine → List MarkedLine
  | [] => []
  | line :: rest =>
    if isBlank line.1 then (if line.2 then [line] else gap afterText) ++ laid false due rest
    else
      (if due || isHeading line then gap afterText else []) ++
        (image line rest.head?, line.2) :: laid true (isHeading line) rest

theorem laid_blank {line : MarkedLine} (rest : List MarkedLine) (afterText due : Bool)
    (h : isBlank line.1 = true) :
    laid afterText due (line :: rest) =
      (if line.2 then [line] else gap afterText) ++ laid false due rest := by
  simp [laid, h]

theorem laid_text {line : MarkedLine} (rest : List MarkedLine) (afterText due : Bool)
    (h : isBlank line.1 = false) :
    laid afterText due (line :: rest) =
      (if due || isHeading line then gap afterText else []) ++
        (image line rest.head?, line.2) :: laid true (isHeading line) rest := by
  simp [laid, h]

theorem isBlank_image {line : MarkedLine} (next : Option MarkedLine) (h : isBlank line.1 = false) :
    isBlank (image line next) = false := by
  unfold image
  split
  · exact h
  · cases hh : heading? line.1 with
    | some heading => exact isBlank_heading? hh
    | none => rwa [Option.getD_none, isBlank_spellBullet, isBlank_trimLine]

theorem length_image_le (line : MarkedLine) (next : Option MarkedLine) :
    (image line next).length ≤ line.1.length := by
  unfold image
  split
  · exact le_rfl
  · cases hh : heading? line.1 with
    | some heading => exact length_heading?_le hh
    | none =>
      rw [Option.getD_none, length_spellBullet]
      exact (trimLine_prefixOf _ _).length_le

namespace Sheet

def afterText (s : Sheet) : Bool := s.lines.head?.any fun l => !isBlank l

theorem separate_lines (s : Sheet) : s.separate.lines = (gap s.afterText).map Prod.fst ++ s.lines := by
  unfold separate afterText gap
  cases h : s.lines with
  | nil => simp [h]
  | cons last rest => cases hb : isBlank last <;> simp [hb, h]

theorem separate_due (s : Sheet) : s.separate.due = s.due := by
  unfold separate
  split
  · rfl
  · split <;> rfl

theorem afterText_separate (s : Sheet) : s.separate.afterText = false := by
  unfold separate afterText
  cases h : s.lines with
  | nil => simp [h]
  | cons last rest => cases hb : isBlank last <;> simp [hb, h, show isBlank [] = true from rfl]

theorem settle_lines (s : Sheet) :
    s.settle.lines = (if s.due then gap s.afterText else []).map Prod.fst ++ s.lines := by
  unfold settle
  cases s.due <;> simp [separate_lines]

theorem settle_due (s : Sheet) : s.settle.due = false := by
  unfold settle
  cases h : s.due <;> simp [h]

theorem add_lines (s : Sheet) (line : Line) : (s.add line).lines = line :: s.lines := rfl

theorem afterText_add (s : Sheet) (line : Line) : (s.add line).afterText = !isBlank line := rfl

end Sheet

theorem place_protected (s : Sheet) (line : Line) (next : Option MarkedLine) :
    place s (line, true) next = (if isBlank line then s else s.settle).add line := rfl

theorem place_blank (s : Sheet) {line : Line} (next : Option MarkedLine) (h : isBlank line = true) :
    place s (line, false) next = s.separate := by
  simp [place, h]

theorem place_heading (s : Sheet) {line heading : Line} (next : Option MarkedLine)
    (hb : isBlank line = false) (h : heading? line = some heading) :
    place s (line, false) next = { s.separate.add heading with due := true } := by
  simp [place, hb, h]

theorem place_text (s : Sheet) {line : Line} (next : Option MarkedLine)
    (hb : isBlank line = false) (h : heading? line = none) :
    place s (line, false) next =
      s.settle.add (spellBullet (trimLine (keepsHardBreak next) line)) := by
  simp [place, hb, h]

theorem exists_lines_place (s : Sheet) (line : Line) (next : Option MarkedLine) :
    ∃ added, (place s (line, false) next).lines = added ++ s.lines ∧ ∀ P : Line → Prop, ¬ P [] →
      ((∃ l ∈ added, P l) ↔ isBlank line = false ∧ P (image (line, false) next)) := by
  have hgap (apart b : Bool) : ∀ l ∈ (if apart then gap b else []).map Prod.fst, l = [] := by
    cases apart <;> cases b <;> simp [gap]
  have hcons (l : Line) (apart b : Bool) (P : Line → Prop) (hP : ¬ P []) :
      (∃ x ∈ l :: (if apart then gap b else []).map Prod.fst, P x) ↔ P l := by
    constructor
    · rintro ⟨x, hx, hpx⟩
      rcases List.mem_cons.1 hx with rfl | hx
      · exact hpx
      · exact absurd (hgap apart b x hx ▸ hpx) hP
    · exact fun h => ⟨l, List.mem_cons_self, h⟩
  cases hb : isBlank line with
  | true =>
    refine ⟨(gap s.afterText).map Prod.fst, by rw [place_blank s next hb, Sheet.separate_lines], fun P hP => ?_⟩
    refine iff_of_false ?_ (by simp)
    rintro ⟨l, hl, hpl⟩
    exact hP (hgap true s.afterText l hl ▸ hpl)
  | false =>
    cases hh : heading? line with
    | some heading =>
      refine ⟨heading :: (gap s.afterText).map Prod.fst, ?_, fun P hP => ?_⟩
      · rw [place_heading s next hb hh, Sheet.add_lines, Sheet.separate_lines, List.cons_append]
      · simpa [image, hh] using hcons heading true s.afterText P hP
    | none =>
      refine ⟨spellBullet (trimLine (keepsHardBreak next) line) ::
        (if s.due then gap s.afterText else []).map Prod.fst, ?_, fun P hP => ?_⟩
      · rw [place_text s next hb hh, Sheet.add_lines, Sheet.settle_lines, List.cons_append]
      · simpa only [image, hh, Option.getD_none, Bool.false_eq_true, if_false, true_and] using
          hcons _ s.due s.afterText P hP

/-- The sheet holds, from the latest, what is laid out for the lines. -/
theorem placeAll_lines (ms : List MarkedLine) (s : Sheet) :
    (placeAll s ms).lines = ((laid s.afterText s.due ms).map Prod.fst).reverse ++ s.lines := by
  induction ms generalizing s with
  | nil => rfl
  | cons m rest ih =>
    obtain ⟨line, isProtected⟩ := m
    rw [placeAll, ih]
    cases hb : isBlank line with
    | true =>
      cases isProtected with
      | true =>
        have hd : (s.add line).due = s.due := rfl
        simp [place_protected, laid, hb, Sheet.add_lines, Sheet.afterText_add, hd]
      | false =>
        rw [place_blank s _ hb, Sheet.afterText_separate, Sheet.separate_due, Sheet.separate_lines]
        cases h : s.afterText <;> simp [laid, hb, gap]
    | false =>
      cases isProtected with
      | true =>
        have hd : (s.settle.add line).due = false := s.settle_due
        simp only [place_protected, hb, Bool.false_eq_true, if_false, Sheet.afterText_add, hd,
          Sheet.add_lines, Sheet.settle_lines, laid]
        cases s.due <;> cases s.afterText <;> simp [isHeading, image, gap]
      | false =>
        cases hh : heading? line with
        | some heading =>
          have ha : Sheet.afterText { s.separate.add heading with due := true } = true := by
            simp [Sheet.afterText, Sheet.add, isBlank_heading? hh]
          rw [place_heading s _ hb hh, ha]
          simp only [Sheet.add_lines, Sheet.separate_lines, laid, hb]
          cases s.due <;> cases s.afterText <;> simp [isHeading, image, gap, hh]
        | none =>
          have hs : isBlank (image (line, false) rest.head?) = false := isBlank_image _ hb
          simp only [image, hh, Bool.false_eq_true, if_false, Option.getD_none] at hs
          have hd (l : Line) : (s.settle.add l).due = false := s.settle_due
          rw [place_text s _ hb hh, hd]
          simp only [Sheet.afterText_add, hs, Sheet.add_lines, Sheet.settle_lines, laid, hb]
          cases s.due <;> cases s.afterText <;> simp [isHeading, image, gap, hh]

theorem length_laid_le (ms : List MarkedLine) (afterText due : Bool) :
    ((laid afterText due ms).map fun l => l.1.length).sum ≤ (ms.map fun l => l.1.length).sum := by
  have hg (b : Bool) : ((gap b).map fun l => l.1.length).sum = 0 := by cases b <;> rfl
  induction ms generalizing afterText due with
  | nil => exact le_rfl
  | cons line rest ih =>
    unfold laid
    split
    · have := ih false due
      cases line.2 <;> simp [hg] <;> omega
    · have := ih true (isHeading line)
      have hi := length_image_le line rest.head?
      cases due || isHeading line <;> simp [hg] <;> omega

theorem laid_append_empty (ms : List MarkedLine) (mark : Bool) (afterText due : Bool) :
    ∃ tail, (∀ l ∈ tail, isBlank l.1 = true) ∧
      laid afterText due (ms ++ [([], mark)]) = laid afterText due ms ++ tail := by
  induction ms generalizing afterText due with
  | nil =>
    refine ⟨laid afterText due [([], mark)], ?_, rfl⟩
    cases mark <;> cases afterText <;> simp [laid, gap, isBlank]
  | cons line rest ih =>
    have hn : keepsHardBreak (rest ++ [([], mark)]).head? = keepsHardBreak rest.head? := by
      cases rest <;> simp [keepsHardBreak, isBlank]
    have hi : image line (rest ++ [([], mark)]).head? = image line rest.head? := by
      simp only [image, hn]
    by_cases hb : isBlank line.1
    · obtain ⟨tail, ht, he⟩ := ih false due
      refine ⟨tail, ht, ?_⟩
      simp [laid, hb, he]
    · obtain ⟨tail, ht, he⟩ := ih true (isHeading line)
      refine ⟨tail, ht, ?_⟩
      simp only [List.cons_append, laid, hb, he, hi]
      simp

end ComponentDocs.Layout
