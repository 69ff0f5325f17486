import ComponentDocs.Proofs.Layout.Titles
import ComponentDocs.Proofs.Markdown.Continuation
/-! The lines that the formatter takes for lines of another block. Some of them go on with the paragraph before them:
the formatter looks at the next line alone, and not at the block that it is in. -/
namespace ComponentDocs.Layout
open Text Markdown

section Mark

/-- The mark of a list item: a bullet, or a number of at most nine digits. -/
inductive ListMark : List Char → Prop
  | bullet (c : Char) : c = '-' ∨ c = '*' ∨ c = '+' → ListMark [c]
  | number (digits : List Char) (d : Char) : 1 ≤ digits.length → digits.length ≤ 9 →
      (∀ c ∈ digits, isDecimalDigit c = true) → d = '.' ∨ d = ')' → ListMark (digits ++ [d])

/-- The mark of an item that may cut a paragraph short: a bullet or the number one. -/
inductive CuttingMark : List Char → Prop
  | bullet (c : Char) : c = '-' ∨ c = '*' ∨ c = '+' → CuttingMark [c]
  | one (n : Nat) (d : Char) : d = '.' ∨ d = ')' → CuttingMark (List.replicate n '0' ++ ['1', d])

theorem ne_space_of_isDecimalDigit {c : Char} (h : isDecimalDigit c = true) : c ≠ ' ' ∧ c ≠ '\t' ∧ c ≠ '>' := by
  refine ⟨?_, ?_, ?_⟩ <;> rintro rfl <;> exact absurd h (by decide)

theorem ListMark.exists_cons {mark : List Char} (h : ListMark mark) :
    ∃ c rest, mark = c :: rest ∧ c ≠ ' ' ∧ c ≠ '\t' ∧ c ≠ '>' := by
  cases h with
  | bullet c hc => exact ⟨c, [], rfl, by rcases hc with rfl | rfl | rfl <;> decide⟩
  | number digits d hpos hle hdigits hd =>
    cases digits with
    | nil => exact absurd hpos (by decide)
    | cons c digits => exact ⟨c, digits ++ [d], rfl, ne_space_of_isDecimalDigit (hdigits c List.mem_cons_self)⟩

theorem takeWhile_append_cons {p : Char → Bool} {front : List Char} {c : Char} (hfront : ∀ d ∈ front, p d = true)
    (hc : p c = false) (rest : List Char) : (front ++ c :: rest).takeWhile p = front := by
  rw [List.takeWhile_append_of_pos hfront, List.takeWhile_cons_of_neg (by simp [hc]), List.append_nil]

theorem startsBlock_spaces {c : Char} (hc : c ≠ ' ') (n : Nat) (cs : List Char) :
    startsBlock (List.replicate n ' ' ++ c :: cs) = true ↔ n ≤ 3 ∧ (c = '>' ∨
      ∃ mark gap rest, ListMark mark ∧ isGap gap = true ∧ c :: cs = mark ++ gap :: rest) := by
  have hspaces : (List.replicate n ' ' ++ c :: cs).takeWhile (· == ' ') = List.replicate n ' ' :=
    takeWhile_append_cons (fun d hd => by simp [List.eq_of_mem_replicate hd]) (by simpa using hc) cs
  have hdrop : (List.replicate n ' ' ++ c :: cs).drop n = c :: cs := List.drop_left' List.length_replicate
  simp only [startsBlock, hspaces, List.length_replicate, hdrop, Bool.and_eq_true, Bool.or_eq_true,
    decide_eq_true_eq, beq_iff_eq, or_assoc]
  refine and_congr_right fun _ => or_congr_right ⟨?_, ?_⟩
  · rintro (⟨hc, hgap⟩ | ⟨⟨hpos, hle⟩, hnumber⟩)
    · cases cs with
      | nil => cases hgap
      | cons gap rest => exact ⟨[c], gap, rest, .bullet c hc, hgap, rfl⟩
    · have hsplit := List.prefix_iff_eq_append.1 (List.takeWhile_prefix isDecimalDigit (l := c :: cs))
      split at hnumber
      · next d gap rest hrest =>
        simp only [Bool.and_eq_true, Bool.or_eq_true, beq_iff_eq] at hnumber
        refine ⟨(c :: cs).takeWhile isDecimalDigit ++ [d], gap, rest,
          .number _ d hpos hle (fun c hc => List.mem_takeWhile_imp hc) hnumber.1, hnumber.2, ?_⟩
        rw [List.append_assoc, List.singleton_append, ← hrest, hsplit]
      · cases hnumber
  · rintro ⟨mark, gap, rest, hmark, hgap, he⟩
    cases hmark with
    | bullet mark hm =>
      obtain ⟨rfl, rfl⟩ := List.cons.inj he
      exact .inl ⟨hm, hgap⟩
    | number digits d hpos hle hdigits hd =>
      rw [List.append_assoc, List.singleton_append] at he
      have hstop : isDecimalDigit d = false := by rcases hd with rfl | rfl <;> decide
      rw [he, takeWhile_append_cons hdigits hstop, List.drop_left]
      exact .inr ⟨⟨hpos, hle⟩, by simpa using ⟨hd, hgap⟩⟩

theorem exists_eq_spaces (line : Line) : (∃ n, line = List.replicate n ' ') ∨
    ∃ n c cs, c ≠ ' ' ∧ line = List.replicate n ' ' ++ c :: cs := by
  have hspaces : line.takeWhile (· == ' ') = List.replicate (line.takeWhile (· == ' ')).length ' ' :=
    List.eq_replicate_of_mem fun c hc => by simpa using List.mem_takeWhile_imp hc
  have hsplit := List.takeWhile_append_dropWhile (p := (· == ' ')) (l := line)
  rw [hspaces] at hsplit
  cases hd : line.dropWhile (· == ' ') with
  | nil => exact .inl ⟨_, by rw [hd, List.append_nil] at hsplit; exact hsplit.symm⟩
  | cons c cs =>
    have hc : ¬ (c == ' ') = true := by
      have hne : line.dropWhile (· == ' ') ≠ [] := by rw [hd]; exact List.cons_ne_nil c cs
      have hhead := List.head_dropWhile_not (· == ' ') hne
      simpa [hd] using hhead
    exact .inr ⟨_, c, cs, by simpa using hc, by rw [← hd, hsplit]⟩

/-- A line starts a block if a quote or a list mark with a gap comes behind at most three spaces. -/
theorem startsBlock_iff (line : Line) : startsBlock line = true ↔ ∃ n ≤ 3,
    (∃ rest, line = List.replicate n ' ' ++ '>' :: rest) ∨
    ∃ mark gap rest, ListMark mark ∧ isGap gap = true ∧ line = List.replicate n ' ' ++ (mark ++ gap :: rest) := by
  constructor
  · intro h
    obtain ⟨n, rfl⟩ | ⟨n, c, cs, hc, rfl⟩ := exists_eq_spaces line
    · simp [startsBlock] at h
    · obtain ⟨hn, rfl | ⟨mark, gap, rest, hmark, hgap, he⟩⟩ := (startsBlock_spaces hc n cs).1 h
      · exact ⟨n, hn, .inl ⟨cs, rfl⟩⟩
      · exact ⟨n, hn, .inr ⟨mark, gap, rest, hmark, hgap, by rw [he]⟩⟩
  · rintro ⟨n, hn, ⟨rest, rfl⟩ | ⟨mark, gap, rest, hmark, hgap, rfl⟩⟩
    · exact (startsBlock_spaces (by decide) n rest).2 ⟨hn, .inl rfl⟩
    · obtain ⟨c, cs, rfl, hc, -⟩ := hmark.exists_cons
      exact (startsBlock_spaces hc n _).2 ⟨hn, .inr ⟨_, gap, rest, hmark, hgap, rfl⟩⟩

/-- The number that some digits spell. -/
def numberOf (digits : List Char) : Nat := digits.foldl (fun n d => 10 * n + (d.toNat - '0'.toNat)) 0

theorem numberOf_one (n : Nat) : numberOf (List.replicate n '0' ++ ['1']) = 1 := by
  induction n with
  | zero => rfl
  | succ n ih => exact ih

theorem listMarker?_number {digits : List Char} (hne : digits ≠ []) (hdigits : ∀ c ∈ digits, c.isDigit = true)
    (hnumber : numberOf digits < Nat.pow 2 64) {d : Char} (hd : d = '.' ∨ d = ')') (rest : List Char) :
    Markdown.listMarker? (digits ++ d :: rest) = listMarker?.spaced d (numberOf digits) rest := by
  have hstop : d.isDigit = false := by rcases hd with rfl | rfl <;> decide
  have htake := takeWhile_append_cons hdigits hstop rest
  cases digits with
  | nil => exact absurd rfl hne
  | cons c digits =>
    have hc := hdigits c List.mem_cons_self
    have hmarks : (c == '-' || c == '+' || c == '*') = false := by
      simp only [Bool.or_eq_false_iff, beq_eq_false_iff_ne]
      refine ⟨⟨?_, ?_⟩, ?_⟩ <;> rintro rfl <;> exact absurd hc (by decide)
    have hends : (d == '.' || d == ')') = true := by simpa using hd
    have hdrop : (c :: digits ++ d :: rest).drop (c :: digits).length = d :: rest := List.drop_left
    rw [List.cons_append] at htake hdrop ⊢
    rw [numberOf] at hnumber
    simp only [Markdown.listMarker?, hmarks, hc, htake, hdrop, hends, hnumber, Bool.false_eq_true, if_false, if_true,
      Bool.true_and, decide_true, numberOf]

theorem CuttingMark.listMarker? {mark : List Char} (h : CuttingMark mark) {gap : Char} (hgap : isGap gap = true)
    (rest : List Char) : ∃ c number, Markdown.listMarker? (mark ++ gap :: rest) = some (c, number, gap :: rest) ∧
      (c == '*' || c == '-' || c == '+' || number == 1) = true := by
  have hspaced (c : Char) (number : Nat) :
      listMarker?.spaced c number (gap :: rest) = some (c, number, gap :: rest) := by
    have hg : (gap == ' ' || gap == '\t') = true := hgap
    simp [listMarker?.spaced, hg]
  cases h with
  | bullet c hc =>
    refine ⟨c, 0, ?_, by rcases hc with rfl | rfl | rfl <;> rfl⟩
    rw [← hspaced]
    rcases hc with rfl | rfl | rfl <;> rfl
  | one n d hd =>
    have hdigits : ∀ c ∈ List.replicate n '0' ++ ['1'], c.isDigit = true := by
      intro c hc
      rcases List.mem_append.1 hc with hc | hc
      · rw [List.eq_of_mem_replicate hc]
        decide
      · rw [List.mem_singleton.1 hc]
        decide
    have hnumber := numberOf_one n
    have hfound := listMarker?_number (by simp) hdigits (by rw [hnumber]; decide) hd (gap :: rest)
    rw [hnumber, hspaced, List.append_assoc, List.singleton_append] at hfound
    exact ⟨d, 1, by rw [List.append_assoc]; exact hfound, by simp⟩

theorem CuttingMark.isSome_blankLine? {containers : List Container} {n : Nat} (hn : n ≤ 3) {mark : List Char}
    (h : CuttingMark mark) (hmark : ListMark mark) {gap : Char} (hgap : isGap gap = true) {rest tail : List Char}
    (hgoes : GoesOn containers (List.replicate n ' ' ++ (mark ++ gap :: rest) ++ tail)) :
    (blankLine? (gap :: rest)).isSome = true := by
  obtain ⟨c, cs, rfl, hspace, htab, hquote⟩ := hmark.exists_cons
  rw [List.append_assoc, List.cons_append, List.cons_append] at hgoes
  obtain ⟨inside, hends⟩ := hgoes.endsText_eq_false hn hspace htab hquote
  obtain ⟨mark, number, hmarker, hcuts⟩ := h.listMarker? hgap (rest ++ tail)
  have he : c :: (cs ++ gap :: rest ++ tail) = c :: cs ++ gap :: (rest ++ tail) := by simp
  rw [he, Outline.endsText, Outline.interruptsWithItem, hmarker] at hends
  simp only [hcuts, Bool.and_true, Bool.or_eq_false_iff, Bool.not_eq_false'] at hends
  obtain ⟨⟨-, htwice⟩, -⟩ := hends
  have hblank : (blankLine? (gap :: rest ++ tail)).isSome = true := by
    rw [List.cons_append]
    unfold blankTwice at htwice
    cases hb : blankLine? (gap :: (rest ++ tail)) with
    | none => rw [hb] at htwice; cases htwice
    | some => rfl
  exact isSome_blankLine?_of_append hblank

end Mark

section Misread

/-- A line that is taken for one of another block, though it may go on with a paragraph: blank characters that are not
all spaces and tabs, number signs before a blank that Markdown knows not, the mark of a block quote that the
paragraph is in, and an item that does not cut the paragraph short, as its number is not one or it is empty. -/
inductive Misread (line : Line) : Prop
  | blank : isBlank line = true → (∃ c ∈ line, isGap c = false) → Misread line
  | heading (level : Nat) (c : Char) (text : List Char) : OpensHeading isBlankChar line level (c :: text) →
      isSpaceOrEol c = false → Misread line
  | quote (n : Nat) (rest : List Char) : n ≤ 3 → line = List.replicate n ' ' ++ '>' :: rest → Misread line
  | item (n : Nat) (mark : List Char) (gap : Char) (rest : List Char) : n ≤ 3 → ListMark mark → isGap gap = true →
      line = List.replicate n ' ' ++ (mark ++ gap :: rest) →
      (CuttingMark mark → (blankLine? (gap :: rest)).isSome = true) → Misread line

theorem atxLevel?_eq_none_of_goesOn {containers : List Container} {cs : List Char}
    (h : GoesOn containers ('#' :: cs)) : atxLevel? ('#' :: cs) = none := by
  obtain ⟨inside, hends⟩ : ∃ inside, Outline.endsText inside ('#' :: cs) = false :=
    GoesOn.endsText_eq_false (n := 0) (by decide) (by decide) (by decide) (by decide) h
  simp only [Outline.endsText, Outline.interrupts, Bool.or_eq_false_iff] at hends
  exact Option.isNone_iff_eq_none.1 (Option.isSome_eq_false_iff.1 hends.2.1.1.1.2)

/-- Number signs that go on with a paragraph have no white space behind them. -/
theorem exists_text_of_opensHeading {containers : List Container} {line tail : List Char} (htail : IsLineRest tail)
    (hgoes : GoesOn containers (line ++ tail)) {level : Nat} {text : List Char}
    (h : OpensHeading isBlankChar line level text) : ∃ c rest, text = c :: rest ∧ isSpaceOrEol c = false := by
  have happart : ∀ c ∈ (text ++ tail).head?, isBlankChar c = true := by
    cases text with
    | nil => exact fun c hc => by rw [htail c hc]; decide
    | cons c text => exact h.apart
  have hopens : OpensHeading isBlankChar (line ++ tail) level (text ++ tail) :=
    ⟨by rw [h.line_eq, List.append_assoc], h.level_pos, h.level_le, happart⟩
  have hlevel : atxLevel? (line ++ tail) = none := by
    obtain ⟨n, rfl⟩ := Nat.exists_eq_add_of_le' h.level_pos
    rw [hopens.line_eq, List.replicate_succ, List.cons_append] at hgoes ⊢
    exact atxLevel?_eq_none_of_goesOn hgoes
  have hrun : run '#' (line ++ tail) = level := by
    rw [run, hopens.takeWhile_eq isBlankChar_sign, List.length_replicate]
  have hdrop : (line ++ tail).drop level = text ++ tail := by
    rw [hopens.line_eq]
    exact List.drop_left' List.length_replicate
  simp only [atxLevel?, hrun, hdrop, h.level_pos, h.level_le, decide_true, Bool.true_and] at hlevel
  split at hlevel
  · cases hlevel
  next hspace =>
  cases text with
  | nil =>
    refine absurd ((Option.all_eq_true ..).2 fun c hc => ?_) hspace
    rw [htail c hc]
    decide
  | cons c text => exact ⟨c, text, rfl, by simpa using hspace⟩

theorem keepsHardBreak_eq_false (line : Line) : keepsHardBreak (some (line, false)) = false ↔
    isBlank line = true ∨ (heading? line).isSome = true ∨ startsBlock line = true := by
  simp only [keepsHardBreak, Bool.not_false, Bool.and_true, Bool.and_eq_false_iff, Bool.not_eq_false', or_assoc,
    Option.isNone_eq_false_iff]

theorem Misread.keepsHardBreak {line : Line} (h : Misread line) : keepsHardBreak (some (line, false)) = false := by
  rw [keepsHardBreak_eq_false]
  cases h with
  | blank hblank _ => exact .inl hblank
  | heading level c text hopens _ =>
    exact .inr (.inl (Option.isSome_iff_exists.2 ⟨_, heading?_eq_some_iff.2 ⟨level, _, hopens, rfl⟩⟩))
  | quote n rest hn he => exact .inr (.inr ((startsBlock_iff line).2 ⟨n, hn, .inl ⟨rest, he⟩⟩))
  | item n mark gap rest hn hmark hgap he _ =>
    exact .inr (.inr ((startsBlock_iff line).2 ⟨n, hn, .inr ⟨mark, gap, rest, hmark, hgap, he⟩⟩))

/-- A line that goes on with the paragraph before it is misread or keeps a hard break. -/
theorem keepsHardBreak_eq_false_iff {containers : List Container} {line tail : List Char} (htail : IsLineRest tail)
    (hgoes : GoesOn containers (line ++ tail)) : keepsHardBreak (some (line, false)) = false ↔ Misread line := by
  refine ⟨fun h => ?_, Misread.keepsHardBreak⟩
  obtain hblank | hheading | hstarts := (keepsHardBreak_eq_false line).1 h
  · exact .blank hblank (hgoes.exists_text htail)
  · obtain ⟨heading, hheading⟩ := Option.isSome_iff_exists.1 hheading
    obtain ⟨level, text, hopens, -⟩ := heading?_eq_some_iff.1 hheading
    obtain ⟨c, text, rfl, hc⟩ := exists_text_of_opensHeading htail hgoes hopens
    exact .heading level c text hopens hc
  · obtain ⟨n, hn, ⟨rest, rfl⟩ | ⟨mark, gap, rest, hmark, hgap, rfl⟩⟩ := (startsBlock_iff line).1 hstarts
    · exact .quote n rest hn rfl
    · exact .item n mark gap rest hn hmark hgap rfl fun hcut => hcut.isSome_blankLine? hn hmark hgap hgoes

end Misread

end ComponentDocs.Layout
