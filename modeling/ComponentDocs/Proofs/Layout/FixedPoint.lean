import ComponentDocs.Proofs.Layout.Placement
import ComponentDocs.Proofs.Text.Basic
import Mathlib.Data.List.DropRight
/-! The text that is written for the lines that are laid out: it is empty, or its last line holds
text and ends in a line feed. -/
namespace ComponentDocs.Layout
open Text

theorem length_protectedLines (document : List Char) (count : Nat) (events : List Markdown.Event) :
    (protectedLines document count events).length = count := by
  simp [protectedLines]

theorem map_fst_markLines (text : List Char) : (markLines text).map Prod.fst = lines text := by
  unfold markLines
  exact List.map_fst_zip (length_protectedLines _ _ _).ge

theorem mem_headingTitle {c : Char} {text : List Char} (h : c ∈ headingTitle text) : c ∈ text := by
  have ht {d : Char} (hd : d ∈ trim text) : d ∈ text :=
    (List.dropWhile_suffix _).subset ((trimEnd_prefixOf _).subset hd)
  unfold headingTitle at h
  dsimp only at h
  split at h
  · have := (trimEnd_prefixOf _).subset h
    rw [List.mem_reverse] at this
    exact ht (List.mem_reverse.1 ((List.dropWhile_suffix _).subset this))
  · exact ht h

theorem mem_heading? {c : Char} {line heading : Line} (h : heading? line = some heading)
    (hc : c ∈ heading) : c ∈ line ∨ c = '#' ∨ c = ' ' := by
  unfold heading? at h
  dsimp only at h
  split at h
  · simp only [Option.some.injEq] at h
    subst h
    unfold spellHeading at hc
    rcases List.mem_append.1 hc with hc | hc
    · exact .inr (.inl (List.eq_of_mem_replicate hc))
    · split at hc
      · simp at hc
      · rcases List.mem_cons.1 hc with rfl | hc
        · exact .inr (.inr rfl)
        · exact .inl (List.mem_of_mem_drop (mem_headingTitle hc))
  · cases h

theorem mem_spellBullet {c : Char} {line : Line} (h : c ∈ spellBullet line) : c ∈ line ∨ c = '-' := by
  unfold spellBullet at h
  split at h
  · exact .inl h
  · split at h
    · next hs =>
      obtain ⟨mark, -, rfl⟩ := splitBullet?_eq_some hs
      simp only [List.mem_append, List.mem_cons] at h ⊢
      tauto
    · exact .inl h

theorem newline_not_mem_image {line : MarkedLine} (next : Option MarkedLine) (h : '\n' ∉ line.1) :
    '\n' ∉ image line next := by
  intro hm
  unfold image at hm
  split at hm
  · exact h hm
  · cases hh : heading? line.1 with
    | some heading =>
      rw [hh] at hm
      rcases mem_heading? hh hm with hc | hc | hc
      · exact h hc
      all_goals exact absurd hc (by decide)
    | none =>
      rw [hh] at hm
      rcases mem_spellBullet hm with hc | hc
      · exact h ((trimLine_prefixOf _ _).subset hc)
      · exact absurd hc (by decide)

theorem newline_not_mem_laid {ms : List MarkedLine} (h : ∀ m ∈ ms, '\n' ∉ m.1) (afterText due : Bool) :
    ∀ l ∈ (laid afterText due ms).map Prod.fst, '\n' ∉ l := by
  have hg (apart b : Bool) : ∀ l ∈ (if apart then gap b else []).map Prod.fst, '\n' ∉ l := by
    cases apart <;> cases b <;> simp [gap]
  induction ms generalizing afterText due with
  | nil => simp [laid]
  | cons line rest ih =>
    have hr (a d : Bool) := ih (fun m hm => h m (List.mem_cons_of_mem _ hm)) a d
    have hl := h line (by simp)
    intro l hm
    cases hb : isBlank line.1 with
    | true =>
      rw [laid, if_pos hb, List.map_append, List.mem_append] at hm
      rcases hm with hm | hm
      · split at hm
        · rw [List.map_singleton, List.mem_singleton] at hm
          exact hm ▸ hl
        · exact hg true afterText l hm
      · exact hr _ _ l hm
    | false =>
      rw [laid, if_neg (by simp [hb]), List.map_append, List.mem_append, List.map_cons] at hm
      rcases hm with hm | hm
      · exact hg _ _ l hm
      · rcases List.mem_cons.1 hm with rfl | hm
        · exact newline_not_mem_image _ hl
        · exact hr _ _ l hm

theorem getLast?_laid {ms : List MarkedLine} {m : MarkedLine} (h : ms.getLast? = some m)
    (hm : isBlank m.1 = false) (afterText due : Bool) :
    ∃ l, (laid afterText due ms).getLast? = some l ∧ isBlank l.1 = false := by
  induction ms generalizing afterText due with
  | nil => simp at h
  | cons line rest ih =>
    cases rest with
    | nil =>
      obtain rfl : line = m := by simpa using h
      refine ⟨_, by simp [laid, hm]; rfl, isBlank_image none hm⟩
    | cons next rest =>
      have ih' := ih (by simpa using h)
      unfold laid
      split
      · obtain ⟨l, hl, hb⟩ := ih' false due
        exact ⟨l, by rw [List.getLast?_append, hl]; rfl, hb⟩
      · obtain ⟨l, hl, hb⟩ := ih' true (isHeading line)
        exact ⟨l, by rw [List.getLast?_append, List.getLast?_cons, hl]; rfl, hb⟩

theorem layOut_eq (ms : List MarkedLine) :
    layOut ms =
      if ((laid false false ms).map Prod.fst).rdropWhile isBlank = [] then []
      else joinLines (((laid false false ms).map Prod.fst).rdropWhile isBlank) ++ ['\n'] := by
  have hs := placeAll_lines ms {}
  simp only [Sheet.afterText, List.head?_nil, Option.any_none, List.append_nil] at hs
  unfold layOut List.rdropWhile
  rw [← hs]
  cases (placeAll {} ms).lines.dropWhile isBlank <;> simp

/-- Lines that may be a text of their own, the last of which holds text. -/
structure AreText (ls : List Line) : Prop where
  ne_nil : ls ≠ []
  newline_not_mem : ∀ l ∈ ls, '\n' ∉ l
  rdropWhile_eq : ls.rdropWhile isBlank = ls

theorem AreText.lines_eq {ls : List Line} (h : AreText ls) : lines (joinLines ls ++ ['\n']) = ls ++ [[]] := by
  rw [lines_append_newline, lines_joinLines h.ne_nil h.newline_not_mem]

theorem layOut_eq_nil_or (ms : List MarkedLine) (h : ∀ m ∈ ms, '\n' ∉ m.1) :
    layOut ms = [] ∨ ∃ ls, AreText ls ∧ ls <+: (laid false false ms).map Prod.fst ∧
      layOut ms = joinLines ls ++ ['\n'] := by
  rw [layOut_eq]
  split
  · exact .inl rfl
  · next hne =>
    have hp := List.rdropWhile_prefix isBlank (l := (laid false false ms).map Prod.fst)
    refine .inr ⟨_, ⟨hne, fun l hl => ?_, List.rdropWhile_idempotent isBlank _⟩, hp, rfl⟩
    exact newline_not_mem_laid h _ _ l (hp.subset hl)

theorem newline_not_mem_of_mem_markLines {text : List Char} {m : MarkedLine} (h : m ∈ markLines text) :
    '\n' ∉ m.1 := by
  have hl : m.1 ∈ lines text := by
    rw [← map_fst_markLines]
    exact List.mem_map_of_mem h
  exact not_mem_of_mem_lines hl

theorem canonical_eq_nil_or (text : List Char) :
    canonical text = [] ∨ ∃ ls, AreText ls ∧ canonical text = joinLines ls ++ ['\n'] := by
  rcases layOut_eq_nil_or (markLines (unixNewlines text))
    fun m hm => newline_not_mem_of_mem_markLines hm with h | ⟨ls, hl, -, h⟩
  · exact .inl h
  · exact .inr ⟨ls, hl, h⟩

theorem canonicalize_toList (text : String) : (canonicalize text).toList = canonical text.toList :=
  String.toList_ofList

theorem lineChars_canonical_le (text : List Char) :
    lineChars (canonical text) ≤ lineChars (unixNewlines text) := by
  have hsum : ((markLines (unixNewlines text)).map fun l => l.1.length).sum =
      lineChars (unixNewlines text) := by
    rw [lineChars, ← map_fst_markLines, List.map_map]
    rfl
  rcases layOut_eq_nil_or (markLines (unixNewlines text))
    fun m hm => newline_not_mem_of_mem_markLines hm with h | ⟨ls, hl, hp, h⟩
  · simp [canonical, h, lineChars, lines]
  · have ht : lineChars (joinLines ls ++ ['\n']) = (ls.map List.length).sum := by
      simp [lineChars, hl.lines_eq]
    calc lineChars (canonical text)
        = (ls.map List.length).sum := by rw [canonical, h, ht]
      _ ≤ (((laid false false (markLines (unixNewlines text))).map Prod.fst).map List.length).sum :=
          (hp.map List.length).sublist.sum_le_sum (by simp)
      _ ≤ lineChars (unixNewlines text) := by
          rw [← hsum, List.map_map]
          exact length_laid_le _ _ _

/-! The texts that the canonical layout leaves alone. A text is tidy if its lines outside of code
and HTML blocks are spelled as the layout spells them; an output of the layout is laid out to
itself exactly if it is tidy. Not every output is. -/

/-- A line is as the layout leaves it: it is protected, or the one empty line after a line with
text, or a heading in its one spelling apart from other text, or text that ends well and is no
bullet with another mark than a hyphen. -/
def Tidy (afterText : Bool) (line : MarkedLine) (next : Option MarkedLine) : Prop :=
  line.2 = true ∨
    if isBlank line.1 then line.1 = [] ∧ afterText = true
    else
      match heading? line.1 with
      | some heading =>
        heading = line.1 ∧ afterText = false ∧ (next.all fun n => isBlank n.1) = true
      | none =>
        EndsWell (keepsHardBreak next) line.1 ∧
          (splitBullet? line.1 = none ∨ isThematicBreak line.1 = true)

/-- All lines are tidy. `afterText` tells that a line with text comes before them. -/
def TidyFrom (afterText : Bool) : List MarkedLine → Prop
  | [] => True
  | line :: rest => Tidy afterText line rest.head? ∧ TidyFrom (!isBlank line.1) rest

/-- A text without carriage returns before its line feeds, all of whose lines are tidy. What comes
after the last line feed is no line. -/
def IsTidy (text : List Char) : Prop :=
  ¬ ['\r', '\n'] <:+: text ∧ TidyFrom false (markLines text).dropLast

theorem tidy_blank_iff {line : Line} (afterText : Bool) (next : Option MarkedLine)
    (h : isBlank line = true) : Tidy afterText (line, false) next ↔ line = [] ∧ afterText = true := by
  simp [Tidy, h]

theorem tidy_text_iff {line : MarkedLine} (afterText : Bool) (next : Option MarkedLine)
    (h : isBlank line.1 = false) :
    Tidy afterText line next ↔
      image line next = line.1 ∧
        (isHeading line = true → afterText = false ∧ (next.all fun n => isBlank n.1) = true) := by
  obtain ⟨line, isProtected⟩ := line
  cases isProtected with
  | true => simp [Tidy, image, isHeading]
  | false =>
    cases hh : heading? line with
    | some heading => simp_all [Tidy, image, isHeading]
    | none => simp_all [Tidy, image, isHeading, spellBullet_trimLine_eq_self_iff]

theorem length_takeWhile_laid_le (ms : List MarkedLine) (due : Bool) :
    ((laid false due ms).takeWhile fun l => isBlank l.1).length ≤
      (ms.takeWhile fun l => isBlank l.1).length := by
  induction ms with
  | nil => exact le_rfl
  | cons line rest ih =>
    cases hb : isBlank line.1 with
    | true =>
      rw [laid_blank rest _ _ hb]
      cases hp : line.2 with
      | true => simpa [hb] using ih
      | false => simpa [hb, gap] using Nat.le_succ_of_le ih
    | false =>
      have hi := isBlank_image rest.head? hb
      simp [laid_text rest _ _ hb, hi, gap]

/-- A blank line that is dropped is missed: the lines after it do not make up for it. -/
theorem laid_ne_cons_of_isBlank {line : Line} (rest : List MarkedLine) (due : Bool)
    (h : isBlank line = true) : (laid false due rest).map Prod.fst ≠ line :: rest.map Prod.fst := by
  intro he
  have hc (ls : List MarkedLine) : (ls.takeWhile fun l => isBlank l.1).length =
      ((ls.map Prod.fst).takeWhile isBlank).length := by
    rw [List.takeWhile_map, List.length_map]
    rfl
  have hle := length_takeWhile_laid_le rest due
  rw [hc, he, List.takeWhile_cons, if_pos h, List.length_cons, hc] at hle
  omega

theorem gap_append_eq_cons_iff {line : Line} {here : MarkedLine} {ls : List MarkedLine} {rest : List Line}
    (apart afterText : Bool) (h : isBlank line = false) :
    ((if apart then gap afterText else []) ++ here :: ls).map Prod.fst = line :: rest ↔
      (apart = true → afterText = false) ∧ here.1 = line ∧ ls.map Prod.fst = rest := by
  have hn : ([] : Line) ≠ line := by
    rintro rfl
    simp [isBlank] at h
  cases apart <;> cases afterText <;> simp [gap, hn]

/-- Laying out leaves lines alone exactly if they are tidy, and a heading that came last is
followed by a blank line. -/
theorem laid_eq_self_iff (ms : List MarkedLine) (afterText due : Bool) :
    (laid afterText due ms).map Prod.fst = ms.map Prod.fst ↔
      TidyFrom afterText ms ∧
        (due = true → afterText = true → (ms.head?.all fun n => isBlank n.1) = true) := by
  induction ms generalizing afterText due with
  | nil => simp [laid, TidyFrom]
  | cons m rest ih =>
    cases hb : isBlank m.1 with
    | true =>
      obtain ⟨line, isProtected⟩ := m
      rw [laid_blank rest _ _ hb]
      cases isProtected with
      | true => simp [hb, ih, TidyFrom, Tidy]
      | false =>
        simp only [TidyFrom, tidy_blank_iff _ _ hb, List.map_cons]
        cases afterText with
        | true =>
          have hl : ([] = line) = (line = []) := propext eq_comm
          simp [hb, gap, ih, hl]
        | false => simp [gap, laid_ne_cons_of_isBlank rest due hb]
    | false =>
      rw [laid_text rest _ _ hb, List.map_cons, gap_append_eq_cons_iff _ _ hb, ih]
      simp only [TidyFrom, tidy_text_iff _ _ hb, List.head?_cons, Option.all_some, hb, Bool.or_eq_true]
      cases afterText <;> cases isHeading m <;> simp <;> tauto

/-- Lines before an empty one, the last of which holds text, are kept to the last. -/
theorem rdropWhile_laid {ms : List MarkedLine} (h : AreText (ms.map Prod.fst)) (mark : Bool) :
    ((laid false false (ms ++ [([], mark)])).map Prod.fst).rdropWhile isBlank =
      (laid false false ms).map Prod.fst := by
  obtain ⟨tail, ht, he⟩ := laid_append_empty ms mark false false
  have hne : ms ≠ [] := by
    rintro rfl
    exact h.ne_nil rfl
  have hm : isBlank (ms.getLast hne).1 = false := by
    have := List.rdropWhile_eq_self_iff.1 h.rdropWhile_eq h.ne_nil
    rwa [List.getLast_map, Bool.not_eq_true] at this
  obtain ⟨l, hl, hb⟩ := getLast?_laid (List.getLast?_eq_some_getLast hne) hm false false
  have hself : ((laid false false ms).map Prod.fst).rdropWhile isBlank =
      (laid false false ms).map Prod.fst := by
    rw [List.rdropWhile_eq_self_iff]
    intro hn
    rw [List.getLast_map, (List.getLast_eq_iff_getLast?_eq_some (by simpa using hn)).2 hl, hb]
    simp
  have htb : ∀ x ∈ (tail.map Prod.fst).reverse, isBlank x = true := by
    intro x hx
    obtain ⟨l, hl, rfl⟩ := List.mem_map.1 (List.mem_reverse.1 hx)
    exact ht l hl
  rw [he, List.map_append, List.rdropWhile, List.reverse_append, List.dropWhile_append_of_pos htb]
  exact hself

/-- Lines before an empty one, taken apart from their text, are laid out to that text exactly if
they are tidy. -/
theorem layOut_eq_iff {ls : List Line} (h : AreText ls) {ms : List MarkedLine}
    (hm : ms.map Prod.fst = ls ++ [[]]) :
    layOut ms = joinLines ls ++ ['\n'] ↔ TidyFrom false ms.dropLast := by
  obtain ⟨front, last, rfl⟩ : ∃ front last, ms = front ++ [last] :=
    ⟨ms.dropLast, ms.getLast (by rintro rfl; simp at hm), (List.dropLast_append_getLast _).symm⟩
  obtain ⟨last, mark⟩ := last
  rw [List.map_append] at hm
  obtain ⟨rfl, hl⟩ := List.append_inj' hm rfl
  obtain rfl : last = [] := by simpa using hl
  rw [List.dropLast_concat, layOut_eq, rdropWhile_laid h]
  have hiff := laid_eq_self_iff front false false
  simp only [Bool.false_eq_true, false_implies, and_true] at hiff
  rw [← hiff]
  constructor
  · intro he
    split at he
    · simp at he
    · next hne =>
      have hn : ∀ l ∈ (laid false false front).map Prod.fst, '\n' ∉ l :=
        newline_not_mem_laid (fun m hm => h.newline_not_mem _ (List.mem_map_of_mem hm)) false false
      have := congrArg lines he
      rw [lines_append_newline, lines_joinLines hne hn, h.lines_eq] at this
      exact List.append_cancel_right this
  · intro he
    rw [he, if_neg h.ne_nil]

theorem canonical_eq_self_iff {ls : List Line} (h : AreText ls) :
    canonical (joinLines ls ++ ['\n']) = joinLines ls ++ ['\n'] ↔ IsTidy (joinLines ls ++ ['\n']) := by
  have hm : (markLines (joinLines ls ++ ['\n'])).map Prod.fst = ls ++ [[]] := by
    rw [map_fst_markLines, h.lines_eq]
  have hiff := layOut_eq_iff h hm
  constructor
  · intro he
    have hu : ¬ ['\r', '\n'] <:+: joinLines ls ++ ['\n'] := by
      intro hi
      have hlt := lineChars_unixNewlines_lt hi
      have hle := lineChars_canonical_le (joinLines ls ++ ['\n'])
      rw [he] at hle
      omega
    refine ⟨hu, hiff.1 ?_⟩
    rwa [canonical, (unixNewlines_eq_self_iff _).2 hu] at he
  · rintro ⟨hu, ht⟩
    rw [canonical, (unixNewlines_eq_self_iff _).2 hu]
    exact hiff.2 ht

/-- Laying out a second time changes nothing exactly if the first time left a tidy text. -/
theorem canonicalize_canonicalize_eq_iff (text : String) :
    canonicalize (canonicalize text) = canonicalize text ↔ IsTidy (canonicalize text).toList := by
  rw [← String.toList_inj, canonicalize_toList, canonicalize_toList]
  rcases canonical_eq_nil_or text.toList with h | ⟨ls, hl, h⟩
  · rw [h]
    refine iff_of_true rfl ⟨by simp, trivial⟩
  · rw [h]
    exact canonical_eq_self_iff hl

/-- A title may end in two runs of number signs, and each time only the last one goes. -/
theorem canonicalize_canonicalize_ne_of_two_closings :
    canonicalize "# a # #" = "# a #\n" ∧ canonicalize (canonicalize "# a # #") = "# a\n" := by
  decide +kernel

end ComponentDocs.Layout
