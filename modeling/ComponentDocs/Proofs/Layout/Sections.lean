import ComponentDocs.Proofs.Layout.Verbatim
/-! Sections that are written one after the other, with a blank line between them. Where each line is
protected as it is in its section alone, they are laid out as they are alone. -/
namespace ComponentDocs.Layout
open Text

def isBlankLine (m : MarkedLine) : Bool := isBlank m.1

/-- The lines that come out for marked lines. -/
def keptLines (ms : List MarkedLine) : List Line := ((laid false false ms).map Prod.fst).rdropWhile isBlank

/-- A blank line is due only after text. -/
theorem laid_due (ms : List MarkedLine) (due : Bool) : laid false due ms = laid false false ms := by
  induction ms with
  | nil => rfl
  | cons line rest ih =>
    cases hb : isBlank line.1 with
    | true => rw [laid_blank _ _ _ hb, laid_blank _ _ _ hb, ih]
    | false =>
      rw [laid_text _ _ _ hb, laid_text _ _ _ hb]
      cases due <;> cases isHeading line <;> rfl

theorem image_blank {line next : MarkedLine} (h : isBlank next.1 = true) :
    image line (some next) = image line none := by
  simp [image, keepsHardBreak, h]

/-- Lines that a blank line or nothing comes after are laid out as they are alone. -/
theorem exists_laid_eq_append (ms : List MarkedLine) (afterText due : Bool) : ∃ due', ∀ rest : List MarkedLine,
    (∀ m ∈ rest.head?, isBlank m.1 = true) →
      laid afterText due (ms ++ rest) =
        laid afterText due ms ++ laid ((ms.getLast?.map fun m => !isBlank m.1).getD afterText) due' rest := by
  induction ms generalizing afterText due with
  | nil => exact ⟨due, fun rest _ => rfl⟩
  | cons line ms ih =>
    have himage (rest : List MarkedLine) (h : ∀ m ∈ rest.head?, isBlank m.1 = true) :
        image line (ms ++ rest).head? = image line ms.head? := by
      cases ms with
      | cons next ms => rfl
      | nil =>
        cases rest with
        | nil => rfl
        | cons m rest => exact image_blank (h m rfl)
    have hlast (a : Bool) : ((line :: ms).getLast?.map fun m => !isBlank m.1).getD a =
        (ms.getLast?.map fun m => !isBlank m.1).getD (!isBlank line.1) := by
      cases ms using List.reverseRecOn <;> simp [List.getLast?_cons]
    cases hb : isBlank line.1 with
    | true =>
      obtain ⟨due', ih⟩ := ih false due
      refine ⟨due', fun rest h => ?_⟩
      rw [List.cons_append, laid_blank _ _ _ hb, laid_blank _ _ _ hb, ih rest h, hlast, hb, List.append_assoc]
      rfl
    | false =>
      obtain ⟨due', ih⟩ := ih true (isHeading line)
      refine ⟨due', fun rest h => ?_⟩
      rw [List.cons_append, laid_text _ _ _ hb, laid_text _ _ _ hb, ih rest h, himage rest h, hlast, hb]
      simp

theorem laid_blanks {blanks : List MarkedLine} (hne : blanks ≠ []) (h : ∀ m ∈ blanks, isBlank m.1 = true ∧ m.2 = false)
    (rest : List MarkedLine) (afterText due : Bool) :
    laid afterText due (blanks ++ rest) = gap afterText ++ laid false due rest := by
  induction blanks generalizing afterText with
  | nil => exact absurd rfl hne
  | cons line blanks ih =>
    obtain ⟨hb, hm⟩ := h line (by simp)
    rw [List.cons_append, laid_blank _ _ _ hb, hm, if_neg Bool.false_ne_true]
    by_cases hn : blanks = []
    · rw [hn, List.nil_append]
    · rw [ih hn fun m hm => h m (by simp [hm])]
      rfl

/-- The lines up to the last one with text. -/
def upToText (ms : List MarkedLine) : List MarkedLine := ms.rdropWhile isBlankLine

def endBlanks (ms : List MarkedLine) : List MarkedLine := ms.rtakeWhile isBlankLine

theorem upToText_append_endBlanks (ms : List MarkedLine) : upToText ms ++ endBlanks ms = ms :=
  List.rdropWhile_append_rtakeWhile

theorem isBlank_of_mem_endBlanks {ms : List MarkedLine} {m : MarkedLine} (h : m ∈ endBlanks ms) :
    isBlank m.1 = true := by
  have hblank : isBlankLine m = true := List.mem_rtakeWhile_imp h
  exact hblank

theorem isBlank_of_getLast? {ms : List MarkedLine} {m : MarkedLine} (h : (upToText ms).getLast? = some m) :
    isBlank m.1 = false := by
  have hne : upToText ms ≠ [] := by
    rintro he
    simp [he] at h
  have hlast := List.rdropWhile_last_not isBlankLine ms hne
  rw [List.getLast?_eq_some_getLast hne, Option.some.injEq] at h
  simpa [isBlankLine, ← h, upToText] using hlast

theorem upToText_append (front back : List MarkedLine) : upToText (front ++ back) =
    if upToText back = [] then upToText front else front ++ upToText back := by
  simp only [upToText, List.rdropWhile, List.reverse_append, List.dropWhile_append]
  split
  · next h => simp [List.isEmpty_iff.1 h]
  · next h => simp [mt List.isEmpty_iff.2 h]

theorem upToText_append_congr {front back back' : List MarkedLine} (h : upToText back = upToText back') :
    upToText (front ++ back) = upToText (front ++ back') := by
  rw [upToText_append, h, ← upToText_append]

theorem upToText_eq_nil {ms : List MarkedLine} (h : ∀ m ∈ ms, isBlank m.1 = true) : upToText ms = [] :=
  List.rdropWhile_eq_nil_iff.2 h

theorem upToText_upToText (ms : List MarkedLine) : upToText (upToText ms) = upToText ms :=
  List.rdropWhile_idempotent isBlankLine ms

/-- Up to its last line with text, a text is laid out before blank lines as it is alone. -/
theorem exists_laid_upToText (ms : List MarkedLine) : ∃ due, ∀ rest : List MarkedLine,
    (∀ m ∈ rest.head?, isBlank m.1 = true) → laid false false (upToText ms ++ rest) =
      laid false false (upToText ms) ++ laid (!(upToText ms).isEmpty) due rest := by
  obtain ⟨due, h⟩ := exists_laid_eq_append (upToText ms) false false
  have hlast : ((upToText ms).getLast?.map fun m => !isBlank m.1).getD false = !(upToText ms).isEmpty := by
    cases hl : (upToText ms).getLast? with
    | none => simp [List.getLast?_eq_none_iff.1 hl]
    | some m =>
      have hne : upToText ms ≠ [] := by
        rintro he
        simp [he] at hl
      simp [isBlank_of_getLast? hl, hne]
  exact ⟨due, fun rest hrest => hlast ▸ h rest hrest⟩

theorem keptLines_eq (ms : List MarkedLine) : keptLines ms = (laid false false (upToText ms)).map Prod.fst := by
  obtain ⟨due, h⟩ := exists_laid_upToText ms
  have hblank : ∀ m ∈ endBlanks ms, isBlank m.1 = true := fun m hm => isBlank_of_mem_endBlanks hm
  have hrest := h (endBlanks ms) fun m hm => hblank m (List.mem_of_mem_head? hm)
  have hall : ((laid (!(upToText ms).isEmpty) due (endBlanks ms)).map Prod.fst).all isBlank = true := by
    rw [all_isBlank_laid]
    simpa using fun l mark hm => hblank (l, mark) hm
  rw [upToText_append_endBlanks] at hrest
  rw [keptLines, hrest, List.map_append, rdropWhile_append, if_pos hall, List.rdropWhile_eq_self_iff]
  intro hne
  cases hl : (upToText ms).getLast? with
  | none => simp [List.getLast?_eq_none_iff.1 hl, laid] at hne
  | some m =>
    obtain ⟨l, hlast, hb⟩ := getLast?_laid hl (isBlank_of_getLast? hl) false false
    have heq : ((laid false false (upToText ms)).map Prod.fst).getLast? = some l.1 := by
      rw [List.getLast?_map, hlast, Option.map_some]
    rw [List.getLast?_eq_some_getLast hne, Option.some.injEq] at heq
    simpa [heq] using hb

theorem keptLines_congr {ms ms' : List MarkedLine} (h : upToText ms = upToText ms') : keptLines ms = keptLines ms' := by
  rw [keptLines_eq, h, keptLines_eq]

theorem keptLines_eq_nil_iff {ms : List MarkedLine} : keptLines ms = [] ↔ upToText ms = [] := by
  rw [keptLines, List.rdropWhile_eq_nil_iff, upToText, List.rdropWhile_eq_nil_iff, ← List.all_eq_true, all_isBlank_laid]
  simp [isBlankLine]

def unprotect (m : MarkedLine) : MarkedLine := (m.1, false)

/-- Lines with the blank ones at the end unprotected. -/
def sectionLines (ms : List MarkedLine) : List MarkedLine := upToText ms ++ (endBlanks ms).map unprotect

theorem isBlank_of_mem_unprotect {ms : List MarkedLine} {m : MarkedLine} (h : m ∈ (endBlanks ms).map unprotect) :
    isBlank m.1 = true ∧ m.2 = false := by
  obtain ⟨line, hline, rfl⟩ := List.mem_map.1 h
  have hblank := isBlank_of_mem_endBlanks hline
  exact ⟨hblank, rfl⟩

theorem upToText_sectionLines (ms : List MarkedLine) : upToText (sectionLines ms) = upToText ms := by
  rw [sectionLines, upToText_append, upToText_upToText, if_pos]
  exact upToText_eq_nil fun m hm => (isBlank_of_mem_unprotect hm).1

theorem keptLines_sectionLines (ms : List MarkedLine) : keptLines (sectionLines ms) = keptLines ms :=
  keptLines_congr (upToText_sectionLines ms)

theorem sectionLines_eq_self {ms : List MarkedLine} (h : ∀ m ∈ ms, m.2 = false) : sectionLines ms = ms := by
  have hsame : (endBlanks ms).map unprotect = (endBlanks ms).map id := by
    refine List.map_congr_left fun m hm => ?_
    have hmem : m ∈ ms := upToText_append_endBlanks ms ▸ List.mem_append_right _ hm
    exact Prod.ext rfl (h m hmem).symm
  rw [sectionLines, hsame, List.map_id, upToText_append_endBlanks]

theorem keptLines_append_nil (ms rest : List MarkedLine) (hrest : keptLines rest = []) :
    keptLines (sectionLines ms ++ ([], false) :: rest) = keptLines ms := by
  rw [← keptLines_sectionLines ms]
  refine keptLines_congr ?_
  rw [upToText_append, if_pos]
  rw [← List.singleton_append, upToText_append, if_pos (keptLines_eq_nil_iff.1 hrest)]
  rfl

/-- A section comes out before another one as it is alone, with a blank line after it if it has text. -/
theorem keptLines_append (ms rest : List MarkedLine) (hrest : keptLines rest ≠ []) :
    keptLines (sectionLines ms ++ ([], false) :: rest) =
      if keptLines ms = [] then keptLines rest else keptLines ms ++ [] :: keptLines rest := by
  obtain ⟨due, hlaid⟩ := exists_laid_upToText ms
  have hup : upToText (sectionLines ms ++ ([], false) :: rest) =
      upToText ms ++ ((endBlanks ms).map unprotect ++ [([], false)] ++ upToText rest) := by
    have hne : upToText rest ≠ [] := fun h => hrest (keptLines_eq_nil_iff.2 h)
    rw [← List.singleton_append, ← List.append_assoc, upToText_append, if_neg hne, sectionLines]
    simp
  have hblanks : ∀ m ∈ (endBlanks ms).map unprotect ++ [([], false)], isBlank m.1 = true ∧ m.2 = false := by
    intro m hm
    rcases List.mem_append.1 hm with hm | hm
    · exact isBlank_of_mem_unprotect hm
    · rw [List.mem_singleton.1 hm]
      exact ⟨rfl, rfl⟩
  have hhead : ∀ m ∈ ((endBlanks ms).map unprotect ++ [([], false)] ++ upToText rest).head?, isBlank m.1 = true := by
    intro m hm
    rw [List.head?_append_of_ne_nil _ (by simp)] at hm
    exact (hblanks m (List.mem_of_mem_head? hm)).1
  rw [keptLines_eq, hup, hlaid _ hhead, laid_blanks (by simp) hblanks, laid_due (upToText rest)]
  split
  · next hnil => simp [keptLines_eq_nil_iff.1 hnil, gap, laid, keptLines_eq rest]
  · next hne => simp [mt keptLines_eq_nil_iff.2 hne, gap, keptLines_eq ms, keptLines_eq rest]

theorem intercalate_cons {α : Type} (separator l : List α) {ls : List (List α)} (h : ls ≠ []) :
    List.intercalate separator (l :: ls) = l ++ separator ++ List.intercalate separator ls := by
  cases ls with
  | nil => exact absurd rfl h
  | cons m ls => exact List.intercalate_cons_cons

theorem intercalate_append {α : Type} (separator : List α) {ls ms : List (List α)} (hl : ls ≠ []) (hm : ms ≠ []) :
    List.intercalate separator (ls ++ ms) = List.intercalate separator ls ++ separator ++ List.intercalate separator ms := by
  induction ls with
  | nil => exact absurd rfl hl
  | cons l ls ih =>
    cases ls with
    | nil => rw [List.singleton_append, intercalate_cons _ _ hm, List.intercalate_singleton]
    | cons next ls =>
      rw [List.cons_append, intercalate_cons _ _ (by simp), ih (by simp), intercalate_cons _ l (List.cons_ne_nil next ls)]
      simp only [List.append_assoc]

theorem intercalate_filter_eq_nil {α : Type} [DecidableEq α] {separator : List α} {ls : List (List α)}
    (h : List.intercalate separator (ls.filter (· ≠ [])) = []) : ls.filter (· ≠ []) = [] := by
  cases hf : ls.filter (· ≠ []) with
  | nil => rfl
  | cons l rest =>
    have hl : l ≠ [] := by simpa using (List.mem_filter.1 (hf ▸ List.mem_cons_self : l ∈ ls.filter (· ≠ []))).2
    rw [hf] at h
    cases rest <;> simp_all [List.intercalate_cons_cons]

/-- Sections with a blank line between them come out one after the other, as each does alone, without those
that have no text. -/
theorem keptLines_intercalate (sections : List (List MarkedLine)) :
    keptLines (List.intercalate [([], false)] (sections.map sectionLines)) =
      List.intercalate [[]] ((sections.map keptLines).filter (· ≠ [])) := by
  induction sections with
  | nil => rfl
  | cons ms sections ih =>
    cases sections with
    | nil =>
      rw [List.map_singleton, List.intercalate_singleton, keptLines_sectionLines]
      by_cases h : keptLines ms = [] <;> simp [h]
    | cons ms' sections =>
      rw [List.map_cons, List.map_cons, List.intercalate_cons_cons, ← List.map_cons, List.append_assoc,
        List.singleton_append]
      generalize ms' :: sections = rest at ih
      by_cases hrest : keptLines (List.intercalate [([], false)] (rest.map sectionLines)) = []
      · rw [keptLines_append_nil _ _ hrest]
        rw [ih] at hrest
        have hnone := intercalate_filter_eq_nil hrest
        by_cases hms : keptLines ms = []
        · rw [List.map_cons, List.filter_cons_of_neg (by simpa using hms), hnone, hms]
          rfl
        · rw [List.map_cons, List.filter_cons_of_pos (by simpa using hms), hnone, List.intercalate_singleton]
      · rw [keptLines_append _ _ hrest]
        have hsome : (rest.map keptLines).filter (· ≠ []) ≠ [] := by
          rintro hnone
          rw [ih, hnone] at hrest
          exact hrest rfl
        by_cases hms : keptLines ms = []
        · rw [if_pos hms, ih, List.map_cons, List.filter_cons_of_neg (by simpa using hms)]
        · rw [if_neg hms, ih, List.map_cons, List.filter_cons_of_pos (by simpa using hms), intercalate_cons _ _ hsome]
          simp

theorem joinLines_append {front back : List Line} (hf : front ≠ []) (hb : back ≠ []) :
    joinLines (front ++ back) = joinLines front ++ '\n' :: joinLines back := by
  induction front with
  | nil => exact absurd rfl hf
  | cons l front ih =>
    cases front with
    | nil =>
      cases back with
      | nil => exact absurd rfl hb
      | cons m back => rfl
    | cons m front =>
      have h := ih (by simp)
      rw [List.cons_append] at h
      rw [List.cons_append, List.cons_append, joinLines, h]
      · simp [joinLines]
      · simp

/-- The text of some lines, with a line feed after each. -/
def textOf (ls : List Line) : List Char := if ls = [] then [] else joinLines ls ++ ['\n']

theorem textOf_eq_nil {ls : List Line} : textOf ls = [] ↔ ls = [] := by
  unfold textOf
  split <;> simp_all

theorem canonical_eq (text : List Char) : canonical text = textOf (keptLines (markLines (unixNewlines text))) :=
  layOut_eq _

theorem textOf_intercalate {parts : List (List Line)} (h : ∀ part ∈ parts, part ≠ []) :
    textOf (List.intercalate [[]] parts) = List.intercalate ['\n'] (parts.map textOf) := by
  induction parts with
  | nil => rfl
  | cons part parts ih =>
    cases parts with
    | nil => rw [List.map_singleton, List.intercalate_singleton, List.intercalate_singleton]
    | cons next parts =>
      have hpart : part ≠ [] := h part (by simp)
      have hnext : List.intercalate [[]] (next :: parts) ≠ [] := by
        have := h next (by simp)
        cases parts <;> simp_all [List.intercalate_cons_cons]
      rw [List.map_cons, List.map_cons, List.intercalate_cons_cons, List.intercalate_cons_cons, ← List.map_cons,
        ← ih fun part hp => h part (by simp [hp])]
      simp only [textOf, hpart, hnext, if_false, List.append_eq_nil_iff, false_and]
      rw [joinLines_append (by simp) hnext, joinLines_append hpart (by simp)]
      simp [joinLines]

end ComponentDocs.Layout
