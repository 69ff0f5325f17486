import ComponentDocs.Proofs.Markdown.Places
/-! What begins on a line is told by the line: the text behind its line feed does not count. -/
namespace ComponentDocs.Markdown

variable {cs : List Char}

theorem mem_of_mem_cons {c : Char} (h : '\n' ∈ c :: cs) (hc : c ≠ '\n') : '\n' ∈ cs :=
  (List.mem_cons.1 h).resolve_left hc.symm

theorem takeWhile_append {p : Char → Bool} (hp : p '\n' = false) (h : '\n' ∈ cs) (v : List Char) :
    (cs ++ v).takeWhile p = cs.takeWhile p := by
  induction cs with
  | nil => cases h
  | cons c cs ih =>
    cases hc : p c with
    | false => simp [hc]
    | true => simp [hc, ih (mem_of_mem_cons h (by rintro rfl; simp [hp] at hc))]

theorem drop_takeWhile (p : Char → Bool) (cs : List Char) : cs.drop (cs.takeWhile p).length = cs.dropWhile p := by
  have hsplit := List.takeWhile_append_dropWhile (p := p) (l := cs)
  exact (congrArg (List.drop _) hsplit.symm).trans List.drop_left

theorem mem_dropWhile {p : Char → Bool} (hp : p '\n' = false) (h : '\n' ∈ cs) : '\n' ∈ cs.dropWhile p := by
  rw [← List.takeWhile_append_dropWhile (p := p) (l := cs), List.mem_append] at h
  exact h.resolve_left (LineStart.On.newline_not_mem_takeWhile hp cs)

theorem dropWhile_append {p : Char → Bool} (hp : p '\n' = false) (h : '\n' ∈ cs) (v : List Char) :
    (cs ++ v).dropWhile p = cs.dropWhile p ++ v := by
  rw [← drop_takeWhile, takeWhile_append hp h, List.drop_append_of_le_length ((List.takeWhile_prefix _).length_le), drop_takeWhile]

theorem head?_append (h : '\n' ∈ cs) (v : List Char) : (cs ++ v).head? = cs.head? :=
  List.head?_append_of_ne_nil _ (List.ne_nil_of_mem h)

theorem eol?_append (h : '\n' ∈ cs) (v : List Char) : eol? (cs ++ v) = eol? cs := by
  rcases cs with _ | ⟨c, _ | ⟨d, cs⟩⟩
  · cases h
  · obtain rfl : '\n' = c := by simpa using h
    rfl
  · by_cases hc : c = '\n'
    · rw [hc]
      rfl
    · by_cases hr : c = '\r' <;> by_cases hd : d = '\n' <;> simp [eol?, hc, hr, hd]

theorem spaceRun_append (h : '\n' ∈ cs) (v : List Char) : spaceRun (cs ++ v) = spaceRun cs := by
  rw [spaceRun, spaceRun, takeWhile_append (by decide) h]

theorem run_append (mark : Char) (hmark : mark ≠ '\n') (h : '\n' ∈ cs) (v : List Char) :
    run mark (cs ++ v) = run mark cs := by
  rw [run, run, takeWhile_append (by simpa using hmark.symm) h]

theorem drop_run_append (mark : Char) (cs v : List Char) :
    (cs ++ v).drop (run mark cs) = cs.drop (run mark cs) ++ v :=
  List.drop_append_of_le_length ((List.takeWhile_prefix _).length_le)

theorem mem_drop_run (mark : Char) (hmark : mark ≠ '\n') (h : '\n' ∈ cs) : '\n' ∈ cs.drop (run mark cs) := by
  rw [run, drop_takeWhile]
  exact mem_dropWhile (by simpa using hmark.symm) h

theorem blankLine?_append (h : '\n' ∈ cs) (v : List Char) : blankLine? (cs ++ v) = blankLine? cs := by
  have hrest : '\n' ∈ cs.drop (spaceRun cs) := by
    rw [spaceRun, drop_takeWhile]
    exact mem_dropWhile (by decide) h
  have hdrop : (cs ++ v).drop (spaceRun cs) = cs.drop (spaceRun cs) ++ v :=
    List.drop_append_of_le_length (List.takeWhile_prefix _).length_le
  rw [blankLine?, blankLine?, spaceRun_append h, hdrop, eol?_append hrest]

theorem lineLength_append (h : '\n' ∈ cs) (v : List Char) : lineLength (cs ++ v) = lineLength cs := by
  induction cs with
  | nil => cases h
  | cons c cs ih =>
    rw [List.cons_append, lineLength, lineLength]
    split
    · rfl
    · next hc => rw [ih (mem_of_mem_cons h (by simpa using hc))]

theorem lineLength_le (cs : List Char) : lineLength cs ≤ cs.length := by
  induction cs with
  | nil => exact le_rfl
  | cons c cs ih =>
    rw [lineLength, List.length_cons]
    split <;> omega

theorem thematicBreak?_append (h : '\n' ∈ cs) (v : List Char) : thematicBreak? (cs ++ v) = thematicBreak? cs := by
  have hgo (mark : Char) (marks length : Nat) {cs : List Char} (h : '\n' ∈ cs) :
      thematicBreak?.go mark marks length (cs ++ v) = thematicBreak?.go mark marks length cs := by
    induction cs generalizing marks length with
    | nil => cases h
    | cons c cs ih =>
      have hrest (hc : ¬ isEol c = true) : '\n' ∈ cs := mem_of_mem_cons h (by rintro rfl; exact hc rfl)
      rw [List.cons_append, thematicBreak?.go, thematicBreak?.go, ← List.cons_append, eol?_append h]
      split
      · rfl
      · next hc => rw [ih _ _ (hrest hc), ih _ _ (hrest hc)]
  cases cs with
  | nil => cases h
  | cons c cs =>
    rw [List.cons_append, thematicBreak?, thematicBreak?]
    split
    · next hc =>
      exact hgo c 1 1 (mem_of_mem_cons h (by rintro rfl; exact absurd hc (by decide)))
    · rfl

theorem atxLevel?_append (h : '\n' ∈ cs) (v : List Char) : atxLevel? (cs ++ v) = atxLevel? cs := by
  simp only [atxLevel?, run_append '#' (by decide) h, drop_run_append '#',
    head?_append (mem_drop_run '#' (by decide) h)]

theorem setextUnderline?_append (h : '\n' ∈ cs) (v : List Char) :
    setextUnderline? (cs ++ v) = setextUnderline? cs := by
  cases cs with
  | nil => cases h
  | cons mark cs =>
    rw [List.cons_append, setextUnderline?, setextUnderline?]
    split
    · next hmark =>
      have hne : mark ≠ '\n' := by rintro rfl; exact absurd hmark (by decide)
      have hrest := mem_of_mem_cons h hne
      simp only [run_append mark hne hrest, drop_run_append mark, blankLine?_append (mem_drop_run mark hne hrest)]
    · rfl

theorem codeFence?_append (h : '\n' ∈ cs) (v : List Char) : codeFence? (cs ++ v) = codeFence? cs := by
  cases cs with
  | nil => cases h
  | cons mark cs =>
    rw [List.cons_append, codeFence?, codeFence?]
    split
    · next hmark =>
      have hne : mark ≠ '\n' := by rintro rfl; exact absurd hmark (by decide)
      have hrest := mem_of_mem_cons h hne
      simp only [run_append mark hne hrest, drop_run_append mark, lineLength_append (mem_drop_run mark hne hrest),
        List.take_append_of_le_length (lineLength_le _)]
    · rfl

theorem closingFence?_append {mark : Char} (hmark : mark ≠ '\n') (n : Nat) (h : '\n' ∈ cs) (v : List Char) :
    closingFence? mark n (cs ++ v) = closingFence? mark n cs := by
  have hne : cs.isEmpty = false := by simpa using List.ne_nil_of_mem h
  have hne' : (cs ++ v).isEmpty = false := by simpa using fun hnil => absurd hnil (List.ne_nil_of_mem h)
  have hspaces := mem_drop_run mark hmark h
  have hlast := mem_drop_run ' ' (by decide) hspaces
  simp only [closingFence?, hne, hne', run_append mark hmark h, drop_run_append mark,
    run_append ' ' (by decide) hspaces, ← List.drop_drop, drop_run_append ' ', eol?_append hlast]

theorem startsQuote_append (h : '\n' ∈ cs) (v : List Char) : startsQuote (cs ++ v) = startsQuote cs := by
  rcases cs with _ | ⟨c, _ | ⟨d, cs⟩⟩
  · cases h
  · obtain rfl : '\n' = c := by simpa using h
    rfl
  · simp only [List.cons_append]
    unfold startsQuote
    split <;> simp_all

theorem listMarker?_append (h : '\n' ∈ cs) (v : List Char) : listMarker? (cs ++ v) =
    (listMarker? cs).map fun (mark, number, rest) => (mark, number, rest ++ v) := by
  have hspaced (mark : Char) (number : Nat) {cs : List Char} (h : '\n' ∈ cs) :
      listMarker?.spaced mark number (cs ++ v) =
        (listMarker?.spaced mark number cs).map fun (mark, number, rest) => (mark, number, rest ++ v) := by
    rw [listMarker?.spaced, listMarker?.spaced, head?_append h, apply_ite (Option.map _)]
    rfl
  cases cs with
  | nil => cases h
  | cons c cs =>
    rw [List.cons_append, listMarker?, listMarker?]
    split
    · next hc => exact hspaced c 0 (mem_of_mem_cons h (by rintro rfl; exact absurd hc (by decide)))
    · split
      · have hdigits := takeWhile_append (p := Char.isDigit) (by decide) h v
        have hrest := mem_dropWhile (p := Char.isDigit) (by decide) h
        have hdrop := dropWhile_append (p := Char.isDigit) (by decide) h v
        rw [← drop_takeWhile, ← drop_takeWhile, hdigits] at hdrop
        rw [← drop_takeWhile] at hrest
        rw [List.cons_append] at hdigits hdrop
        simp only [hdigits, hdrop]
        generalize (c :: cs).drop _ = ds at hrest
        cases ds with
        | nil => cases hrest
        | cons d ds =>
          simp only [List.cons_append]
          split
          · next hd => exact hspaced d _ (mem_of_mem_cons hrest (by rintro rfl; simp at hd))
          · rfl
      · rfl

namespace LineStart
variable {l next : LineStart}

/-- The line with some text behind it. -/
def append (l : LineStart) (v : List Char) : LineStart := { l with rest := l.rest ++ v }

theorem On.mem {cs : List Char} (hl : l.On cs) (h : '\n' ∈ cs) : '\n' ∈ l.rest := by
  rw [hl.rest_eq]
  rw [← List.take_append_drop l.scanned cs, List.mem_append] at h
  exact h.resolve_left hl.newline_not_mem

theorem on_replicate (l : LineStart) : l.On (List.replicate l.scanned ' ' ++ l.rest) :=
  ⟨by simp, by simp⟩

theorem mem_of_on (hnext : ∀ cs, l.On cs → next.On cs) (h : '\n' ∈ l.rest) : '\n' ∈ next.rest :=
  (hnext _ l.on_replicate).mem (List.mem_append_right _ h)

variable (h : '\n' ∈ l.rest) (v : List Char)
include h

theorem mem_skip (n : Nat) : '\n' ∈ (l.skip n).2.rest := mem_of_on (fun _ hl => hl.skip n) h

theorem skip_append (n : Nat) : (l.append v).skip n = ((l.skip n).1, (l.skip n).2.append v) := by
  have hgo (n pending scanned column : Nat) {cs : List Char} (h : '\n' ∈ cs) :
      skip.go n pending scanned column (cs ++ v) = ((skip.go n pending scanned column cs).1,
        (skip.go n pending scanned column cs).2.append v) := by
    induction cs generalizing n pending scanned column with
    | nil => cases h
    | cons c cs ih =>
      rw [List.cons_append, skip.go, skip.go]
      split
      · rfl
      · split
        · next hc => exact ih _ _ _ _ (mem_of_mem_cons h (by rintro rfl; exact absurd hc (by decide)))
        · split
          · next hc => exact ih _ _ _ _ (mem_of_mem_cons h (by rintro rfl; exact absurd hc (by decide)))
          · rfl
  exact hgo _ _ _ _ h

theorem indent_append (n : Nat) : (l.append v).indent n = ((l.indent n).1, (l.indent n).2.append v) := by
  rw [indent, skip_append h]
  rfl

theorem mem_indent (n : Nat) : '\n' ∈ (l.indent n).2.rest := mem_skip h n

theorem skipAll_append : (l.append v).skipAll = l.skipAll.append v := by
  have hblanks := takeWhile_append (p := fun c => c == ' ' || c == '\t') (by decide) h v
  have hdrop : (l.rest ++ v).drop (l.rest.takeWhile fun c => c == ' ' || c == '\t').length =
      l.rest.drop (l.rest.takeWhile fun c => c == ' ' || c == '\t').length ++ v :=
    List.drop_append_of_le_length (List.takeWhile_prefix _).length_le
  simp only [skipAll, append, hblanks, hdrop]

theorem atEol_append : (l.append v).atEol = l.atEol := by rw [atEol, atEol, append, head?_append h]

theorem advance_append : (l.append v).advance = l.advance.append v := by
  obtain ⟨c, cs, hcs⟩ := List.exists_cons_of_ne_nil (List.ne_nil_of_mem h)
  simp [advance, append, hcs]

theorem quoteMark?_append : (l.append v).quoteMark? = l.quoteMark?.map (append · v) := by
  have hinner := mem_skip h 3
  simp only [quoteMark?, skip_append h]
  rw [show ((l.skip 3).2.append v).rest.head? = (l.skip 3).2.rest.head? from head?_append hinner v]
  split
  · next hmark =>
    have hadvance : '\n' ∈ (l.skip 3).2.advance.rest := by
      obtain ⟨cs, hcs⟩ := List.head?_eq_some_iff.1 (eq_of_beq hmark)
      rw [hcs] at hinner
      simpa [advance, hcs] using mem_of_mem_cons hinner (by decide)
    rw [advance_append hinner, skip_append hadvance]
    rfl
  · rfl

theorem afterMarker?_append : (l.append v).afterMarker? = l.afterMarker?.map (append · v) := by
  simp only [afterMarker?, skip_append h, atEol_append (mem_skip h 1)]
  rw [apply_ite (Option.map _)]
  rfl

theorem contentIndent_append (indent : Nat) : (l.append v).contentIndent indent =
    ((l.contentIndent indent).1, (l.contentIndent indent).2.append v) := by
  have hblank : blankLine? (l.append v).rest = blankLine? l.rest := blankLine?_append h v
  simp only [contentIndent, hblank, indent_append h]
  split
  · rfl
  · split <;> rfl

end LineStart

namespace LineStart
variable {l next : LineStart}

theorem listMarker?_append (h : '\n' ∈ l.rest) (v : List Char) : (l.append v).listMarker? =
    l.listMarker?.map fun (marker, indent, next) => (marker, indent, next.append v) := by
  have hindent := mem_indent h 4
  simp only [listMarker?, indent_append h]
  generalize l.indent 4 = r at *
  obtain ⟨indent, l⟩ := r
  dsimp only at *
  obtain ⟨c, cs, hcs⟩ := List.exists_cons_of_ne_nil (List.ne_nil_of_mem hindent)
  have hrest : (l.append v).rest = c :: (cs ++ v) := by simp [append, hcs]
  have hbreak : thematicBreak? (c :: (cs ++ v)) = thematicBreak? (c :: cs) :=
    thematicBreak?_append (hcs ▸ hindent) v
  have hadvance (hc : c ≠ '\n') : '\n' ∈ l.advance.rest := by
    rw [hcs] at hindent
    simpa [advance, hcs] using mem_of_mem_cons hindent hc
  have hcontent {inner : LineStart} {l : LineStart} (hl : '\n' ∈ l.rest) (ha : l.afterMarker? = some inner) :
      '\n' ∈ inner.rest := mem_of_on (fun _ hl => hl.afterMarker? ha) hl
  rw [hrest, hcs]
  dsimp only
  rw [hbreak]
  split
  · rfl
  split
  · next hc =>
    have hne : c ≠ '\n' := by rintro rfl; exact absurd hc (by decide)
    split
    · rfl
    · rw [advance_append hindent, afterMarker?_append (hadvance hne)]
      cases ha : l.advance.afterMarker? with
      | none => rfl
      | some inner =>
        simp only [Option.map_some, contentIndent_append (hcontent (hadvance hne) ha)]
  · split
    · rw [hcs] at hindent
      have hdigits := takeWhile_append (p := Char.isDigit) (by decide) hindent v
      have hafter := mem_dropWhile (p := Char.isDigit) (by decide) hindent
      have hdrop := dropWhile_append (p := Char.isDigit) (by decide) hindent v
      rw [← drop_takeWhile, ← drop_takeWhile, hdigits] at hdrop
      rw [← drop_takeWhile] at hafter
      rw [List.cons_append] at hdigits hdrop
      rw [hdigits, hdrop]
      generalize (c :: cs).drop _ = ds at hafter
      cases ds with
      | nil => cases hafter
      | cons d ds =>
        simp only [List.cons_append]
        split
        · next hd =>
          have hds : '\n' ∈ ds := mem_of_mem_cons hafter (by rintro rfl; simp at hd)
          have hpassed (width : Nat) : (⟨ds ++ v, (l.append v).scanned + width, (l.append v).column + width,
              (l.append v).pending⟩ : LineStart) =
                append ⟨ds, l.scanned + width, l.column + width, l.pending⟩ v := rfl
          rw [hpassed, afterMarker?_append hds]
          cases ha : afterMarker? ⟨ds, _, _, _⟩ with
          | none => rfl
          | some inner =>
            simp only [Option.map_some, contentIndent_append (hcontent (by exact hds) ha)]
            rfl
        · rfl
    · rfl

/-- The box of a task, and a space behind it. -/
def StartsBox (cs : List Char) : Prop :=
  ∃ state c rest, cs = '[' :: state :: ']' :: c :: rest ∧
    ((isSpace state || state == 'x' || state == 'X') && isSpace c) = true

theorem startsBox_append_iff {cs : List Char} (h : '\n' ∈ cs) (v : List Char) : StartsBox (cs ++ v) ↔ StartsBox cs := by
  constructor
  · rintro ⟨state, c, rest, hcs, hbox⟩
    have hstate : '\n' ≠ state := by rintro rfl; simp [isSpace_newline] at hbox
    rcases cs with _ | ⟨c₁, _ | ⟨c₂, _ | ⟨c₃, _ | ⟨c₄, cs⟩⟩⟩⟩
    · cases h
    · simp_all
    · simp_all
    · simp_all
    · refine ⟨state, c, cs, ?_, hbox⟩
      simp_all
  · rintro ⟨state, c, rest, rfl, hbox⟩
    exact ⟨state, c, rest ++ v, rfl, hbox⟩

open Classical in
theorem taskBox?_eq (l : LineStart) : l.taskBox? =
    if StartsBox (l.indent 3).2.rest then some (l.indent 3).2.advance.advance.advance else none := by
  unfold taskBox?
  dsimp only
  split
  · next state c rest hrest =>
    have hiff : StartsBox (l.indent 3).2.rest ↔
        ((isSpace state || state == 'x' || state == 'X') && isSpace c) = true := by
      simp [StartsBox, hrest]
    simp only [hiff]
  · next hother =>
    rw [if_neg]
    rintro ⟨state, c, rest, hrest, -⟩
    exact hother state c rest hrest

theorem taskBox?_append (h : '\n' ∈ l.rest) (v : List Char) : (l.append v).taskBox? = l.taskBox?.map (append · v) := by
  have hinner := mem_indent h 3
  have hbox : StartsBox ((l.indent 3).2.append v).rest ↔ StartsBox (l.indent 3).2.rest :=
    startsBox_append_iff hinner v
  rw [taskBox?_eq, taskBox?_eq, indent_append h]
  by_cases hstarts : StartsBox (l.indent 3).2.rest
  · rw [if_pos (hbox.2 hstarts), if_pos hstarts]
    obtain ⟨state, c, rest, hrest, -⟩ := hstarts
    simp [advance, append, hrest]
  · rw [if_neg (mt hbox.1 hstarts), if_neg hstarts]
    rfl

end LineStart

namespace Container
variable {l : LineStart}

theorem enter?_append (h : '\n' ∈ l.rest) (v : List Char) (c : Container) :
    c.enter? (l.append v) = (c.enter? l).map (LineStart.append · v) := by
  cases c with
  | blockQuote => exact LineStart.quoteMark?_append h v
  | item indent =>
    simp only [enter?, LineStart.skip_append h, LineStart.atEol_append (LineStart.mem_skip h indent)]
    rw [apply_ite (Option.map _)]
    rfl
  | list | footnote => rfl

theorem mem_enterAll (h : '\n' ∈ l.rest) (cs : List Container) : '\n' ∈ (enterAll l cs).2.rest :=
  LineStart.mem_of_on (fun _ hl => hl.enterAll cs) h

theorem enterAll_append (h : '\n' ∈ l.rest) (v : List Char) (cs : List Container) :
    enterAll (l.append v) cs = ((enterAll l cs).1, (enterAll l cs).2.append v) := by
  induction cs with
  | nil => rfl
  | cons c outer ih =>
    rw [enterAll, enterAll, ih]
    dsimp only
    rw [enter?_append (mem_enterAll h outer)]
    split
    · cases c.enter? (enterAll l outer).2 <;> rfl
    · rfl

end Container

end ComponentDocs.Markdown
