import ComponentDocs.Proofs.Markdown.Advance
/-! Reading on from a place where no container is open. The blocks from there on are those of the rest of
the document, moved by the number of characters before it. -/
namespace ComponentDocs.Markdown

def Span.shift (d : Nat) (s : Span) : Span := ⟨d + s.start, d + s.stop⟩

def Cursor.shift (d : Nat) (c : Cursor) : Cursor := ⟨d + c.offset, c.rest⟩

namespace Block

mutual

def shift (d : Nat) : Block → Block
  | .code s => .code (s.shift d)
  | .html s => .html (s.shift d)
  | .heading lines => .heading (lines.map (Span.shift d))
  | .paragraph lines => .paragraph (lines.map (Span.shift d))
  | .text lines => .text (lines.map (Span.shift d))
  | .table s => .table (s.shift d)
  | .taskBox => .taskBox
  | .nested c isTight s blocks => .nested c isTight (s.shift d) (shiftAll d blocks)

def shiftAll (d : Nat) : List Block → List Block
  | [] => []
  | b :: bs => b.shift d :: shiftAll d bs

end

theorem shiftAll_eq_map (d : Nat) (bs : List Block) : shiftAll d bs = bs.map (shift d) := by
  induction bs with
  | nil => rfl
  | cons b bs ih => rw [shiftAll, ih, List.map_cons]

end Block

def OpenContainer.shift (d : Nat) (c : OpenContainer) : OpenContainer :=
  { c with start := d + c.start, blocks := Block.shiftAll d c.blocks }

namespace Outline

/-- The outline `d` characters further on, after some blocks. -/
def shift (d : Nat) (before : List Block) (o : Outline) : Outline :=
  { o with spine := o.spine.map (OpenContainer.shift d), blocks := Block.shiftAll d o.blocks ++ before }

def shiftAt (d : Nat) (before : List Block) (r : Outline × Cursor) : Outline × Cursor :=
  (r.1.shift d before, r.2.shift d)

end Outline

section Cursor
variable (d : Nat) (c c' : Cursor)

@[simp] theorem Cursor.shift_rest : (c.shift d).rest = c.rest := rfl

@[simp] theorem Cursor.shift_offset : (c.shift d).offset = d + c.offset := rfl

@[simp] theorem Cursor.lineStart_shift : (c.shift d).lineStart = c.lineStart := rfl

@[simp] theorem Cursor.advance_shift (n : Nat) : (c.shift d).advance n = (c.advance n).shift d := by
  simp [advance, shift, Nat.add_assoc]

@[simp] theorem Cursor.upTo_shift (l : LineStart) : (c.shift d).upTo l = (c.upTo l).shift d := by
  simp [upTo, shift, Nat.add_assoc]

@[simp] theorem Cursor.nextLine_shift : (c.shift d).nextLine = c.nextLine.shift d := Cursor.advance_shift ..

@[simp] theorem Cursor.blankLine?_shift : (c.shift d).blankLine? = c.blankLine?.map (Cursor.shift d) := by
  cases h : Markdown.blankLine? c.rest <;> simp [blankLine?, h]

@[simp] theorem Cursor.span_shift : (c.shift d).span (c'.shift d) = (c.span c').shift d := rfl

end Cursor

namespace Outline
variable (d : Nat) (before : List Block) (o : Outline)

@[simp] theorem containers_shift : (o.shift d before).containers = o.containers := by
  simp [containers, shift, OpenContainer.shift, Function.comp_def]

@[simp] theorem length_spine_shift : (o.shift d before).spine.length = o.spine.length := by simp [shift]

@[simp] theorem afterBlank_shift : (o.shift d before).afterBlank = o.afterBlank := rfl

@[simp] theorem startsItem_shift : (o.shift d before).startsItem = o.startsItem := rfl

@[simp] theorem enterAll_shift : (o.shift d before).enterAll = o.enterAll := by
  funext l
  simp [enterAll]

@[simp] theorem enterLabel_shift : (o.shift d before).enterLabel = o.enterLabel := by
  funext cs
  simp [enterLabel]

@[simp] theorem enterDefinition_shift : (o.shift d before).enterDefinition = o.enterDefinition := by
  funext cs
  simp [enterDefinition]

@[simp] theorem startsFootnote_shift : (o.shift d before).startsFootnote = o.startsFootnote := by
  funext cs
  simp [startsFootnote]

@[simp] theorem add_shift (b : Block) : (o.shift d before).add (b.shift d) = (o.add b).shift d before := by
  obtain ⟨spine, blocks, s, a⟩ := o
  cases spine <;> rfl

@[simp] theorem open'_shift (c : Container) (start : Nat) :
    (o.shift d before).open' c (d + start) = (o.open' c start).shift d before := rfl

theorem toBlock_shift (c : OpenContainer) (stop : Nat) : (c.shift d).toBlock (d + stop) = (c.toBlock stop).shift d := by
  simp [OpenContainer.toBlock, OpenContainer.shift, Block.shift, Block.shiftAll_eq_map, Span.shift]

@[simp] theorem close_shift (stop : Nat) : (o.shift d before).close (d + stop) = (o.close stop).shift d before := by
  obtain ⟨spine, blocks, s, a⟩ := o
  cases spine with
  | nil => rfl
  | cons c outer =>
    change ((⟨outer, blocks, s, a⟩ : Outline).shift d before).add ((c.shift d).toBlock (d + stop)) = _
    rw [toBlock_shift, add_shift]
    rfl

@[simp] theorem closeTo_shift (n stop : Nat) :
    (o.shift d before).closeTo n (d + stop) = (o.closeTo n stop).shift d before := by
  rw [closeTo, closeTo, length_spine_shift]
  induction List.range (o.spine.length - n) generalizing o with
  | nil => rfl
  | cons _ _ ih => simp [ih]

@[simp] theorem loosen_shift (n : Nat) : (o.shift d before).loosen n = (o.loosen n).shift d before := by
  unfold loosen
  rw [afterBlank_shift]
  split
  · simp only [shift, mk.injEq, and_true]
    apply List.ext_getElem?
    intro i
    by_cases h : n = i
    · simp [h]
      rfl
    · simp [h]
  · rfl

@[simp] theorem finishList_shift (stop : Nat) :
    (o.shift d before).finishList (d + stop) = (o.finishList stop).shift d before := by
  unfold finishList
  rw [containers_shift]
  split <;> simp

@[simp] theorem continueList_shift (marker : Char) (start : Nat) :
    (o.shift d before).continueList marker (d + start) = (o.continueList marker start).shift d before := by
  unfold continueList
  rw [containers_shift]
  split
  · rfl
  · split
    · simp
    · simp
      rfl
  · simp
    rfl

@[simp] theorem blankLine_shift (start : Nat) :
    (o.shift d before).blankLine (d + start) = (o.blankLine start).shift d before := by
  unfold blankLine
  rw [containers_shift]
  split
  · rfl
  · rfl
  · rw [startsItem_shift]
    split
    · rw [close_shift]
      rfl
    · rfl

@[simp] theorem closeFootnote_shift (start : Nat) :
    (o.shift d before).closeFootnote (d + start) = (o.closeFootnote start).shift d before := by
  unfold closeFootnote
  rw [containers_shift]
  split
  · rw [afterBlank_shift]
    split
    · rw [close_shift]
    · rfl
  · rfl

variable {d before o}

theorem ite_shiftAt {p : Prop} [Decidable p] {x y x' y' : Outline × Cursor} (hx : p → x = shiftAt d before x')
    (hy : ¬ p → y = shiftAt d before y') : (if p then x else y) = shiftAt d before (if p then x' else y') := by
  split
  · next h => exact hx h
  · next h => exact hy h

theorem indentedCode_shift (start : Cursor) {f₁ f₂ : Nat} {stop line : Cursor} (h₁ : line.rest.length < f₁)
    (h₂ : line.rest.length < f₂) (hne : line.rest ≠ []) (blank : Bool) :
    (o.shift d before).indentedCode (start.shift d) f₁ (stop.shift d) (line.shift d) blank =
      shiftAt d before (o.indentedCode start f₂ stop line blank) := by
  induction f₁ generalizing f₂ stop line blank with
  | zero => omega
  | succ f₁ ih =>
    obtain _ | f₂ := f₂
    · omega
    have hnext := Cursor.length_nextLine_lt hne
    have hskip := (o.suffix_skip line.nextLine 4).length_le
    have hstop : (if blank then stop.shift d else line.nextLine.shift d) =
        (if blank then stop else line.nextLine).shift d := by cases blank <;> rfl
    have hdone (stop : Cursor) : (({ o.shift d before with afterBlank := blank } : Outline).add
        (.code ((start.shift d).span (stop.shift d)))) =
          ({ o with afterBlank := blank }.add (.code (start.span stop))).shift d before :=
      add_shift d before { o with afterBlank := blank } (.code (start.span stop))
    simp only [indentedCode, Cursor.nextLine_shift, Cursor.lineStart_shift, enterAll_shift, length_spine_shift, hstop,
      hdone, Cursor.upTo_shift, Cursor.shift_rest, Cursor.blankLine?_shift, Option.isSome_map]
    refine ite_shiftAt (fun _ => rfl) fun _ => ite_shiftAt (fun _ => rfl) fun _ =>
      ite_shiftAt (fun _ => rfl) fun hrest => ?_
    exact ih (hskip.trans_lt (by omega)) (hskip.trans_lt (by omega)) (by simpa using hrest) _

theorem fencedCode_shift (start : Cursor) (indent : Nat) (mark : Char) (marks : Nat) {f₁ f₂ : Nat} {c : Cursor}
    (h₁ : c.rest.length < f₁) (h₂ : c.rest.length < f₂) :
    (o.shift d before).fencedCode (start.shift d) indent mark marks f₁ (c.shift d) =
      shiftAt d before (o.fencedCode start indent mark marks f₂ c) := by
  have hfinish (c : Cursor) : fencedCode.finish (o.shift d before) (start.shift d) (c.shift d) =
      shiftAt d before (fencedCode.finish o start c) := by
    have hadd := add_shift d before o (.code (start.span c))
    cases h : c.blankLine? <;> simp [fencedCode.finish, shiftAt, h, ← hadd, Block.shift]
  induction f₁ generalizing f₂ c with
  | zero => omega
  | succ f₁ ih =>
    obtain _ | f₂ := f₂
    · omega
    simp only [fencedCode, Cursor.lineStart_shift, enterAll_shift, length_spine_shift, Cursor.upTo_shift,
      Cursor.advance_shift, Cursor.nextLine_shift]
    refine ite_shiftAt (fun _ => hfinish c) fun _ => ?_
    split
    · exact hfinish _
    · next hopen =>
      have hne : c.rest ≠ [] := by
        rintro hnil
        have henter : (o.enterAll c.lineStart).2 = { rest := [] } := by
          rw [enterAll, Cursor.lineStart, hnil, Container.enterAll_nil]
        simp [henter, LineStart.skip, LineStart.skip.go, closingFence?] at hopen
      have hskip := o.suffix_skip c indent
      have hless : (c.upTo ((o.enterAll c.lineStart).2.skip indent).2).nextLine.rest.length < c.rest.length := by
        rcases hskip.length_le.lt_or_eq with hless | heq
        · exact (Cursor.suffix_nextLine _).length_le.trans_lt hless
        · have hsame := hskip.eq_of_length heq
          exact (Cursor.length_nextLine_lt (by simpa [Cursor.upTo, hsame] using hne)).trans_le hskip.length_le
      exact ih (hless.trans_le (by omega)) (hless.trans_le (by omega))

theorem htmlBlock_shift (mark : Option (List Char)) {f₁ f₂ : Nat} {c : Cursor} (h₁ : c.rest.length < f₁)
    (h₂ : c.rest.length < f₂) (hne : c.rest ≠ []) :
    htmlBlock mark f₁ (o.shift d before) (c.shift d) = shiftAt d before (htmlBlock mark f₂ o c) := by
  induction f₁ generalizing f₂ o c with
  | zero => omega
  | succ f₁ ih =>
    obtain _ | f₂ := f₂
    · omega
    have hnext := Cursor.length_nextLine_lt hne
    have hadd := add_shift d before o (.html (c.span c.nextLine))
    have henter := ((o.add (.html (c.span c.nextLine))).suffix_enterAll c.nextLine).length_le
    simp only [Block.shift, ← Cursor.span_shift] at hadd
    simp only [htmlBlock, Cursor.nextLine_shift, Cursor.lineStart_shift, hadd, enterAll_shift, length_spine_shift,
      Cursor.upTo_shift, Cursor.shift_rest, Cursor.blankLine?_shift, Option.isSome_map, Cursor.shift_offset,
      Nat.add_sub_add_left]
    refine ite_shiftAt (fun _ => rfl) fun _ => ite_shiftAt (fun _ => rfl) fun hrest => ?_
    rw [Bool.or_eq_true, not_or] at hrest
    exact ih (henter.trans_lt (by omega)) (henter.trans_lt (by omega)) (by simpa using hrest.2)

theorem tableRows_shift {f₁ f₂ : Nat} {c : Cursor} (h₁ : c.rest.length < f₁) (h₂ : c.rest.length < f₂) :
    (o.shift d before).tableRows f₁ (c.shift d) = (o.tableRows f₂ c).shift d := by
  induction f₁ generalizing f₂ c with
  | zero => omega
  | succ f₁ ih =>
    obtain _ | f₂ := f₂
    · omega
    have hrow : (o.enterAll c.lineStart).2.skipAll.rest.length ≤ c.rest.length :=
      ((LineStart.suffix_skipAll _).trans (o.suffix_enterAll c)).length_le
    simp only [tableRows, Cursor.lineStart_shift, enterAll_shift, length_spine_shift, Cursor.upTo_shift,
      Cursor.shift_rest, Cursor.advance_shift]
    split
    · rfl
    · next hends =>
      have hne : (c.upTo (o.enterAll c.lineStart).2.skipAll).rest ≠ [] := by
        rintro hnil
        rw [hnil] at hends
        exact hends (by simp [endsText, interrupts, eol?])
      have hless := Cursor.length_lineEnd_lt hne
      exact ih (hless.trans_le (hrow.trans (by omega))) (hless.trans_le (hrow.trans (by omega)))

theorem tableBody?_shift (c : Cursor) :
    (o.shift d before).tableBody? (c.shift d) = (o.tableBody? c).map (Cursor.shift d) := by
  simp only [tableBody?, Cursor.shift_rest, Cursor.advance_shift, Cursor.lineStart_shift, enterAll_shift,
    length_spine_shift, Cursor.upTo_shift]
  rw [apply_ite (Option.map (Cursor.shift d))]
  cases delimiterRow? (o.enterAll (c.advance (tableBody?.lineEnd c.rest)).lineStart).2.rest with
  | none => rfl
  | some row =>
    dsimp only
    rw [apply_ite (Option.map (Cursor.shift d))]
    rfl

theorem paragraph_shift {f₁ f₂ : Nat} (lines : List Span) {c : Cursor} (h₁ : c.rest.length < f₁)
    (h₂ : c.rest.length < f₂) (hne : c.rest ≠ []) :
    (o.shift d before).paragraph f₁ (lines.map (Span.shift d)) (c.shift d) =
      shiftAt d before (o.paragraph f₂ lines c) := by
  induction f₁ generalizing f₂ lines c with
  | zero => omega
  | succ f₁ ih =>
    obtain _ | f₂ := f₂
    · omega
    have hnext := Cursor.length_lineEnd_lt hne
    have hadd (lines : List Span) : (o.shift d before).add (.paragraph (lines.map (Span.shift d))) =
        (o.add (.paragraph lines)).shift d before := add_shift d before o (.paragraph lines)
    have hheading (lines : List Span) : (o.shift d before).add (.heading (lines.map (Span.shift d))) =
        (o.add (.heading lines)).shift d before := add_shift d before o (.heading lines)
    have hlines (s : Span) : s.shift d :: lines.map (Span.shift d) = (s :: lines).map (Span.shift d) := rfl
    have htext (hollow : Bool) (lines : List Span) : (if hollow then [] else lines.map (Span.shift d)) =
        (if hollow then [] else lines).map (Span.shift d) := by cases hollow <;> rfl
    simp only [paragraph, Cursor.shift_rest, Cursor.advance_shift, Cursor.lineStart_shift, enterAll_shift,
      length_spine_shift, Cursor.upTo_shift, Cursor.span_shift, hlines, ← List.map_reverse, List.isEmpty_map, htext,
      hadd, hheading, startsFootnote_shift]
    split
    · rfl
    · refine ite_shiftAt (fun _ => rfl) fun _ => ite_shiftAt (fun _ => rfl) fun hrest =>
        ite_shiftAt (fun _ => rfl) fun _ => ?_
      have hskip := (o.suffix_skip (c.advance (tableBody?.lineEnd c.rest)) 4).length_le
      have hall := (LineStart.suffix_skipAll
        ((o.enterAll (c.advance (tableBody?.lineEnd c.rest)).lineStart).2.skip 4).2).length_le
      refine ih _ ((hall.trans hskip).trans_lt (hnext.trans_le (by omega)))
        ((hall.trans hskip).trans_lt (hnext.trans_le (by omega))) ?_
      rintro hnil
      apply hrest
      rw [LineStart.atEol, show LineStart.rest _ = [] from hnil]
      rfl

theorem textBlock_shift {f₁ f₂ : Nat} {c : Cursor} (h₁ : c.rest.length < f₁) (h₂ : c.rest.length < f₂)
    (hne : c.rest ≠ []) : (o.shift d before).textBlock f₁ (c.shift d) = shiftAt d before (o.textBlock f₂ c) := by
  simp only [textBlock, startsFootnote_shift, Cursor.shift_rest, tableBody?_shift]
  refine ite_shiftAt (fun _ => rfl) fun _ => ?_
  cases hb : o.tableBody? c with
  | none => exact paragraph_shift [] h₁ h₂ hne
  | some body =>
    have hbody := length_tableBody?_lt hb
    simp only [Option.map_some, tableRows_shift (hbody.trans h₁) (hbody.trans h₂), Cursor.span_shift]
    exact congrArg (·, _) (add_shift d before o (.table _))

theorem getD_blankLine?_shift (c : Cursor) :
    ((c.shift d).blankLine?.getD (c.shift d)) = (c.blankLine?.getD c).shift d := by
  rw [Cursor.blankLine?_shift]
  cases c.blankLine? <;> rfl

theorem leafHeading_shift (c : Cursor) (level : Nat) :
    leaf.heading (o.shift d before) (c.shift d) level = shiftAt d before (leaf.heading o c level) := by
  have hadd (s : Span) : (o.shift d before).add (.heading [s.shift d]) = (o.add (.heading [s])).shift d before :=
    add_shift d before o (.heading [s])
  simp only [leaf.heading, Cursor.advance_shift, Cursor.shift_rest, Cursor.nextLine_shift]
  cases eol? (c.advance level).rest <;> simp only [Cursor.span_shift, hadd] <;> rfl

theorem leaf_shift {f₁ f₂ : Nat} (indent : Nat) {c : Cursor} (h₁ : c.rest.length < f₁) (h₂ : c.rest.length < f₂)
    (hne : c.rest ≠ []) : (o.shift d before).leaf f₁ indent (c.shift d) = shiftAt d before (o.leaf f₂ indent c) := by
  simp only [leaf, Cursor.shift_rest, enterLabel_shift, enterDefinition_shift, Cursor.advance_shift,
    Cursor.nextLine_shift, getD_blankLine?_shift]
  split
  · exact htmlBlock_shift _ h₁ h₂ hne
  · split
    · rfl
    · split
      · exact leafHeading_shift c _
      · split
        · rfl
        · split
          · next mark marks _ =>
            have hline : (c.advance marks).nextLine.rest.length ≤ c.rest.length :=
              ((List.drop_suffix ..).trans (List.drop_suffix ..)).length_le
            exact fencedCode_shift c indent mark marks (hline.trans_lt h₁) (hline.trans_lt h₂)
          · exact textBlock_shift h₁ h₂ hne

/-- The place or the line that the containers of a line are opened up to. -/
def shiftOpened (d : Nat) (before : List Block) (r : Outline × (LineStart ⊕ Cursor)) :
    Outline × (LineStart ⊕ Cursor) :=
  (r.1.shift d before, r.2.map id (Cursor.shift d))

theorem openAll_shift (start : Cursor) {f₁ f₂ : Nat} {l : LineStart} (h₁ : l.rest.length < f₁)
    (h₂ : l.rest.length < f₂) :
    openAll f₁ (o.shift d before) (start.shift d) l = shiftOpened d before (openAll f₂ o start l) := by
  induction f₁ generalizing f₂ o l with
  | zero => omega
  | succ f₁ ih =>
    obtain _ | f₂ := f₂
    · omega
    simp only [openAll, Cursor.upTo_shift, Cursor.shift_offset, continueList_shift, open'_shift, Cursor.blankLine?_shift,
      finishList_shift]
    cases hm : l.listMarker? with
    | some marker =>
      obtain ⟨marker, indent, next⟩ := marker
      have hnext := LineStart.length_listMarker?_lt hm
      dsimp only
      cases hb : (start.upTo next).blankLine? with
      | some c => rfl
      | none =>
        dsimp only [Option.map_none]
        cases ht : next.taskBox? with
        | none => exact ih (by omega) (by omega)
        | some inner =>
          have hinner := LineStart.length_taskBox?_le ht
          have hadd (o : Outline) : (o.shift d before).add .taskBox = (o.add .taskBox).shift d before :=
            add_shift d before o .taskBox
          dsimp only
          rw [hadd]
          exact ih (by omega) (by omega)
    | none =>
      cases hq : l.quoteMark? with
      | some next =>
        have hnext := LineStart.length_quoteMark?_lt hq
        exact ih (by omega) (by omega)
      | none => rfl

theorem leafFrom_shift {f₁ f₂ : Nat} (start : Cursor) {l : LineStart} (h₁ : l.rest.length < f₁)
    (h₂ : l.rest.length < f₂) :
    leafFrom f₁ (o.shift d before) (start.shift d) l = shiftAt d before (leafFrom f₂ o start l) := by
  have hindent := (l.suffix_indent 4).length_le
  have hfinish : ({ o.shift d before with startsItem := false } : Outline).finishList (d + start.offset) =
      (({ o with startsItem := false } : Outline).finishList start.offset).shift d before :=
    finishList_shift d before { o with startsItem := false } start.offset
  simp only [leafFrom, Cursor.upTo_shift, Cursor.blankLine?_shift, Cursor.shift_offset, hfinish, blankLine_shift]
  cases hb : (start.upTo l).blankLine? with
  | some c => rfl
  | none =>
    have hne : (l.indent 4).2.rest ≠ [] := LineStart.skip_ne_nil (by simpa [Cursor.blankLine?, Cursor.upTo] using hb) 4
    refine ite_shiftAt (fun _ => ?_) fun _ => ?_
    · exact indentedCode_shift _ (hindent.trans_lt h₁) (hindent.trans_lt h₂) hne false
    · exact leaf_shift _ (hindent.trans_lt h₁) (hindent.trans_lt h₂) hne

theorem blockFrom_shift {f₁ f₂ : Nat} (start : Cursor) {l : LineStart} (h₁ : l.rest.length < f₁)
    (h₂ : l.rest.length < f₂) :
    blockFrom f₁ (o.shift d before) (start.shift d) l = shiftAt d before (blockFrom f₂ o start l) := by
  rw [blockFrom, openAll_shift start h₁ h₂, blockFrom]
  rcases hopened : openAll f₂ o start l with ⟨o', next | c⟩
  · have hle : next.rest.length ≤ l.rest.length := by
      rcases openAll_progress hopened with ⟨hr, -⟩ | hless
      · cases hr
        exact le_rfl
      · exact hless.le
    exact leafFrom_shift start (hle.trans_lt h₁) (hle.trans_lt h₂)
  · rfl

theorem block_shift {f₁ f₂ : Nat} {start : Cursor} (h₁ : start.rest.length < f₁) (h₂ : start.rest.length < f₂) :
    (o.shift d before).block f₁ (start.shift d) = shiftAt d before (o.block f₂ start) := by
  have hcontinued : (o.shift d before).continued (start.shift d) = (o.continued start).shift d before := by
    simp [continued]
  have henter := (o.suffix_enterAll start).length_le
  rw [block_eq, block_eq, hcontinued, enterAll_shift, enterLabel_shift, Cursor.lineStart_shift]
  cases footnoteLabel? (o.continued start).enterLabel (o.enterAll start.lineStart).2.rest with
  | none => exact blockFrom_shift start (henter.trans_lt h₁) (henter.trans_lt h₂)
  | some n =>
    have hc := (Cursor.suffix_getD_blankLine? ((start.upTo (o.enterAll start.lineStart).2).advance n)).length_le.trans
      ((List.drop_suffix ..).length_le.trans henter)
    simp only [Cursor.upTo_shift, Cursor.advance_shift, getD_blankLine?_shift, Cursor.shift_offset, finishList_shift,
      open'_shift]
    exact blockFrom_shift _ (hc.trans_lt h₁) (hc.trans_lt h₂)

/-- The blocks of a text are those that are read from it on in any place where no container is open. -/
theorem readAll_shift {f₁ f₂ : Nat} {c : Cursor} (h₁ : 2 * c.rest.length < f₁) (h₂ : 2 * c.rest.length < f₂) :
    readAll f₁ (o.shift d before) (c.shift d) = (readAll f₂ o c).shift d before := by
  induction f₁ generalizing f₂ o c with
  | zero => omega
  | succ f₁ ih =>
    obtain _ | f₂ := f₂
    · omega
    simp only [readAll, Cursor.shift_rest, Cursor.shift_offset, closeTo_shift]
    split
    · rfl
    · next hrest =>
      have hne : c.rest ≠ [] := by simpa using hrest
      have hpos := List.length_pos_iff.2 hne
      obtain ⟨f₂, rfl⟩ := Nat.exists_eq_succ_of_ne_zero (show f₂ ≠ 0 by omega)
      have hless := length_block_lt (o := o) f₂ hne
      have hblock : (o.shift d before).block f₁ (c.shift d) = shiftAt d before (o.block (f₂ + 1) c) :=
        block_shift (by omega) (by omega)
      rw [hblock]
      exact ih (by omega) (by omega)

end Outline

end ComponentDocs.Markdown
