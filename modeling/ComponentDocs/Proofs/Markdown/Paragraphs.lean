import ComponentDocs.Proofs.Markdown.Advance
/-! The paragraphs of a document. Each of their lines goes up to a line ending, and the next one begins behind marks of
containers on a line at which no paragraph ends. -/
namespace ComponentDocs.Markdown

namespace Block

mutual

/-- The lines of each of the paragraphs in a block. -/
def paragraphs : Block → List (List Span)
  | .paragraph lines => [lines]
  | .text lines => [lines]
  | .nested _ _ _ blocks => paragraphsOfAll blocks
  | _ => []

def paragraphsOfAll : List Block → List (List Span)
  | [] => []
  | b :: bs => b.paragraphs ++ paragraphsOfAll bs

end

theorem mem_paragraphsOfAll_iff {lines : List Span} {bs : List Block} :
    lines ∈ paragraphsOfAll bs ↔ ∃ b ∈ bs, lines ∈ b.paragraphs := by
  induction bs with
  | nil => simp [paragraphsOfAll]
  | cons b bs ih => rw [paragraphsOfAll, List.mem_append, ih, List.exists_mem_cons_iff]

/-- All paragraphs in the block have a property. -/
def Holds (P : List Span → Prop) (b : Block) : Prop := ∀ lines ∈ b.paragraphs, P lines

theorem holds_of_paragraphs_eq_nil {P : List Span → Prop} {b : Block} (h : b.paragraphs = []) : b.Holds P := by
  rw [Holds, h]
  exact List.forall_mem_nil _

end Block

/-- A line behind the last one of a paragraph in some containers goes on with the paragraph: behind the marks of the
containers comes no text that ends it, unless four columns of white space are before it, and a text comes. -/
structure GoesOn (containers : List Container) (cs : List Char) : Prop where
  text : ((Container.enterAll { rest := cs } containers).2.skip 4).1 ≠ 0 →
    Outline.endsText ((Container.enterAll { rest := cs } containers).1 = containers.length)
      ((Container.enterAll { rest := cs } containers).2.skip 4).2.rest = false
  filled : ((Container.enterAll { rest := cs } containers).2.skip 4).2.skipAll.atEol = false

/-- A line of a paragraph, and the place where the next one begins. -/
structure Continues (document : List Char) (s : Span) (next : Nat) : Prop where
  start_le : s.start ≤ s.stop
  stop_le : s.stop ≤ next
  line : '\n' ∉ (document.drop s.start).take (s.stop - 1 - s.start)
  marks : '\n' ∉ (document.drop s.stop).take (next - s.stop)
  goesOn : ∃ containers, GoesOn containers (document.drop s.stop)

/-- Each line of a paragraph but the last one is followed by a line that goes on with it. -/
def IsRun (document : List Char) (lines : List Span) : Prop :=
  lines.IsChain fun s u => Continues document s u.start

/-- Blocks with a property are in a container with it, where that ends at a place. -/
def Nests (Q : Block → Prop) (stop : Nat) : Prop :=
  ∀ (c : Container) (isTight : Bool) (start : Nat) (blocks : List Block), (∀ b ∈ blocks, Q b) →
    Q (.nested c isTight ⟨start, stop⟩ blocks)

/-- All blocks that are read have a property, containers where they end before the end of the document. -/
structure Inherits (document : List Char) (Q : Block → Prop) : Prop where
  code (s : Span) : Q (.code s)
  html (s : Span) : Q (.html s)
  heading (lines : List Span) : Q (.heading lines)
  table (s : Span) : Q (.table s)
  taskBox : Q .taskBox
  paragraph {lines : List Span} (h : IsRun document lines) : Q (.paragraph lines)
  nested {stop : Nat} (h : stop < document.length) : Nests Q stop

theorem Block.nests_holds (document : List Char) (stop : Nat) : Nests (Block.Holds (IsRun document)) stop := by
  intro _ _ _ _ h lines hlines
  obtain ⟨b, hb, hmem⟩ := mem_paragraphsOfAll_iff.1 hlines
  exact h b hb lines hmem

theorem Block.inherits_holds (document : List Char) : Inherits document (Block.Holds (IsRun document)) where
  code _ := holds_of_paragraphs_eq_nil rfl
  html _ := holds_of_paragraphs_eq_nil rfl
  heading _ := holds_of_paragraphs_eq_nil rfl
  table _ := holds_of_paragraphs_eq_nil rfl
  taskBox := holds_of_paragraphs_eq_nil rfl
  paragraph h := by simpa [Holds, paragraphs] using h
  nested _ := nests_holds document _

namespace Outline
variable {Q : Block → Prop} {o : Outline}

structure Holds (Q : Block → Prop) (o : Outline) : Prop where
  blocks : ∀ b ∈ o.blocks, Q b
  spine : ∀ c ∈ o.spine, ∀ b ∈ c.blocks, Q b

theorem Holds.add (h : o.Holds Q) {b : Block} (hb : Q b) : (o.add b).Holds Q := by
  obtain ⟨spine, blocks, s, a⟩ := o
  cases spine with
  | nil => exact ⟨List.forall_mem_cons.2 ⟨hb, h.blocks⟩, h.spine⟩
  | cons c outer =>
    obtain ⟨hc, houter⟩ := List.forall_mem_cons.1 h.spine
    exact ⟨h.blocks, List.forall_mem_cons.2 ⟨List.forall_mem_cons.2 ⟨hb, hc⟩, houter⟩⟩

theorem Holds.open' (h : o.Holds Q) (c : Container) (start : Nat) : (o.open' c start).Holds Q :=
  ⟨h.blocks, List.forall_mem_cons.2 ⟨by simp, h.spine⟩⟩

theorem Holds.close (h : o.Holds Q) {stop : Nat} (hn : Nests Q stop) : (o.close stop).Holds Q := by
  obtain ⟨spine, blocks, s, a⟩ := o
  cases spine with
  | nil => exact h
  | cons c outer =>
    obtain ⟨hc, houter⟩ := List.forall_mem_cons.1 h.spine
    have hrest : Holds Q { spine := outer, blocks, startsItem := s, afterBlank := a } := ⟨h.blocks, houter⟩
    exact hrest.add (hn _ _ _ _ fun b hb => hc b (List.mem_reverse.1 hb))

theorem Holds.closeTo (h : o.Holds Q) (n : Nat) {stop : Nat} (hn : Nests Q stop) : (o.closeTo n stop).Holds Q := by
  unfold Outline.closeTo
  induction o.spine.length - n with
  | zero => exact h
  | succ k ih =>
    rw [List.range_succ, List.foldl_append]
    exact ih.close hn

theorem Holds.loosen (h : o.Holds Q) (n : Nat) : (o.loosen n).Holds Q := by
  unfold Outline.loosen
  split
  · refine ⟨h.blocks, fun c hc => ?_⟩
    obtain ⟨i, hi, rfl⟩ := List.getElem_of_mem hc
    rw [List.length_modify] at hi
    rw [List.getElem_modify]
    split <;> exact h.spine o.spine[i] (List.getElem_mem hi)
  · exact h

theorem Holds.finishList (h : o.Holds Q) {stop : Nat} (hn : Nests Q stop) : (o.finishList stop).Holds Q := by
  unfold Outline.finishList
  refine Holds.loosen ?_ 1
  split
  · exact h.close hn
  · exact h

theorem Holds.continueList (h : o.Holds Q) (marker : Char) {start : Nat} (hn : Nests Q start) :
    (o.continueList marker start).Holds Q := by
  have hbegin {o : Outline} (h : o.Holds Q) :
      Holds Q { o.open' (.list marker) start with afterBlank := false } := by
    have hopen := h.open' (.list marker) start
    exact ⟨hopen.blocks, hopen.spine⟩
  unfold Outline.continueList
  dsimp only
  split
  · exact hbegin h
  · split
    · exact h.loosen 0
    · exact hbegin (h.finishList hn)
  · exact hbegin (h.finishList hn)

theorem Holds.blankLine (h : o.Holds Q) {start : Nat} (hn : Nests Q start) : (o.blankLine start).Holds Q := by
  unfold Outline.blankLine
  split
  · exact h
  · exact h
  · split
    · exact ⟨(h.close hn).blocks, (h.close hn).spine⟩
    · exact ⟨h.blocks, h.spine⟩

theorem Holds.closeFootnote (h : o.Holds Q) {start : Nat} (hn : Nests Q start) : (o.closeFootnote start).Holds Q := by
  unfold Outline.closeFootnote
  split
  · split
    · exact h.close hn
    · exact h
  · exact h

theorem Holds.continued (h : o.Holds Q) {start : Cursor} (hn : Nests Q start.offset) : (o.continued start).Holds Q :=
  (h.closeTo _ hn).closeFootnote hn

/-- Reading on from a place in the document, all blocks have the property. -/
def Reads (document : List Char) (Q : Block → Prop) (r : Outline × Cursor) : Prop :=
  r.1.Holds Q ∧ r.2.In document

variable {document : List Char}

theorem reads_ite {p : Prop} [Decidable p] {x y : Outline × Cursor} (hx : Reads document Q x)
    (hy : ¬ p → Reads document Q y) : Reads document Q (if p then x else y) := by
  split
  · exact hx
  · next h => exact hy h

theorem on_enterAll (o : Outline) (c : Cursor) : (o.enterAll c.lineStart).2.On c.rest :=
  (LineStart.On.start c.rest).enterAll _

theorem reads_indentedCode (hQ : Inherits document Q) (h : o.Holds Q) (start : Cursor) (fuel : Nat) {stop line : Cursor} (hline : line.In document)
    (blank : Bool) : Reads document Q (o.indentedCode start fuel stop line blank) := by
  have hadd (stop : Cursor) (blank : Bool) :
      Holds Q ({ o with afterBlank := blank }.add (.code (start.span stop))) := by
    have hblank : Holds Q { o with afterBlank := blank } := ⟨h.blocks, h.spine⟩
    exact hblank.add (hQ.code _)
  induction fuel generalizing stop line blank with
  | zero => exact ⟨hadd stop blank, hline⟩
  | succ fuel ih =>
    have hdone := And.intro (hadd (if blank then stop else line.nextLine) blank) hline.nextLine
    rw [indentedCode]
    exact reads_ite hdone fun _ => reads_ite hdone fun _ => reads_ite hdone fun _ =>
      ih (hline.nextLine.upTo ((o.on_enterAll _).skip 4)) _

theorem reads_fencedCode (hQ : Inherits document Q) (h : o.Holds Q) (start : Cursor) (indent : Nat) (mark : Char) (marks fuel : Nat) {c : Cursor}
    (hc : c.In document) : Reads document Q (o.fencedCode start indent mark marks fuel c) := by
  have hfinish {c : Cursor} (hc : c.In document) : Reads document Q (fencedCode.finish o start c) :=
    ⟨h.add (hQ.code _), hc.getD_blankLine?⟩
  induction fuel generalizing c with
  | zero => exact hfinish hc
  | succ fuel ih =>
    have hskip := (o.on_enterAll c).skip indent
    rw [fencedCode]
    refine reads_ite (hfinish hc) fun _ => ?_
    dsimp only
    split
    · exact hfinish ((hc.upTo (hskip.skip 4)).advance _)
    · exact ih (hc.upTo hskip).nextLine

theorem reads_htmlBlock (hQ : Inherits document Q) (mark : Option (List Char)) (fuel : Nat) (h : o.Holds Q) {c : Cursor} (hc : c.In document) :
    Reads document Q (htmlBlock mark fuel o c) := by
  induction fuel generalizing o c with
  | zero => exact ⟨h, hc⟩
  | succ fuel ih =>
    have hadd : Holds Q (o.add (.html (c.span c.nextLine))) := h.add (hQ.html _)
    have hdone := And.intro hadd hc.nextLine
    rw [htmlBlock]
    refine reads_ite hdone fun _ => ?_
    dsimp only
    exact reads_ite hdone fun _ => ih hadd (hc.nextLine.upTo (on_enterAll _ _))

theorem tableRows_in (fuel : Nat) {c : Cursor} (hc : c.In document) : (o.tableRows fuel c).In document := by
  induction fuel generalizing c with
  | zero => exact hc
  | succ fuel ih =>
    rw [tableRows]
    dsimp only
    split
    · exact hc
    · exact ih ((hc.upTo (o.on_enterAll c).skipAll).advance _)

theorem tableBody?_in {c body : Cursor} (hc : c.In document) (h : o.tableBody? c = some body) : body.In document := by
  simp only [tableBody?] at h
  split at h
  · cases h
  · split at h
    · cases h
    · split at h
      · cases h
        exact ((hc.advance _).upTo (o.on_enterAll _)).advance _
      · cases h

theorem newline_not_mem_lineEnd (cs : List Char) : '\n' ∉ cs.take (tableBody?.lineEnd cs - 1) := by
  have hline : '\n' ∉ cs.take (cs.takeWhile fun d => !isEol d).length := by
    rw [LineStart.On.take_length_takeWhile]
    exact LineStart.On.newline_not_mem_takeWhile (by decide) cs
  unfold tableBody?.lineEnd
  generalize (cs.takeWhile fun d => !isEol d).length = n at hline
  have hless {k : Nat} (hk : k ≤ 1) : '\n' ∉ cs.take (n + k - 1) := fun hmem =>
    hline (List.take_subset_take_left cs (by omega) hmem)
  dsimp only
  rcases hrest : cs.drop n with _ | ⟨d, rest⟩
  · exact hless (Nat.zero_le 1)
  · unfold eol?
    split
    · exact hless (Nat.zero_le 1)
    · exact hless le_rfl
    · next after he =>
      have hreturn : cs.take (n + 1) = cs.take n ++ ['\r'] := by rw [List.take_add, hrest, he]; rfl
      rw [Option.getD_some, show n + 2 - 1 = n + 1 by omega, hreturn]
      simpa using hline
    · exact hless le_rfl
    · exact hless (Nat.zero_le 1)

theorem goesOn_enterAll (o : Outline) (c : Cursor)
    (hends : ¬ (((o.enterAll c.lineStart).2.skip 4).1 ≠ 0 && endsText ((o.enterAll c.lineStart).1 = o.spine.length)
      ((o.enterAll c.lineStart).2.skip 4).2.rest) = true)
    (heol : ¬ ((o.enterAll c.lineStart).2.skip 4).2.skipAll.atEol = true) : GoesOn o.containers c.rest := by
  have hlength : o.containers.length = o.spine.length := List.length_map ..
  refine ⟨fun hmissing => ?_, Bool.eq_false_iff.2 heol⟩
  rw [hlength]
  refine Bool.eq_false_iff.2 fun htext => hends ?_
  rw [Bool.and_eq_true, decide_eq_true_eq]
  exact ⟨hmissing, htext⟩

theorem continues_upTo {c : Cursor} (hc : c.In document) {containers : List Container} {l : LineStart}
    (hl : l.On (c.advance (tableBody?.lineEnd c.rest)).rest)
    (hgoes : GoesOn containers (c.advance (tableBody?.lineEnd c.rest)).rest) :
    Continues document (c.span (c.advance (tableBody?.lineEnd c.rest)))
      ((c.advance (tableBody?.lineEnd c.rest)).upTo l).offset := by
  have hnext := hc.advance (tableBody?.lineEnd c.rest)
  have hmarks := hl.newline_not_mem
  rw [show Cursor.rest _ = _ from hnext] at hgoes hmarks
  have hline := newline_not_mem_lineEnd c.rest
  generalize tableBody?.lineEnd c.rest = n at *
  rw [show c.rest = document.drop c.offset from hc] at hline
  refine ⟨Nat.le_add_right .., Nat.le_add_right .., ?_, ?_, containers, hgoes⟩
  · change '\n' ∉ (document.drop c.offset).take (c.offset + n - 1 - c.offset)
    rwa [show c.offset + n - 1 - c.offset = n - 1 by omega]
  · change '\n' ∉ (document.drop (c.offset + n)).take (c.offset + n + l.scanned - (c.offset + n))
    rwa [Nat.add_sub_cancel_left]

theorem reads_paragraph (hQ : Inherits document Q) (h : o.Holds Q) (fuel : Nat) {lines : List Span} {c : Cursor}
    (hc : c.In document) (hlines : lines.IsChain fun u s => Continues document s u.start)
    (hhead : ∀ s ∈ lines.head?, Continues document s c.offset) :
    Reads document Q (o.paragraph fuel lines c) := by
  have hadd {lines : List Span} (hlines : lines.IsChain fun u s => Continues document s u.start) :
      Holds Q (o.add (.paragraph lines.reverse)) := by
    exact h.add (hQ.paragraph (List.isChain_reverse.2 hlines))
  induction fuel generalizing lines c with
  | zero => exact ⟨hadd hlines, hc⟩
  | succ fuel ih =>
    have hnext := hc.advance (tableBody?.lineEnd c.rest)
    have hskip := (o.on_enterAll (c.advance (tableBody?.lineEnd c.rest))).skip 4
    have hrun : (c.span (c.advance (tableBody?.lineEnd c.rest)) :: lines).IsChain
        fun u s => Continues document s u.start := List.isChain_cons.2 ⟨hhead, hlines⟩
    have htext (hollow : Bool) : Holds Q (o.add (.paragraph
        (if hollow then [] else (c.span (c.advance (tableBody?.lineEnd c.rest)) :: lines).reverse))) := by
      cases hollow with
      | true => exact hadd .nil
      | false => exact hadd hrun
    rw [paragraph]
    dsimp only
    split
    · exact ⟨h.add (hQ.heading _), (hnext.upTo hskip).advance _⟩
    · have hfurther := hnext.upTo hskip.skipAll
      refine reads_ite ⟨htext _, hnext⟩ fun hends => reads_ite ⟨htext _, hnext⟩ fun heol =>
        reads_ite ⟨hadd hrun, hfurther⟩ fun _ => ih hfurther hrun ?_
      rintro s ⟨⟩
      exact continues_upTo hc hskip.skipAll (goesOn_enterAll o _ hends heol)

theorem reads_textBlock (hQ : Inherits document Q) (h : o.Holds Q) (fuel : Nat) {c : Cursor} (hc : c.In document) :
    Reads document Q (o.textBlock fuel c) := by
  unfold textBlock
  refine reads_ite ⟨h, hc⟩ fun _ => ?_
  cases hb : o.tableBody? c with
  | some body => exact ⟨h.add (hQ.table _), tableRows_in fuel (tableBody?_in hc hb)⟩
  | none => exact reads_paragraph hQ h fuel hc .nil (by simp)

theorem reads_leaf (hQ : Inherits document Q) (h : o.Holds Q) (fuel indent : Nat) {c : Cursor} (hc : c.In document) :
    Reads document Q (o.leaf fuel indent c) := by
  unfold leaf
  split
  · exact reads_htmlBlock hQ _ fuel h hc
  · split
    · exact ⟨h, hc.advance _⟩
    · split
      · next level _ =>
        refine ⟨h.add (hQ.heading _), ?_⟩
        dsimp only [leaf.heading]
        split
        · exact (hc.advance level).advance _
        · exact ((hc.advance level).advance _).nextLine
      · split
        · exact ⟨h, (hc.advance _).getD_blankLine?⟩
        · split
          · exact reads_fencedCode hQ h c indent _ _ fuel (hc.advance _).nextLine
          · exact reads_textBlock hQ h fuel hc

theorem Nests.of_in (hQ : Inherits document Q) {c : Cursor} (hc : c.In document) (hne : c.rest ≠ []) :
    Nests Q c.offset := by
  refine hQ.nested ?_
  rw [show c.rest = document.drop c.offset from hc] at hne
  exact Nat.lt_of_not_le fun hle => hne (List.drop_of_length_le hle)

theorem reads_openAll (hQ : Inherits document Q) (fuel : Nat) (h : o.Holds Q) {start : Cursor}
    (hstart : start.In document) (hn : Nests Q start.offset) {l : LineStart} (hl : l.On start.rest) {o' : Outline}
    {r : LineStart ⊕ Cursor} (hopen : openAll fuel o start l = (o', r)) :
    o'.Holds Q ∧ r.elim (LineStart.On start.rest) (Cursor.In document) := by
  induction fuel generalizing o l with
  | zero =>
    cases hopen
    exact ⟨h, hl⟩
  | succ fuel ih =>
    simp only [openAll] at hopen
    cases hm : l.listMarker? with
    | some marker =>
      obtain ⟨marker, indent, next⟩ := marker
      have hnext := hl.listMarker? hm
      have hrest : l.rest ≠ [] := by
        rintro hnil
        have hless := LineStart.length_listMarker?_lt hm
        simp [hnil] at hless
      have hitem := (h.continueList marker (Nests.of_in hQ (hstart.upTo hl) hrest)).open' (.item indent)
        (start.upTo l).offset
      simp only [hm] at hopen
      cases hb : (start.upTo next).blankLine? with
      | some c =>
        simp only [hb] at hopen
        cases hopen
        exact ⟨⟨hitem.blocks, hitem.spine⟩, (hstart.upTo hnext).blankLine? hb⟩
      | none =>
        simp only [hb] at hopen
        cases ht : next.taskBox? with
        | none =>
          simp only [ht] at hopen
          exact ih hitem hnext hopen
        | some inner =>
          simp only [ht] at hopen
          exact ih (hitem.add hQ.taskBox) (hnext.taskBox? ht) hopen
    | none =>
      simp only [hm] at hopen
      cases hq : l.quoteMark? with
      | some next =>
        simp only [hq] at hopen
        exact ih ((h.finishList hn).open' _ _) (hl.quoteMark? hq) hopen
      | none =>
        simp only [hq] at hopen
        cases hopen
        exact ⟨h, hl⟩

theorem reads_leafFrom (hQ : Inherits document Q) (h : o.Holds Q) (fuel : Nat) {start : Cursor}
    (hstart : start.In document) (hn : Nests Q start.offset) {l : LineStart} (hl : l.On start.rest) :
    Reads document Q (leafFrom fuel o start l) := by
  unfold leafFrom
  cases hb : (start.upTo l).blankLine? with
  | some next => exact ⟨h.blankLine hn, (hstart.upTo hl).blankLine? hb⟩
  | none =>
    have hfinish : Holds Q ({ o with startsItem := false }.finishList start.offset) := by
      have hitem : Holds Q { o with startsItem := false } := ⟨h.blocks, h.spine⟩
      exact hitem.finishList hn
    have hc := hstart.upTo (hl.indent 4)
    exact reads_ite (reads_indentedCode hQ hfinish _ fuel hc false) fun _ => reads_leaf hQ hfinish fuel _ hc

theorem reads_blockFrom (hQ : Inherits document Q) (h : o.Holds Q) (fuel : Nat) {start : Cursor}
    (hstart : start.In document) (hn : Nests Q start.offset) {l : LineStart} (hl : l.On start.rest) :
    Reads document Q (blockFrom fuel o start l) := by
  unfold blockFrom
  split
  · next o' c hopen => exact reads_openAll hQ fuel h hstart hn hl hopen
  · next o' next hopen =>
    obtain ⟨ho', hnext⟩ := reads_openAll hQ fuel h hstart hn hl hopen
    exact reads_leafFrom hQ ho' fuel hstart hn hnext

theorem rest_blockFrom_of_nil (o : Outline) (fuel : Nat) (start : Cursor) {l : LineStart} (hl : l.rest = []) :
    (blockFrom fuel o start l).2.rest = [] := by
  unfold blockFrom
  split
  · next hopen =>
    rcases openAll_progress hopen with ⟨hr, -⟩ | hless
    · cases hr
    · simp [hl] at hless
  · next hopen =>
    rcases openAll_progress hopen with ⟨hr, -⟩ | hless
    · cases hr
      have hblank : (start.upTo l).blankLine? = some ((start.upTo l).advance 0) := by
        simp [Cursor.blankLine?, Cursor.upTo, hl, blankLine?, spaceRun, eol?]
      rw [leafFrom, hblank]
      simp [Cursor.advance, Cursor.upTo, hl]
    · simp [hl] at hless

/-- Where the document comes to its end, containers may end too. -/
theorem reads_block (hQ : Inherits document Q) (h : o.Holds Q) (fuel : Nat) {start : Cursor}
    (hstart : start.In document) (hne : start.rest ≠ [])
    (hend : (o.block fuel start).2.rest = [] → ∀ stop, Nests Q stop) : Reads document Q (o.block fuel start) := by
  have hn := Nests.of_in hQ hstart hne
  have hcontinued := h.continued hn
  rw [block_eq] at hend ⊢
  split
  · next n hlabel =>
    have hhere := hstart.upTo (o.on_enterAll start)
    have hc := (hhere.advance n).getD_blankLine?
    have hmark : (start.upTo (o.enterAll start.lineStart).2).rest ≠ [] := by
      rintro hnil
      simp [Cursor.upTo] at hnil
      simp [hnil, footnoteLabel?] at hlabel
    have hmarks := (hcontinued.finishList (Nests.of_in hQ hhere hmark)).open' .footnote
      (start.upTo (o.enterAll start.lineStart).2).offset
    simp only [hlabel] at hend ⊢
    generalize (((start.upTo (o.enterAll start.lineStart).2).advance n).blankLine?.getD
      ((start.upTo (o.enterAll start.lineStart).2).advance n)) = c at *
    have hinner : Nests Q c.offset := by
      by_cases hnil : c.rest = []
      · exact hend (rest_blockFrom_of_nil _ fuel c hnil) _
      · exact Nests.of_in hQ hc hnil
    exact reads_blockFrom hQ hmarks fuel hc hinner (.start _)
  · exact reads_blockFrom hQ hcontinued fuel hstart hn (o.on_enterAll start)

theorem holds_readAll (hQ : Inherits document Q) (hend : ∀ stop, Nests Q stop) (fuel : Nat) (h : o.Holds Q)
    {c : Cursor} (hc : c.In document) : (readAll fuel o c).Holds Q := by
  induction fuel generalizing o c with
  | zero => exact h.closeTo 0 (hend _)
  | succ fuel ih =>
    rw [readAll]
    split
    · exact h.closeTo 0 (hend _)
    · next hmore =>
      obtain ⟨hblock, hnext⟩ := reads_block hQ h fuel hc (by simpa using hmore) fun _ => hend
      exact ih hblock hnext

end Outline

end ComponentDocs.Markdown
