import ComponentDocs.Proofs.Markdown.Places
/-! Reading a block gets on: it takes a character at least, so a document is read in as many steps as it
has characters. -/
namespace ComponentDocs.Markdown

theorem eol?_cons {c : Char} (h : isEol c = true) (cs : List Char) : ∃ n, eol? (c :: cs) = some (n + 1) := by
  simp only [isEol, Bool.or_eq_true, beq_iff_eq] at h
  rcases h with rfl | rfl
  · exact ⟨0, rfl⟩
  · cases cs with
    | nil => exact ⟨0, rfl⟩
    | cons d cs =>
      by_cases hd : d = '\n'
      · subst hd
        exact ⟨1, rfl⟩
      · exact ⟨0, by simp [eol?, hd]⟩

theorem blankLine?_pos {cs : List Char} {n : Nat} (hne : cs ≠ []) (h : blankLine? cs = some n) : 0 < n := by
  obtain ⟨k, hk, rfl⟩ := Option.map_eq_some_iff.1 h
  obtain ⟨c, cs, rfl⟩ := List.exists_cons_of_ne_nil hne
  rcases Nat.eq_zero_or_pos (spaceRun (c :: cs)) with hrun | hrun
  · rw [hrun, List.drop_zero] at hk
    have hc : isEol c = true := by
      by_contra hc
      simp only [isEol, Bool.or_eq_true, beq_iff_eq, not_or] at hc
      simp [eol?, hc] at hk
    obtain ⟨m, hm⟩ := eol?_cons hc cs
    rw [hm] at hk
    cases hk
    omega
  · omega

theorem thematicBreak?_pos {cs : List Char} {n : Nat} (h : thematicBreak? cs = some n) : 0 < n := by
  have hgo (mark : Char) (marks length : Nat) (cs : List Char) :
      ∀ n, thematicBreak?.go mark marks length cs = some n → length ≤ n := by
    induction cs generalizing marks length with
    | nil => simp +contextual [thematicBreak?.go]
    | cons c cs ih =>
      intro n h
      unfold thematicBreak?.go at h
      split at h
      · split at h
        · cases h
          omega
        · cases h
      · split at h
        · exact Nat.le_of_succ_le (ih _ _ _ h)
        · split at h
          · exact Nat.le_of_succ_le (ih _ _ _ h)
          · cases h
  cases cs with
  | nil => cases h
  | cons mark cs =>
    simp only [thematicBreak?] at h
    split at h
    · exact hgo _ _ _ _ _ h
    · cases h

theorem atxLevel?_pos {cs : List Char} {level : Nat} (h : atxLevel? cs = some level) : 0 < level := by
  simp only [atxLevel?] at h
  split at h
  · next hlevel =>
    cases h
    simp only [Bool.and_eq_true, decide_eq_true_eq] at hlevel
    exact hlevel.1.1
  · cases h

theorem codeFence?_pos {cs : List Char} {mark : Char} {marks : Nat} (h : codeFence? cs = some (mark, marks)) :
    0 < marks := by
  cases cs with
  | nil => cases h
  | cons c cs =>
    simp only [codeFence?] at h
    grind

theorem definition?_pos {enterLabel enter : List Char → Option Nat} {cs : List Char} {n : Nat}
    (h : definition? enterLabel enter cs = some n) : 0 < n := by
  unfold definition? at h
  split at h
  · obtain ⟨label, -, h⟩ := Option.bind_eq_some_iff.1 h
    split at h
    · obtain ⟨body, -, rfl⟩ := Option.map_eq_some_iff.1 h
      omega
    · cases h
  · cases h

theorem footnoteLabel?_pos {enter : List Char → Option Nat} {cs : List Char} {n : Nat}
    (h : footnoteLabel? enter cs = some n) : cs ≠ [] ∧ 0 < n := by
  unfold footnoteLabel? at h
  split at h
  · obtain ⟨label, -, h⟩ := Option.bind_eq_some_iff.1 h
    split at h
    · cases h
      exact ⟨by simp, by omega⟩
    · cases h
  · cases h

theorem Container.enterAll_nil (cs : List Container) : (enterAll { rest := [] } cs).2 = { rest := [] } := by
  induction cs with
  | nil => rfl
  | cons c outer ih =>
    rw [enterAll]
    dsimp only
    rw [ih]
    split
    · cases c with
      | blockQuote => rfl
      | item indent => simp [enter?, LineStart.skip, LineStart.skip.go, LineStart.atEol]
      | list | footnote => rfl
    · rfl

namespace Cursor
variable (c : Cursor)

theorem suffix_advance (n : Nat) : (c.advance n).rest <:+ c.rest := List.drop_suffix ..

theorem suffix_nextLine : c.nextLine.rest <:+ c.rest := c.suffix_advance _

theorem suffix_getD_blankLine? : (c.blankLine?.getD c).rest <:+ c.rest := by
  unfold blankLine?
  cases Markdown.blankLine? c.rest with
  | none => exact List.suffix_rfl
  | some n => exact c.suffix_advance n

variable {c}

theorem length_advance_lt (hne : c.rest ≠ []) {n : Nat} (hn : 0 < n) : (c.advance n).rest.length < c.rest.length := by
  have hpos := List.length_pos_iff.2 hne
  simp only [advance, List.length_drop]
  omega

theorem length_nextLine_lt (hne : c.rest ≠ []) : c.nextLine.rest.length < c.rest.length := by
  obtain ⟨d, ds, hds⟩ := List.exists_cons_of_ne_nil hne
  refine length_advance_lt hne ?_
  rw [hds, lineLength]
  split <;> omega

theorem length_lineEnd_lt (hne : c.rest ≠ []) :
    (c.advance (Outline.tableBody?.lineEnd c.rest)).rest.length < c.rest.length := by
  obtain ⟨d, ds, hds⟩ := List.exists_cons_of_ne_nil hne
  refine length_advance_lt hne ?_
  rw [hds]
  unfold Outline.tableBody?.lineEnd
  cases hd : isEol d with
  | false => simp [hd]
  | true =>
    obtain ⟨n, hn⟩ := eol?_cons hd ds
    simp [hd, hn]

theorem length_blankLine?_lt (hne : c.rest ≠ []) {next : Cursor} (h : c.blankLine? = some next) :
    next.rest.length < c.rest.length := by
  obtain ⟨n, hn, rfl⟩ := Option.map_eq_some_iff.1 h
  exact length_advance_lt hne (blankLine?_pos hne hn)

end Cursor

namespace Outline
variable (o : Outline)

theorem suffix_enterAll (c : Cursor) : (o.enterAll c.lineStart).2.rest <:+ c.rest := Container.suffix_enterAll ..

theorem suffix_skip (c : Cursor) (n : Nat) : ((o.enterAll c.lineStart).2.skip n).2.rest <:+ c.rest :=
  (LineStart.suffix_skip ..).trans (o.suffix_enterAll c)

theorem suffix_ite {p : Prop} [Decidable p] {x y : Outline × Cursor} {cs : List Char} (hx : x.2.rest <:+ cs)
    (hy : y.2.rest <:+ cs) : (if p then x else y).2.rest <:+ cs := by
  split
  · exact hx
  · exact hy

theorem suffix_indentedCode (start : Cursor) (fuel : Nat) (stop line : Cursor) (blank : Bool) :
    (o.indentedCode start (fuel + 1) stop line blank).2.rest <:+ line.nextLine.rest := by
  induction fuel using Nat.strong_induction_on generalizing stop line blank with
  | _ fuel ih =>
    have hfurther (stop line : Cursor) (blank : Bool) :
        (o.indentedCode start fuel stop line blank).2.rest <:+ line.rest := by
      cases fuel with
      | zero => exact List.suffix_rfl
      | succ fuel => exact (ih fuel (Nat.lt_succ_self fuel) ..).trans line.suffix_nextLine
    rw [indentedCode]
    refine suffix_ite List.suffix_rfl (suffix_ite List.suffix_rfl (suffix_ite List.suffix_rfl ?_))
    exact (hfurther ..).trans (o.suffix_skip line.nextLine 4)

theorem suffix_fencedCode (start : Cursor) (indent : Nat) (mark : Char) (marks fuel : Nat) (c : Cursor) :
    (o.fencedCode start indent mark marks fuel c).2.rest <:+ c.rest := by
  have hfinish (c : Cursor) : (fencedCode.finish o start c).2.rest <:+ c.rest := c.suffix_getD_blankLine?
  induction fuel generalizing c with
  | zero => exact hfinish c
  | succ fuel ih =>
    have hskip := o.suffix_skip c indent
    rw [fencedCode]
    refine suffix_ite (hfinish c) ?_
    dsimp only
    split
    · exact (hfinish _).trans ((List.drop_suffix ..).trans ((LineStart.suffix_skip ..).trans hskip))
    · exact (ih _).trans ((Cursor.suffix_nextLine _).trans hskip)

theorem suffix_htmlBlock (mark : Option (List Char)) (fuel : Nat) (c : Cursor) :
    (htmlBlock mark (fuel + 1) o c).2.rest <:+ c.nextLine.rest := by
  induction fuel using Nat.strong_induction_on generalizing o c with
  | _ fuel ih =>
    have hfurther (o : Outline) (c : Cursor) : (htmlBlock mark fuel o c).2.rest <:+ c.rest := by
      cases fuel with
      | zero => exact List.suffix_rfl
      | succ fuel => exact (ih fuel (Nat.lt_succ_self fuel) ..).trans c.suffix_nextLine
    rw [htmlBlock]
    refine suffix_ite List.suffix_rfl ?_
    dsimp only
    refine suffix_ite List.suffix_rfl ?_
    exact (hfurther ..).trans (suffix_enterAll _ c.nextLine)

theorem suffix_tableRows (fuel : Nat) (c : Cursor) : (o.tableRows fuel c).rest <:+ c.rest := by
  induction fuel generalizing c with
  | zero => exact List.suffix_rfl
  | succ fuel ih =>
    rw [tableRows]
    dsimp only
    split
    · exact List.suffix_rfl
    · exact (ih _).trans ((Cursor.suffix_advance ..).trans ((LineStart.suffix_skipAll _).trans (o.suffix_enterAll c)))

theorem suffix_paragraph (fuel : Nat) (lines : List Span) (c : Cursor) :
    (o.paragraph (fuel + 1) lines c).2.rest <:+ (c.advance (tableBody?.lineEnd c.rest)).rest := by
  induction fuel using Nat.strong_induction_on generalizing lines c with
  | _ fuel ih =>
    have hfurther (lines : List Span) (c : Cursor) : (o.paragraph fuel lines c).2.rest <:+ c.rest := by
      cases fuel with
      | zero => exact List.suffix_rfl
      | succ fuel => exact (ih fuel (Nat.lt_succ_self fuel) ..).trans (c.suffix_advance _)
    have hskip := o.suffix_skip (c.advance (tableBody?.lineEnd c.rest)) 4
    have hall := (LineStart.suffix_skipAll _).trans hskip
    rw [paragraph]
    dsimp only
    split
    · exact (List.drop_suffix ..).trans hskip
    · refine suffix_ite List.suffix_rfl (suffix_ite List.suffix_rfl (suffix_ite hall ?_))
      exact (hfurther ..).trans hall

variable {o}

theorem length_tableBody?_lt {c body : Cursor} (h : o.tableBody? c = some body) : body.rest.length < c.rest.length := by
  simp only [tableBody?] at h
  split at h
  · cases h
  · next hrow =>
    have hne : c.rest ≠ [] := by
      rintro hnil
      simp [Cursor.advance, hnil] at hrow
    split at h
    · cases h
    · split at h
      · cases h
        exact ((List.drop_suffix ..).trans (o.suffix_enterAll _)).length_le.trans_lt (Cursor.length_lineEnd_lt hne)
      · cases h

/-- A leaf block takes a character, unless a footnote begins. -/
theorem leaf_progress (fuel indent : Nat) {c : Cursor} (hne : c.rest ≠ []) :
    (o.leaf (fuel + 1) indent c).2.rest.length < c.rest.length ∨
      o.startsFootnote c.rest = true ∧ o.leaf (fuel + 1) indent c = (o, c) := by
  unfold leaf
  split
  · exact .inl ((o.suffix_htmlBlock ..).length_le.trans_lt (Cursor.length_nextLine_lt hne))
  · split
    · next n hn => exact .inl (Cursor.length_advance_lt hne (thematicBreak?_pos hn))
    · split
      · next level hlevel =>
        refine .inl (lt_of_le_of_lt ?_ (Cursor.length_advance_lt hne (atxLevel?_pos hlevel)))
        refine List.IsSuffix.length_le ?_
        dsimp only [leaf.heading]
        split
        · exact Cursor.suffix_advance ..
        · exact (Cursor.suffix_nextLine _).trans (Cursor.suffix_advance ..)
      · split
        · next n hn =>
          exact .inl ((Cursor.suffix_getD_blankLine? _).length_le.trans_lt
            (Cursor.length_advance_lt hne (definition?_pos hn)))
        · split
          · next mark marks hfence =>
            exact .inl (((o.suffix_fencedCode ..).trans (Cursor.suffix_nextLine _)).length_le.trans_lt
              (Cursor.length_advance_lt hne (codeFence?_pos hfence)))
          · unfold textBlock
            split
            · next hstarts => exact .inr ⟨hstarts, rfl⟩
            · split
              · next body hbody =>
                exact .inl ((o.suffix_tableRows ..).length_le.trans_lt (length_tableBody?_lt hbody))
              · exact .inl ((o.suffix_paragraph ..).length_le.trans_lt (Cursor.length_lineEnd_lt hne))

theorem containers_add (o : Outline) (b : Block) : (o.add b).containers = o.containers := by
  obtain ⟨spine, blocks, s, a⟩ := o
  cases spine <;> rfl

theorem containers_loosen (o : Outline) (n : Nat) : (o.loosen n).containers = o.containers := by
  unfold loosen
  split
  · refine List.ext_getElem? fun i => ?_
    simp only [containers, List.getElem?_map, List.getElem?_modify]
    split
    · cases o.spine[i]? <;> rfl
    · simp
  · rfl

theorem containers_close (o : Outline) (stop : Nat) : (o.close stop).containers = o.containers.tail := by
  obtain ⟨spine, blocks, s, a⟩ := o
  cases spine with
  | nil => rfl
  | cons c outer => exact containers_add ⟨outer, blocks, s, a⟩ (c.toBlock stop)

theorem enterAll_le_length (l : LineStart) (cs : List Container) : (Container.enterAll l cs).1 ≤ cs.length := by
  induction cs with
  | nil => exact le_rfl
  | cons c outer ih =>
    rw [Container.enterAll]
    dsimp only
    split
    · split
      · exact Nat.succ_le_succ ih
      · exact Nat.le_succ_of_le ih
    · exact Nat.le_succ_of_le ih

theorem enterLabel_eq (o : Outline) (cs : List Char) : o.enterLabel cs =
    if endsText ((Container.enterAll { rest := cs } o.containers).1 = o.containers.length)
      (Container.enterAll { rest := cs } o.containers).2.rest then none
    else some (Container.enterAll { rest := cs } o.containers).2.scanned := by
  have hlength : o.containers.length = o.spine.length := List.length_map ..
  rw [hlength]
  rfl

theorem enterLabel_of_list {o inner : Outline} {marker : Char} (h : inner.containers = .list marker :: o.containers) :
    inner.enterLabel = o.enterLabel := by
  funext cs
  have hle := enterAll_le_length { rest := cs } o.containers
  rw [enterLabel_eq, enterLabel_eq, h, Container.enterAll]
  dsimp only [Container.enter?]
  split
  · next hall => simp [hall]
  · next hsome =>
    rw [List.length_cons, decide_eq_false (show ¬ _ = o.containers.length + 1 by omega), decide_eq_false hsome]

theorem startsFootnote_finishList (stop : Nat) (cs : List Char) :
    (o.finishList stop).startsFootnote cs = o.startsFootnote cs := by
  have hlabel : (o.finishList stop).enterLabel = o.enterLabel := by
    have hsame {o o' : Outline} (h : o'.containers = o.containers) : o'.enterLabel = o.enterLabel := by
      funext cs
      rw [enterLabel_eq, enterLabel_eq, h]
    unfold finishList
    rw [hsame (containers_loosen ..)]
    split
    · next marker outer hlist =>
      refine (enterLabel_of_list (show _ = Container.list marker :: _ from ?_)).symm
      rw [containers_close, hlist, List.tail_cons]
    · rfl
  rw [startsFootnote, startsFootnote, hlabel]

/-- Every container that is opened takes its mark from the line. -/
theorem openAll_progress {fuel : Nat} {start : Cursor} {l : LineStart} {o' : Outline} {r : LineStart ⊕ Cursor}
    (h : openAll fuel o start l = (o', r)) :
    r = .inl l ∧ o' = o ∨ (r.elim LineStart.rest Cursor.rest).length < l.rest.length := by
  induction fuel generalizing o l with
  | zero =>
    cases h
    exact .inl ⟨rfl, rfl⟩
  | succ fuel ih =>
    have hfurther {o : Outline} {next : LineStart} (hnext : next.rest.length < l.rest.length)
        (h : openAll fuel o start next = (o', r)) : (r.elim LineStart.rest Cursor.rest).length < l.rest.length := by
      rcases ih h with ⟨rfl, -⟩ | hr
      · exact hnext
      · exact hr.trans hnext
    simp only [openAll] at h
    cases hm : l.listMarker? with
    | some marker =>
      obtain ⟨marker, indent, next⟩ := marker
      have hnext := LineStart.length_listMarker?_lt hm
      simp only [hm] at h
      cases hb : (start.upTo next).blankLine? with
      | some c =>
        simp only [hb] at h
        cases h
        obtain ⟨n, -, rfl⟩ := Option.map_eq_some_iff.1 hb
        exact .inr ((List.drop_suffix ..).length_le.trans_lt hnext)
      | none =>
        simp only [hb] at h
        cases ht : next.taskBox? with
        | none =>
          simp only [ht] at h
          exact .inr (hfurther hnext h)
        | some inner =>
          simp only [ht] at h
          exact .inr (hfurther ((LineStart.length_taskBox?_le ht).trans_lt hnext) h)
    | none =>
      simp only [hm] at h
      cases hq : l.quoteMark? with
      | some next =>
        simp only [hq] at h
        exact .inr (hfurther (LineStart.length_quoteMark?_lt hq) h)
      | none =>
        simp only [hq] at h
        cases h
        exact .inl ⟨rfl, rfl⟩

def leafFrom (fuel : Nat) (o : Outline) (start : Cursor) (l : LineStart) : Outline × Cursor :=
  match (start.upTo l).blankLine? with
  | some next => (o.blankLine start.offset, next)
  | none =>
    let o := { o with startsItem := false }.finishList start.offset
    let c := start.upTo (l.indent 4).2
    if (l.indent 4).1 = 4 then o.indentedCode c fuel c c false else o.leaf fuel (l.indent 4).1 c

/-- Reads one block from a line on, of which `l` is left. -/
def blockFrom (fuel : Nat) (o : Outline) (start : Cursor) (l : LineStart) : Outline × Cursor :=
  match openAll fuel o start l with
  | (o, .inr c) => (o, c)
  | (o, .inl l) => leafFrom fuel o start l

/-- The containers that a line goes on in stay open. -/
def continued (o : Outline) (start : Cursor) : Outline :=
  (o.closeTo (o.enterAll start.lineStart).1 start.offset).closeFootnote start.offset

/-- A block begins on a line behind the marks of the containers that are open, or behind the label of a footnote. -/
theorem block_eq (fuel : Nat) (start : Cursor) : o.block fuel start =
    match footnoteLabel? (o.continued start).enterLabel (o.enterAll start.lineStart).2.rest with
    | some n =>
      let here := start.upTo (o.enterAll start.lineStart).2
      let c := (here.advance n).blankLine?.getD (here.advance n)
      blockFrom fuel (((o.continued start).finishList here.offset).open' .footnote here.offset) c c.lineStart
    | none => blockFrom fuel (o.continued start) start (o.enterAll start.lineStart).2 := by
  have hcontinued : (closeTo (o.enterAll start.lineStart).1 start.offset o).closeFootnote start.offset =
      o.continued start := rfl
  unfold block
  dsimp only
  rw [hcontinued]
  cases footnoteLabel? (o.continued start).enterLabel (o.enterAll start.lineStart).2.rest <;> rfl

theorem leafFrom_progress (fuel : Nat) (start : Cursor) (l : LineStart) :
    (leafFrom (fuel + 1) o start l).2.rest.length < l.rest.length ∨
      (leafFrom (fuel + 1) o start l).2.rest = l.rest ∧ (l.rest = [] ∨ o.startsFootnote l.rest = true) := by
  unfold leafFrom
  split
  · next next hb =>
    by_cases hne : l.rest = []
    · obtain ⟨n, -, rfl⟩ := Option.map_eq_some_iff.1 hb
      exact .inr ⟨by simp [Cursor.advance, Cursor.upTo, hne], .inl hne⟩
    · exact .inl (Cursor.length_blankLine?_lt hne hb)
  · next hb =>
    have hindent := l.suffix_indent 4
    have hne : (l.indent 4).2.rest ≠ [] := LineStart.skip_ne_nil (by simpa [Cursor.blankLine?, Cursor.upTo] using hb) 4
    dsimp only
    split
    · exact .inl ((suffix_indentedCode ..).length_le.trans_lt
        ((Cursor.length_nextLine_lt (c := start.upTo (l.indent 4).2) hne).trans_le hindent.length_le))
    · rcases leaf_progress (o := { o with startsItem := false }.finishList start.offset) fuel (l.indent 4).1
        (c := start.upTo (l.indent 4).2) hne with hless | ⟨hstarts, hleaf⟩
      · exact .inl (hless.trans_le hindent.length_le)
      · rw [hleaf]
        rcases hindent.length_le.lt_or_eq with hless | heq
        · exact .inl hless
        · have heq := hindent.eq_of_length heq
          rw [startsFootnote_finishList] at hstarts
          exact .inr ⟨heq, .inr (heq ▸ hstarts)⟩

theorem blockFrom_progress (fuel : Nat) (start : Cursor) (l : LineStart) :
    (blockFrom (fuel + 1) o start l).2.rest.length < l.rest.length ∨
      (blockFrom (fuel + 1) o start l).2.rest = l.rest ∧ (l.rest = [] ∨ o.startsFootnote l.rest = true) := by
  unfold blockFrom
  split
  · next o' c hopen =>
    rcases openAll_progress hopen with ⟨hr, -⟩ | hless
    · cases hr
    · exact .inl hless
  · next o' next hopen =>
    rcases openAll_progress hopen with ⟨hr, rfl⟩ | hless
    · cases hr
      exact leafFrom_progress fuel start l
    · rcases leafFrom_progress (o := o') fuel start next with hleaf | ⟨hleaf, -⟩
      · exact .inl (hleaf.trans hless)
      · exact .inl (hleaf ▸ hless)

/-- Reading a block takes a character at least. -/
theorem length_block_lt (fuel : Nat) {start : Cursor} (hne : start.rest ≠ []) :
    (o.block (fuel + 1) start).2.rest.length < start.rest.length := by
  have henter := (o.suffix_enterAll start).length_le
  rw [block_eq]
  split
  · next n hn =>
    obtain ⟨hlabel, hpos⟩ := footnoteLabel?_pos hn
    have hless := Cursor.length_advance_lt (c := start.upTo (o.enterAll start.lineStart).2) hlabel hpos
    have hblank := (Cursor.suffix_getD_blankLine? ((start.upTo (o.enterAll start.lineStart).2).advance n)).length_le
    refine lt_of_le_of_lt ?_ (hblank.trans_lt (hless.trans_le henter))
    rcases blockFrom_progress fuel _ _ with hle | ⟨heq, -⟩
    · exact hle.le
    · exact heq ▸ le_rfl
  · next hlabel =>
    rcases blockFrom_progress (o := o.continued start) fuel start (o.enterAll start.lineStart).2 with
      hless | ⟨heq, hnil | hstarts⟩
    · exact hless.trans_le henter
    · rw [heq, hnil]
      exact List.length_pos_iff.2 hne
    · rw [startsFootnote, hlabel] at hstarts
      cases hstarts

end Outline

end ComponentDocs.Markdown
