import ComponentDocs.Proofs.Markdown.Closed
/-! Reading a closed text. What is read of it does not depend on what comes after it. -/
namespace ComponentDocs.Markdown

variable {cs : List Char}

/-- What is left of a closed text at some place in it. -/
def Tail (cs : List Char) : Prop := cs = [] ∨ Closing cs

theorem drop_lineLength (h : '\n' ∈ cs) : ∃ line, '\n' ∉ line ∧ cs = line ++ '\n' :: cs.drop (lineLength cs) := by
  induction cs with
  | nil => cases h
  | cons c cs ih =>
    rw [lineLength]
    split
    · next hc =>
      obtain rfl : c = '\n' := eq_of_beq hc
      exact ⟨[], by simp, rfl⟩
    · next hc =>
      have hne : c ≠ '\n' := by simpa using hc
      obtain ⟨line, hline, hcs⟩ := ih (mem_of_mem_cons h hne)
      refine ⟨c :: line, ?_, congrArg (c :: ·) hcs⟩
      rw [List.mem_cons, not_or]
      exact ⟨hne.symm, hline⟩

theorem Closed.nextLine (h : Closed cs) : Closing (cs.drop (lineLength cs)) := by
  obtain ⟨line, hline, hcs⟩ := drop_lineLength h.mem
  have hdrop : Closed (cs.drop line.length) := by
    refine h.drop ?_
    rwa [hcs, List.take_left]
  have hlast : cs.drop line.length = '\n' :: cs.drop (lineLength cs) := by
    conv_lhs => rw [hcs]
    exact List.drop_left
  rw [hlast] at hdrop
  exact hdrop.next

theorem Closing.tail_of_drop (h : Closing cs) {n : Nat} (hclosed : Closed cs → Closing (cs.drop n)) (hn : 0 < n) :
    Tail (cs.drop n) := by
  rcases h with rfl | h
  · exact .inl (List.drop_eq_nil_of_le hn)
  · exact .inr (hclosed h)

theorem Closing.nextLine (h : Closing cs) : Tail (cs.drop (lineLength cs)) := by
  refine h.tail_of_drop Closed.nextLine ?_
  obtain ⟨c, cs, rfl⟩ := List.exists_cons_of_ne_nil (List.ne_nil_of_mem h.mem)
  rw [lineLength]
  split <;> omega

theorem lineEnd_append (h : '\n' ∈ cs) (v : List Char) :
    Outline.tableBody?.lineEnd (cs ++ v) = Outline.tableBody?.lineEnd cs := by
  have hline := takeWhile_append (p := fun d => !isEol d) (by decide) h v
  have hrest := mem_dropWhile (p := fun d => !isEol d) (by decide) h
  have hdrop := dropWhile_append (p := fun d => !isEol d) (by decide) h v
  rw [← drop_takeWhile, ← drop_takeWhile, hline] at hdrop
  rw [← drop_takeWhile] at hrest
  simp only [Outline.tableBody?.lineEnd, hline, hdrop, eol?_append hrest]

theorem Closed.lineEnd (h : Closed cs) : Closing (cs.drop (Outline.tableBody?.lineEnd cs)) := by
  have hclosed : Closed (cs.drop (cs.takeWhile fun d => !isEol d).length) := by
    refine h.drop ?_
    rw [LineStart.On.take_length_takeWhile]
    exact LineStart.On.newline_not_mem_takeWhile (by decide) cs
  have hend : ∃ n, eol? (cs.drop (cs.takeWhile fun d => !isEol d).length) = some n := by
    obtain ⟨c, rest, hrest⟩ := List.exists_cons_of_ne_nil (List.ne_nil_of_mem hclosed.mem)
    have hc : isEol c = true := by
      have hnot := List.head_dropWhile_not (fun d => !isEol d) (w := by
        rw [← drop_takeWhile, hrest]
        simp) (l := cs)
      simpa [← drop_takeWhile, hrest] using hnot
    obtain ⟨n, hn⟩ := eol?_cons hc rest
    exact ⟨n + 1, by rw [hrest, hn]⟩
  obtain ⟨n, hn⟩ := hend
  rw [Outline.tableBody?.lineEnd, hn, ← List.drop_drop]
  exact (hclosed.afterEol hn).1

theorem Closing.blankLine? (h : Closing cs) {n : Nat} (hb : blankLine? cs = some n) : Tail (cs.drop n) :=
  h.tail_of_drop (fun hclosed => hclosed.blankLine? hb) (blankLine?_pos (List.ne_nil_of_mem h.mem) hb)

theorem eol?_le {n : Nat} (h : eol? cs = some n) : n ≤ cs.length := by
  unfold eol? at h
  split at h
  · cases h
    exact Nat.zero_le _
  · cases h
    exact Nat.succ_le_succ (Nat.zero_le _)
  · cases h
    exact Nat.succ_le_succ (Nat.succ_le_succ (Nat.zero_le _))
  · cases h
    exact Nat.succ_le_succ (Nat.zero_le _)
  · cases h

theorem blankLine?_le {n : Nat} (h : blankLine? cs = some n) : n ≤ cs.length := by
  obtain ⟨k, hk, rfl⟩ := Option.map_eq_some_iff.1 h
  have hle := eol?_le hk
  have hrun : spaceRun cs ≤ cs.length := (List.takeWhile_prefix _).length_le
  rw [List.length_drop] at hle
  omega

theorem lineEnd_le (cs : List Char) : Outline.tableBody?.lineEnd cs ≤ cs.length := by
  have hline : (cs.takeWhile fun d => !isEol d).length ≤ cs.length := (List.takeWhile_prefix _).length_le
  rw [Outline.tableBody?.lineEnd]
  cases hn : eol? (cs.drop (cs.takeWhile fun d => !isEol d).length) with
  | none => exact hline
  | some n =>
    have hle := eol?_le hn
    rw [List.length_drop] at hle
    rw [Option.getD_some]
    omega

theorem Closed.dropRun (h : Closed cs) {mark : Char} (hmark : mark ≠ '\n') : Closed (cs.drop (run mark cs)) := by
  refine h.drop ?_
  rw [run, LineStart.On.take_length_takeWhile]
  exact LineStart.On.newline_not_mem_takeWhile (by simpa using hmark.symm) cs

theorem Closing.setextUnderline? (h : Closing cs) {n : Nat} (hn : setextUnderline? cs = some n) :
    Closing (cs.drop n) := by
  obtain ⟨mark, cs, rfl⟩ := List.exists_cons_of_ne_nil (List.ne_nil_of_mem h.mem)
  rw [Markdown.setextUnderline?] at hn
  split at hn
  · next hmark =>
    have hne : mark ≠ '\n' := by rintro rfl; exact absurd hmark (by decide)
    have hclosed : Closed (mark :: cs) := h.resolve_left fun he => hne (List.cons_eq_cons.1 he).1
    obtain ⟨k, hk, rfl⟩ := Option.map_eq_some_iff.1 hn
    have hblank := ((hclosed.tail hne).dropRun hne).blankLine? hk
    rwa [← List.drop_drop, Nat.add_comm 1, List.drop_succ_cons]
  · cases hn

theorem Closed.mem_drop_one (h : Closed cs) : '\n' ∈ cs.drop 1 := by
  obtain ⟨c, cs, rfl⟩ := List.exists_cons_of_ne_nil (List.ne_nil_of_mem h.mem)
  by_cases hc : c = '\n'
  · subst hc
    exact h.next.mem
  · exact (h.tail hc).mem

namespace Cursor
variable {c : Cursor} (v : List Char)

/-- The place with some text behind the document. -/
def append (c : Cursor) (v : List Char) : Cursor := { c with rest := c.rest ++ v }

@[simp] theorem append_rest : (c.append v).rest = c.rest ++ v := rfl

@[simp] theorem append_offset : (c.append v).offset = c.offset := rfl

theorem append_inj {c' : Cursor} (h : c.append v = c'.append v) : c = c' := by
  obtain ⟨i, cs⟩ := c
  obtain ⟨j, ds⟩ := c'
  simpa [append] using h

@[simp] theorem lineStart_append : (c.append v).lineStart = c.lineStart.append v := rfl

@[simp] theorem upTo_append (l : LineStart) : (c.append v).upTo (l.append v) = (c.upTo l).append v := rfl

@[simp] theorem span_append (c' : Cursor) : (c.append v).span (c'.append v) = c.span c' := rfl

theorem advance_append {n : Nat} (hn : n ≤ c.rest.length) : (c.append v).advance n = (c.advance n).append v := by
  simp [advance, append, List.drop_append_of_le_length hn]

theorem nextLine_append (h : '\n' ∈ c.rest) : (c.append v).nextLine = c.nextLine.append v := by
  rw [nextLine, append_rest, lineLength_append h, advance_append v (lineLength_le _)]
  rfl

theorem lineEnd_append (h : '\n' ∈ c.rest) : (c.append v).advance (Outline.tableBody?.lineEnd (c.append v).rest) =
    (c.advance (Outline.tableBody?.lineEnd c.rest)).append v := by
  rw [append_rest, Markdown.lineEnd_append h, advance_append v (lineEnd_le _)]

theorem blankLine?_append (h : '\n' ∈ c.rest) : (c.append v).blankLine? = c.blankLine?.map (append · v) := by
  rw [Cursor.blankLine?, append_rest, Markdown.blankLine?_append h, Cursor.blankLine?]
  cases hb : Markdown.blankLine? c.rest with
  | none => rfl
  | some n => exact congrArg some (advance_append v (blankLine?_le hb))

theorem getD_blankLine?_append (h : '\n' ∈ c.rest) :
    ((c.append v).blankLine?.getD (c.append v)) = (c.blankLine?.getD c).append v := by
  rw [blankLine?_append v h]
  cases c.blankLine? <;> rfl

theorem closing_getD_blankLine? (h : Closed c.rest) : Closing (c.blankLine?.getD c).rest := by
  rw [Cursor.blankLine?]
  cases hb : Markdown.blankLine? c.rest with
  | none => exact .inr h
  | some n => exact h.blankLine? hb

end Cursor

namespace Outline
variable (o : Outline) (v : List Char)

/-- What is read, and some text behind it. -/
def appendAt (v : List Char) (r : Outline × Cursor) : Outline × Cursor := (r.1, r.2.append v)

theorem enterAll_lineStart_append {c : Cursor} (h : '\n' ∈ c.rest) : o.enterAll (c.append v).lineStart =
    ((o.enterAll c.lineStart).1, (o.enterAll c.lineStart).2.append v) :=
  Container.enterAll_append (l := c.lineStart) h v _

theorem on_enterAll_lineStart (c : Cursor) : (o.enterAll c.lineStart).2.On c.rest := (LineStart.On.start c.rest).enterAll _

theorem paragraph_append {f₁ f₂ : Nat} (lines : List Span) {c : Cursor} (h : Closed c.rest) (h₁ : c.rest.length < f₁)
    (h₂ : c.rest.length < f₂) :
    o.paragraph f₁ lines (c.append v) = appendAt v (o.paragraph f₂ lines c) ∧
      Tail (o.paragraph f₂ lines c).2.rest := by
  induction f₁ generalizing f₂ lines c with
  | zero => omega
  | succ f₁ ih =>
    obtain _ | f₂ := f₂
    · omega
    have hnext : Closing (c.advance (tableBody?.lineEnd c.rest)).rest := h.lineEnd
    have hless := Cursor.length_lineEnd_lt (List.ne_nil_of_mem h.mem)
    simp only [paragraph, c.lineEnd_append v h.mem, Cursor.span_append]
    generalize c.advance (tableBody?.lineEnd c.rest) = next at *
    have hon := (o.on_enterAll_lineStart next).skip 4
    have hinner := hon.closing hnext
    have hall := hon.skipAll.closing hnext
    rw [o.enterAll_lineStart_append v hnext.mem]
    dsimp only
    have henter : '\n' ∈ (o.enterAll next.lineStart).2.rest := ((o.on_enterAll_lineStart next).closing hnext).mem
    rw [LineStart.skip_append henter]
    have hhead : (c.append v).rest.head? = c.rest.head? := head?_append h.mem v
    have hsecond : ((c.append v).rest.drop 1).head? = (c.rest.drop 1).head? := by
      rw [Cursor.append_rest, List.drop_append_of_le_length (Nat.one_le_of_lt (List.length_pos_of_mem h.mem)),
        head?_append h.mem_drop_one]
    have hmore : (next.append v).rest.isEmpty = next.rest.isEmpty := by
      rw [List.isEmpty_eq_false_iff.2 (List.ne_nil_of_mem hnext.mem), List.isEmpty_eq_false_iff]
      exact List.append_ne_nil_of_left_ne_nil (List.ne_nil_of_mem hnext.mem) v
    rw [hhead, hsecond, hmore]
    have hshort := ((LineStart.suffix_skipAll _).trans (o.suffix_skip next 4)).length_le
    generalize (o.enterAll next.lineStart).2.skip 4 = skipped at *
    generalize (o.enterAll next.lineStart).1 = n at *
    obtain ⟨missing, l⟩ := skipped
    dsimp only at *
    have hunderline : setextUnderline? ((next.append v).upTo (l.append v)).rest = setextUnderline? (next.upTo l).rest :=
      setextUnderline?_append hinner.mem v
    have hends (inside : Bool) : endsText inside ((next.append v).upTo (l.append v)).rest =
        endsText inside (next.upTo l).rest := endsText_append hinner inside v
    rw [hunderline, hends, LineStart.skipAll_append hinner.mem, LineStart.atEol_append hall.mem]
    generalize hk : (if (decide (missing ≠ 0) && decide (n = o.spine.length)) = true then
      setextUnderline? (next.upTo l).rest else none) = underline
    cases underline with
    | some k =>
      have hheading : Closing ((next.upTo l).rest.drop k) := by
        split at hk
        · exact hinner.setextUnderline? hk
        · cases hk
      dsimp only
      rw [Cursor.upTo_append, Cursor.advance_append v hheading.length_le]
      exact ⟨rfl, .inr hheading⟩
    | none =>
    dsimp only
    split
    · exact ⟨rfl, .inr hnext⟩
    split
    · exact ⟨rfl, .inr hnext⟩
    · next heol =>
      have hfurther : Closed l.skipAll.rest := hall.resolve_left (by rintro he; exact heol (by rw [LineStart.atEol, he]; rfl))
      have hstarts : o.startsFootnote ((next.append v).upTo (l.skipAll.append v)).rest =
          o.startsFootnote (next.upTo l.skipAll).rest := o.startsFootnote_append hfurther v
      rw [hstarts]
      split
      · exact ⟨rfl, .inr (.inr hfurther)⟩
      · have hless' : (next.upTo l.skipAll).rest.length < c.rest.length := hshort.trans_lt hless
        exact ih _ (show Closed (next.upTo l.skipAll).rest from hfurther) (by omega) (by omega)

end Outline

theorem Closed.delimiterRest (h : Closed cs) (columns : Nat) (fresh : Bool) (length : Nat) :
    ∃ m ≤ cs.length, (delimiterRest columns fresh length cs).1 = length + m ∧ Closing (cs.drop m) := by
  induction cs generalizing columns fresh length with
  | nil => cases h.mem
  | cons c cs ih =>
    have hfurther (hc : ¬ isEol c = true) (columns : Nat) (fresh : Bool) :
        ∃ m ≤ (c :: cs).length, (Markdown.delimiterRest columns fresh (length + 1) cs).1 = length + m ∧
          Closing ((c :: cs).drop m) := by
      obtain ⟨m, hle, hm, hclosing⟩ := ih (h.tail (by rintro rfl; exact hc rfl)) columns fresh (length + 1)
      exact ⟨m + 1, Nat.succ_le_succ hle, by omega, hclosing⟩
    rw [Markdown.delimiterRest]
    split
    · next hc =>
      obtain ⟨n, hn⟩ := eol?_cons hc cs
      exact ⟨n + 1, eol?_le hn, by rw [hn]; rfl, (h.afterEol hn).1⟩
    · next hc =>
      split
      · exact hfurther hc _ _
      · split
        · exact hfurther hc _ _
        · split
          · exact hfurther hc _ _
          · exact ⟨0, Nat.zero_le _, rfl, .inr h⟩

theorem Closed.delimiterRow? (h : Closed cs) {length columns : Nat}
    (hrow : delimiterRow? cs = some (length, columns)) : Closing (cs.drop length) := by
  have hindent := h.drop (newline_not_mem_delimiterIndent h.mem)
  rw [Markdown.delimiterRow?] at hrow
  generalize delimiterIndent cs = r at hrow hindent
  obtain ⟨i, spaces⟩ := r
  dsimp only at hrow hindent
  obtain ⟨c, rest, hrest⟩ := List.exists_cons_of_ne_nil (List.ne_nil_of_mem hindent.mem)
  have hread : ∃ m, length = i + m ∧ Closing ((cs.drop i).drop m) := by
    rw [hrest] at hrow hindent ⊢
    dsimp only at hrow
    split at hrow
    · cases hrow
    by_cases hc : c = '|'
    · subst hc
      obtain ⟨m, -, hm, hclosing⟩ := (hindent.tail (by decide)).delimiterRest 0 true (i + 1)
      rw [beq_self_eq_true, if_pos rfl] at hrow
      split at hrow
      · cases hrow
      · cases hrow
        exact ⟨m + 1, by omega, hclosing⟩
    · obtain ⟨m, -, hm, hclosing⟩ := hindent.delimiterRest 0 true i
      rw [beq_eq_false_iff_ne.2 hc, if_neg Bool.false_ne_true] at hrow
      split at hrow
      · cases hrow
      · cases hrow
        exact ⟨m, hm, hclosing⟩
  obtain ⟨m, rfl, hclosing⟩ := hread
  rwa [List.drop_drop] at hclosing

namespace Container

/-- A blank line does not go on in a block quote. -/
theorem not_mem_of_enterAll_newline {v : List Char} {cs : List Container}
    (h : (enterAll { rest := '\n' :: v } cs).1 = cs.length) : .blockQuote ∉ cs := by
  induction cs with
  | nil => simp
  | cons c outer ih =>
    rw [enterAll] at h
    dsimp only at h
    have hon := (LineStart.On.start ('\n' :: v)).enterAll outer
    have hline := hon.rest_newline
    split at h
    · next hall =>
      cases hc : c.enter? (enterAll { rest := '\n' :: v } outer).2 with
      | none =>
        rw [hc] at h
        simp [hall] at h
      | some inner =>
        rw [List.mem_cons, not_or]
        refine ⟨?_, ih hall⟩
        rintro rfl
        have hskip := (hon.skip 3).rest_newline
        simp [enter?, LineStart.quoteMark?, hskip] at hc
    · next hsome =>
      have hle := Outline.enterAll_le_length { rest := '\n' :: v } outer
      rw [List.length_cons] at h
      omega

end Container

namespace Outline
variable (o : Outline) (v : List Char)

theorem not_mem_of_entered (h : ¬ (o.enterAll { rest := '\n' :: v }).1 < o.spine.length) :
    .blockQuote ∉ o.containers := by
  have hle := enterAll_le_length { rest := '\n' :: v } o.containers
  have hlength : o.containers.length = o.spine.length := List.length_map ..
  rw [enterAll] at h
  exact Container.not_mem_of_enterAll_newline (v := v) (by omega)

theorem tableRows_append {f₁ f₂ : Nat} {c : Cursor} (h : Closing c.rest) (h₁ : c.rest.length < f₁)
    (h₂ : c.rest.length < f₂) :
    o.tableRows f₁ (c.append v) = (o.tableRows f₂ c).append v ∧ Closing (o.tableRows f₂ c).rest := by
  induction f₁ generalizing f₂ c with
  | zero => omega
  | succ f₁ ih =>
    obtain _ | f₂ := f₂
    · omega
    have hon := o.on_enterAll_lineStart c
    have hrow := hon.skipAll.closing h
    have hshort := ((LineStart.suffix_skipAll _).trans (o.suffix_enterAll c)).length_le
    rw [tableRows, tableRows, o.enterAll_lineStart_append v h.mem]
    dsimp only
    rw [LineStart.skipAll_append (hon.closing h).mem, Cursor.upTo_append]
    have hends : endsText true ((c.upTo (o.enterAll c.lineStart).2.skipAll).append v).rest =
        endsText true (c.upTo (o.enterAll c.lineStart).2.skipAll).rest := endsText_append hrow true v
    rw [hends]
    split
    · exact ⟨rfl, h⟩
    · next hmore =>
      rw [Bool.or_eq_true, not_or] at hmore
      have hclosed : Closed (c.upTo (o.enterAll c.lineStart).2.skipAll).rest :=
        hrow.resolve_left fun he => hmore.2 (by rw [show Cursor.rest _ = _ from he, endsText_newline])
      have hless := Cursor.length_lineEnd_lt (List.ne_nil_of_mem hclosed.mem)
      have hnext : Closing ((c.upTo (o.enterAll c.lineStart).2.skipAll).advance
        (tableBody?.lineEnd (c.upTo (o.enterAll c.lineStart).2.skipAll).rest)).rest := hclosed.lineEnd
      have happend := (c.upTo (o.enterAll c.lineStart).2.skipAll).lineEnd_append v hclosed.mem
      have hlength : (c.upTo (o.enterAll c.lineStart).2.skipAll).rest.length ≤ c.rest.length := hshort
      unfold tableBody?.lineEnd at hless hnext happend
      rw [happend]
      exact ih hnext (by omega) (by omega)

theorem tableBody?_append {c : Cursor} (h : Closed c.rest) :
    o.tableBody? (c.append v) = (o.tableBody? c).map (Cursor.append · v) ∧
      ∀ body ∈ o.tableBody? c, Closing body.rest ∨ body.rest = [] ∧ .blockQuote ∉ o.containers := by
  obtain ⟨hcount, hcells⟩ := pipes_append h.mem v
  have hnext : Closing (c.advance (tableBody?.lineEnd c.rest)).rest := h.lineEnd
  have hlineEnd := c.lineEnd_append v h.mem
  rw [Cursor.append_rest] at hlineEnd
  simp only [tableBody?, Cursor.append_rest, hcount, hlineEnd]
  generalize c.advance (tableBody?.lineEnd c.rest) = next at *
  have hline := (o.on_enterAll_lineStart next).closing hnext
  have hmore : (next.rest ++ v).isEmpty = next.rest.isEmpty := by
    rw [List.isEmpty_eq_false_iff.2 (List.ne_nil_of_mem hnext.mem), List.isEmpty_eq_false_iff]
    exact List.append_ne_nil_of_left_ne_nil (List.ne_nil_of_mem hnext.mem) v
  rw [o.enterAll_lineStart_append v hnext.mem, hmore]
  dsimp only
  split
  · exact ⟨rfl, by simp⟩
  next hpipes =>
  have hpos : (pipes c.rest).1 ≠ 0 := by
    rintro he
    simp [he] at hpipes
  have hrow : delimiterRow? ((o.enterAll next.lineStart).2.append v).rest =
      delimiterRow? (o.enterAll next.lineStart).2.rest := delimiterRow?_append hline.mem v
  rw [hrow, hcells hpos]
  cases hr : delimiterRow? (o.enterAll next.lineStart).2.rest with
  | none => exact ⟨rfl, by simp⟩
  | some r =>
    obtain ⟨length, columns⟩ := r
    have hbody : length ≤ (o.enterAll next.lineStart).2.rest.length ∧
        (Closing ((o.enterAll next.lineStart).2.rest.drop length) ∨
          (o.enterAll next.lineStart).2.rest.drop length = [] ∧ .blockQuote ∉ o.containers) := by
      rcases hnext with hblank | hclosed
      · have hl := o.on_enterAll_lineStart next
        rw [hblank] at hl
        rw [hl.rest_newline] at hr ⊢
        cases hr
        refine ⟨le_rfl, .inr ⟨rfl, ?_⟩⟩
        have hentered : ¬ (o.enterAll next.lineStart).1 < o.spine.length := by
          rintro hless
          simp [hless] at hpipes
        rw [Cursor.lineStart, hblank] at hentered
        exact o.not_mem_of_entered [] hentered
      · have hclosing := ((o.on_enterAll_lineStart next).closed hclosed).delimiterRow? hr
        exact ⟨hclosing.length_le, .inl hclosing⟩
    dsimp only
    split
    · rw [Cursor.upTo_append, Cursor.advance_append v hbody.1]
      refine ⟨rfl, fun body hmem => ?_⟩
      cases hmem
      exact hbody.2
    · exact ⟨rfl, by simp⟩

theorem leafHeading_append {c : Cursor} (h : Closed c.rest) {level : Nat} (hlevel : '\n' ∉ c.rest.take level) :
    leaf.heading o (c.append v) level = appendAt v (leaf.heading o c level) ∧
      Tail (leaf.heading o c level).2.rest := by
  have hbody : Closed (c.advance level).rest := h.drop hlevel
  have hspaces : Closed ((c.advance level).advance (spaceRun (c.advance level).rest)).rest := hbody.dropSpaces
  rw [leaf.heading, leaf.heading, Cursor.advance_append v hbody.length_le, Cursor.append_rest, eol?_append hbody.mem,
    spaceRun_append hbody.mem]
  generalize c.advance level = body at *
  cases hn : eol? body.rest with
  | some n =>
    have hnext := hbody.afterEol hn
    dsimp only
    rw [Cursor.advance_append v hnext.1.length_le]
    exact ⟨rfl, .inr hnext.1⟩
  | none =>
    dsimp only
    rw [Cursor.advance_append v hspaces.length_le, Cursor.nextLine_append v hspaces.mem]
    exact ⟨rfl, .inr hspaces.nextLine⟩

theorem openAll_append {f₁ f₂ : Nat} {start : Cursor} (h : Closing start.rest) {l : LineStart} (hl : l.On start.rest)
    (h₁ : l.rest.length < f₁) (h₂ : l.rest.length < f₂) :
    openAll f₁ o (start.append v) (l.append v) =
      ((openAll f₂ o start l).1, (openAll f₂ o start l).2.map (LineStart.append · v) (Cursor.append · v)) ∧
      (openAll f₂ o start l).2.elim (LineStart.On start.rest) (fun c => Tail c.rest) := by
  induction f₁ generalizing f₂ o l with
  | zero => omega
  | succ f₁ ih =>
    obtain _ | f₂ := f₂
    · omega
    have hline := (hl.closing h).mem
    simp only [openAll, LineStart.listMarker?_append hline, LineStart.quoteMark?_append hline, Cursor.upTo_append,
      Cursor.append_offset]
    cases hm : l.listMarker? with
    | some marker =>
      obtain ⟨marker, indent, next⟩ := marker
      have hless := LineStart.length_listMarker?_lt hm
      have hnext := hl.listMarker? hm
      have hitem := hnext.closing h
      have hmore : '\n' ∈ (start.upTo next).rest := hitem.mem
      dsimp only [Option.map_some]
      rw [Cursor.upTo_append, Cursor.blankLine?_append v hmore]
      cases hb : (start.upTo next).blankLine? with
      | some c =>
        obtain ⟨n, hn, rfl⟩ := Option.map_eq_some_iff.1 hb
        exact ⟨rfl, hitem.blankLine? hn⟩
      | none =>
        dsimp only [Option.map_none]
        rw [LineStart.taskBox?_append hitem.mem]
        cases ht : next.taskBox? with
        | none => exact ih _ hnext (by omega) (by omega)
        | some inner =>
          have hinner := LineStart.length_taskBox?_le ht
          exact ih _ (hnext.taskBox? ht) (by omega) (by omega)
    | none =>
      cases hq : l.quoteMark? with
      | some next =>
        have hless := LineStart.length_quoteMark?_lt hq
        exact ih _ (hl.quoteMark? hq) (by omega) (by omega)
      | none => exact ⟨rfl, hl⟩

end Outline

end ComponentDocs.Markdown
