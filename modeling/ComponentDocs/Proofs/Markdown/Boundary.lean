import ComponentDocs.Proofs.Markdown.Behind
/-! Reading over the end of a closed text. A line of text behind it shows where reading comes to rest, and what is
read up to there is the same before every text that begins flush with the margin. -/
namespace ComponentDocs.Markdown

variable {cs : List Char}

def probe : List Char := ['x']

def isFlush (cs : List Char) : Bool := cs.head?.any fun c => !isSpaceOrEol c

theorem exists_cons_of_isFlush (h : isFlush cs = true) : ∃ c rest, cs = c :: rest ∧ isSpace c = false ∧ isEol c = false := by
  cases cs with
  | nil => cases h
  | cons c rest =>
    refine ⟨c, rest, rfl, ?_⟩
    simpa [isFlush, isSpaceOrEol] using h

theorem isFlush_probe : isFlush probe = true := by decide

theorem blankLine?_of_isFlush (h : isFlush cs = true) : blankLine? cs = none := by
  obtain ⟨c, rest, rfl, hspace, heol⟩ := exists_cons_of_isFlush h
  have hrun : spaceRun (c :: rest) = 0 := by simp [spaceRun, hspace]
  have hnone : eol? (c :: rest) = none := by
    simp only [isEol, Bool.or_eq_false_iff, beq_eq_false_iff_ne] at heol
    simp [eol?, heol]
  rw [blankLine?, hrun, List.drop_zero, hnone]
  rfl

theorem Closing.not_closed_newline : ¬ Closed ['\n'] := by
  rintro ⟨front, hfront, -⟩
  simpa using congrArg List.length hfront

theorem Closing.eq_newline_of_nextLine (h : Closing cs) (hnext : cs.drop (lineLength cs) = []) : cs = ['\n'] :=
  h.resolve_right fun hclosed => List.ne_nil_of_mem hclosed.nextLine.mem hnext

namespace LineStart

theorem skip_of_isFlush (h : isFlush cs = true) (n : Nat) : skip { rest := cs } n = (n, { rest := cs }) := by
  obtain ⟨c, rest, rfl, hspace, -⟩ := exists_cons_of_isFlush h
  simp only [isSpace, Bool.or_eq_false_iff, beq_eq_false_iff_ne] at hspace
  cases n <;> simp [skip, skip.go, hspace]

theorem atEol_of_isFlush (h : isFlush cs = true) : atEol { rest := cs } = false := by
  obtain ⟨c, rest, rfl, -, heol⟩ := exists_cons_of_isFlush h
  simp [atEol, heol]

theorem On.eq_newline {l : LineStart} (hl : l.On cs) (h : Closing cs) (hrest : l.rest = ['\n']) : cs = ['\n'] :=
  h.resolve_right fun hclosed => Closing.not_closed_newline (hrest ▸ hl.closed hclosed)

end LineStart

namespace Container

theorem exists_enterAll_of_isFlush (cs : List Container) : ∃ n, ∀ v, isFlush v = true →
    (.blockQuote ∈ cs → v.head? ≠ some '>') → enterAll { rest := v } cs = (n, { rest := v }) := by
  induction cs with
  | nil => exact ⟨0, fun _ _ _ => rfl⟩
  | cons c outer ih =>
    obtain ⟨n, hn⟩ := ih
    have henter : ∃ b : Bool, ∀ v, isFlush v = true → (.blockQuote ∈ c :: outer → v.head? ≠ some '>') →
        c.enter? { rest := v } = if b then some { rest := v } else none := by
      cases c with
      | blockQuote =>
        refine ⟨false, fun v hv hquote => ?_⟩
        simp [enter?, LineStart.quoteMark?, LineStart.skip_of_isFlush hv, hquote List.mem_cons_self]
      | item indent =>
        refine ⟨indent == 0, fun v hv _ => ?_⟩
        simp [enter?, LineStart.skip_of_isFlush hv, LineStart.atEol_of_isFlush hv]
      | list | footnote => exact ⟨true, fun _ _ _ => rfl⟩
    obtain ⟨b, hb⟩ := henter
    refine ⟨if n = outer.length ∧ b = true then n + 1 else n, fun v hv hquote => ?_⟩
    rw [enterAll, hn v hv fun hmem => hquote (List.mem_cons_of_mem _ hmem)]
    dsimp only
    rw [hb v hv hquote]
    by_cases hall : n = outer.length
    · cases b <;> simp [hall]
    · simp [hall]

/-- No mark is passed on a line that is flush with the margin, unless it is one of a block quote. -/
theorem enterAll_of_isFlush {v : List Char} (hv : isFlush v = true) {cs : List Container}
    (hquote : .blockQuote ∈ cs → v.head? ≠ some '>') :
    enterAll { rest := v } cs = ((enterAll { rest := probe } cs).1, { rest := v }) := by
  obtain ⟨n, hn⟩ := exists_enterAll_of_isFlush cs
  rw [hn v hv hquote, hn probe isFlush_probe fun _ => by decide]

end Container

namespace Outline
variable {o : Outline} {v : List Char}

/-- What is read before a line of text is read before another text too, if that begins flush with the margin where
reading comes to the end. -/
def Carries (v : List Char) (x y : Outline × Cursor) : Prop :=
  ∀ r : Outline × Cursor, (r.2.rest = [] → isFlush v = true) → y = appendAt probe r → x = appendAt v r

theorem appendAt_inj {w : List Char} {r r' : Outline × Cursor} (h : appendAt w r = appendAt w r') : r = r' := by
  obtain ⟨o, c⟩ := r
  obtain ⟨o', c'⟩ := r'
  obtain ⟨rfl, hc⟩ := Prod.ext_iff.1 h
  exact Prod.ext rfl (Cursor.append_inj w hc)

theorem Carries.of_append {x y r : Outline × Cursor} (hx : x = appendAt v r) (hy : y = appendAt probe r) :
    Carries v x y := fun r' _ h => by rw [hx, appendAt_inj (hy.symm.trans h)]

theorem Carries.here (o : Outline) (c : Cursor) : Carries v (o, c.append v) (o, c.append probe) :=
  .of_append (r := (o, c)) rfl rfl

theorem Carries.of_end {x y r : Outline × Cursor} (hx : isFlush v = true → x = appendAt v r) (hy : y = appendAt probe r)
    (hr : r.2.rest = []) : Carries v x y := fun r' hflush h => by
  obtain rfl := appendAt_inj (hy.symm.trans h)
  exact hx (hflush hr)

/-- Where the line of text is read too, reading does not come to rest before it. -/
theorem Carries.of_nil {x y : Outline × Cursor} (hy : y.2.rest = []) : Carries v x y := fun r _ h => by
  rw [h] at hy
  simp [appendAt, probe] at hy

theorem Carries.ite {p : Prop} [Decidable p] {x y x' y' : Outline × Cursor} (h : p → Carries v x y)
    (h' : ¬ p → Carries v x' y') : Carries v (if p then x else x') (if p then y else y') := by
  split
  · next hp => exact h hp
  · next hp => exact h' hp

theorem indentedCode_end {w : List Char} (hw : isFlush w = true) (start : Cursor) (fuel : Nat) {stop line : Cursor}
    (h : '\n' ∈ line.rest) (hend : line.nextLine.rest = []) (hquote : .blockQuote ∉ o.containers) (blank : Bool) :
    o.indentedCode (start.append w) (fuel + 1) (stop.append w) (line.append w) blank =
      appendAt w ({ o with afterBlank := blank }.add (.code (start.span (if blank then stop else line.nextLine))),
        line.nextLine) := by
  have hstop : (if blank then stop.append w else line.nextLine.append w) =
      (if blank then stop else line.nextLine).append w := by cases blank <;> rfl
  have henter : o.enterAll (line.nextLine.append w).lineStart =
      ((Container.enterAll { rest := probe } o.containers).1, { rest := w }) := by
    have hstart : (line.nextLine.append w).lineStart = { rest := w } := by
      rw [Cursor.lineStart, Cursor.append_rest, hend, List.nil_append]
    rw [hstart]
    exact Container.enterAll_of_isFlush hw fun hmem => absurd hmem hquote
  simp only [indentedCode, Cursor.nextLine_append _ h, hstop, Cursor.span_append, henter,
    LineStart.skip_of_isFlush hw, LineStart.atEol_of_isFlush hw]
  split <;> rfl

theorem indentedCode_carries (start : Cursor) {f₁ f₂ : Nat} {stop line : Cursor} (h : Closing line.rest)
    (hquote : line.rest = ['\n'] → .blockQuote ∉ o.containers) (h₁ : line.rest.length < f₁)
    (h₂ : line.rest.length < f₂) (blank : Bool) :
    Carries v (o.indentedCode (start.append v) f₁ (stop.append v) (line.append v) blank)
      (o.indentedCode (start.append probe) f₂ (stop.append probe) (line.append probe) blank) := by
  induction f₁ generalizing f₂ stop line blank with
  | zero => omega
  | succ f₁ ih =>
    obtain _ | f₂ := f₂
    · omega
    have hless := Cursor.length_nextLine_lt (List.ne_nil_of_mem h.mem)
    have hnext : Tail line.nextLine.rest := h.nextLine
    have hstop (w : List Char) : (if blank then stop.append w else line.nextLine.append w) =
        (if blank then stop else line.nextLine).append w := by cases blank <;> rfl
    rcases hnext with hend | hnext
    · have hcontainers := hquote (Closing.eq_newline_of_nextLine h hend)
      exact .of_end (fun hv => indentedCode_end hv start f₁ h.mem hend hcontainers blank)
        (indentedCode_end isFlush_probe start f₂ h.mem hend hcontainers blank) hend
    · simp only [indentedCode, Cursor.nextLine_append _ h.mem, hstop, Cursor.span_append,
        o.enterAll_lineStart_append _ hnext.mem]
      have hon := o.on_enterAll_lineStart line.nextLine
      have hskip := (hon.skip 4).closing hnext
      have hshort := (o.suffix_skip line.nextLine 4).length_le
      simp only [LineStart.skip_append (hon.closing hnext).mem, LineStart.atEol_append hskip.mem, Cursor.upTo_append]
      refine Carries.ite (fun _ => .here _ _) fun hentered => ?_
      refine Carries.ite (fun _ => .here _ _) fun _ => ?_
      have hmore (w : List Char) :
          (((line.nextLine.upTo ((o.enterAll line.nextLine.lineStart).2.skip 4).2).append w).rest.isEmpty = true) ↔ False := by
        simpa [Cursor.upTo] using fun hnil => absurd hnil (List.ne_nil_of_mem hskip.mem)
      simp only [hmore, if_false]
      generalize hinner : line.nextLine.upTo ((o.enterAll line.nextLine.lineStart).2.skip 4).2 = inner at *
      have hrest : inner.rest = ((o.enterAll line.nextLine.lineStart).2.skip 4).2.rest := by rw [← hinner]; rfl
      rw [← hrest] at hskip hshort
      rw [Cursor.blankLine?_append _ hskip.mem, Cursor.blankLine?_append _ hskip.mem, Option.isSome_map, Option.isSome_map]
      refine ih hskip (fun hblank => ?_) (by omega) (by omega) _
      have hline := (hon.skip 4).eq_newline hnext (hrest ▸ hblank)
      rw [Cursor.lineStart, hline] at hentered
      exact o.not_mem_of_entered [] hentered

end Outline

theorem Closing.closingFence? (h : Closing cs) {mark : Char} (hmark : mark ≠ '\n') {marks k : Nat}
    (hk : closingFence? mark marks cs = some k) : Closing (cs.drop k) := by
  have hne : cs.isEmpty = false := List.isEmpty_eq_false_iff.2 (List.ne_nil_of_mem h.mem)
  rw [Markdown.closingFence?, hne, if_neg Bool.false_ne_true] at hk
  dsimp only at hk
  split at hk
  · cases hk
  · obtain ⟨n, -, rfl⟩ := Option.map_eq_some_iff.1 hk
    have hrun {mark : Char} (hmark : mark ≠ '\n') {cs : List Char} (h : Closing cs) : Closing (cs.drop (run mark cs)) := by
      refine h.drop ?_
      rw [run, LineStart.On.take_length_takeWhile]
      exact LineStart.On.newline_not_mem_takeWhile (by simpa using hmark.symm) cs
    rw [← List.drop_drop]
    exact hrun (by decide) (hrun hmark h)

namespace Outline
variable {o : Outline} {v : List Char}

theorem enterAll_append_of_nil {w : List Char} (hw : isFlush w = true) {c : Cursor} (hc : c.rest = [])
    (hquote : .blockQuote ∉ o.containers) : o.enterAll (c.append w).lineStart =
      ((Container.enterAll { rest := probe } o.containers).1, { rest := w }) := by
  have hstart : (c.append w).lineStart = { rest := w } := by
    rw [Cursor.lineStart, Cursor.append_rest, hc, List.nil_append]
  rw [hstart]
  exact Container.enterAll_of_isFlush hw fun hmem => absurd hmem hquote

theorem finish_append (start : Cursor) {c : Cursor} (h : Closing c.rest) (w : List Char) :
    fencedCode.finish o (start.append w) (c.append w) = appendAt w (fencedCode.finish o start c) := by
  rw [fencedCode.finish, fencedCode.finish, Cursor.getD_blankLine?_append _ h.mem, Cursor.span_append]
  rfl

theorem finish_append_of_nil (start : Cursor) {c : Cursor} (hc : c.rest = []) {w : List Char} (hw : isFlush w = true) :
    fencedCode.finish o (start.append w) (c.append w) = appendAt w (o.add (.code (start.span c)), c) := by
  have hblank : (c.append w).blankLine? = none := by
    rw [Cursor.blankLine?, Cursor.append_rest, hc, List.nil_append, blankLine?_of_isFlush hw]
    rfl
  rw [fencedCode.finish, hblank, Cursor.span_append]
  rfl

/-- Code that comes to the end of the closed text ends there, or takes in what follows. -/
theorem fencedCode_carries_nil (start : Cursor) (indent : Nat) {mark : Char} (hx : mark ≠ 'x') {marks : Nat}
    (hmarks : 0 < marks) (f₁ f₂ : Nat) {c : Cursor} (hend : c.rest = []) (hquote : .blockQuote ∉ o.containers) :
    Carries v (o.fencedCode (start.append v) indent mark marks (f₁ + 1) (c.append v))
      (o.fencedCode (start.append probe) indent mark marks (f₂ + 1) (c.append probe)) := by
  by_cases hentered : (Container.enterAll { rest := probe } o.containers).1 < o.spine.length
  · have hdone {w : List Char} (hw : isFlush w = true) (fuel : Nat) :
        o.fencedCode (start.append w) indent mark marks (fuel + 1) (c.append w) =
          appendAt w (o.add (.code (start.span c)), c) := by
      rw [fencedCode, enterAll_append_of_nil hw hend hquote]
      dsimp only
      rw [if_pos hentered, finish_append_of_nil start hend hw]
    exact .of_end (fun hv => hdone hv f₁) (hdone isFlush_probe f₂) hend
  · refine .of_nil ?_
    rw [fencedCode, enterAll_append_of_nil isFlush_probe hend hquote]
    dsimp only
    rw [if_neg hentered, LineStart.skip_of_isFlush isFlush_probe, LineStart.skip_of_isFlush isFlush_probe]
    have hnone : closingFence? mark marks probe = none := by
      have hrun : run mark probe = 0 := by simp [run, probe, hx.symm]
      have hsome : probe.isEmpty = false := rfl
      simp [closingFence?, hrun, hmarks, hsome]
    simp only [hnone, ite_self]
    have hsuffix := o.suffix_fencedCode (start.append probe) indent mark marks f₂
      ((c.append probe).upTo { rest := probe }).nextLine
    exact List.suffix_nil.1 hsuffix

theorem fencedCode_carries (start : Cursor) (indent : Nat) {mark : Char} (hmark : mark ≠ '\n') (hx : mark ≠ 'x')
    {marks : Nat} (hmarks : 0 < marks) {f₁ f₂ : Nat} {c : Cursor} (h : Tail c.rest)
    (hquote : c.rest = [] → .blockQuote ∉ o.containers) (h₁ : c.rest.length < f₁) (h₂ : c.rest.length < f₂) :
    Carries v (o.fencedCode (start.append v) indent mark marks f₁ (c.append v))
      (o.fencedCode (start.append probe) indent mark marks f₂ (c.append probe)) := by
  induction f₁ generalizing f₂ c with
  | zero => omega
  | succ f₁ ih =>
    obtain _ | f₂ := f₂
    · omega
    rcases h with hend | h
    · exact fencedCode_carries_nil start indent hx hmarks f₁ f₂ hend (hquote hend)
    · have hon := o.on_enterAll_lineStart c
      have hskip := hon.skip indent
      have hline := hskip.closing h
      have hinner := (hskip.skip 4).closing h
      have hshort := (o.suffix_skip c indent).length_le
      simp only [fencedCode, o.enterAll_lineStart_append _ h.mem, LineStart.skip_append (hon.closing h).mem,
        LineStart.skip_append hline.mem, Cursor.upTo_append]
      refine Carries.ite (fun _ => .of_append (finish_append start h v) (finish_append start h probe)) fun hentered => ?_
      have hclosing (w : List Char) : closingFence? mark marks
          ((((o.enterAll c.lineStart).2.skip indent).2.skip 4).2.append w).rest =
            closingFence? mark marks (((o.enterAll c.lineStart).2.skip indent).2.skip 4).2.rest :=
        closingFence?_append hmark marks hinner.mem w
      simp only [hclosing]
      generalize hk : (if (((o.enterAll c.lineStart).2.skip indent).2.skip 4).1 ≠ 0 then
        closingFence? mark marks (((o.enterAll c.lineStart).2.skip indent).2.skip 4).2.rest else none) = closing
      cases closing with
      | some k =>
        have hend : Closing ((c.upTo (((o.enterAll c.lineStart).2.skip indent).2.skip 4).2).advance k).rest := by
          split at hk
          · exact hinner.closingFence? hmark hk
          · cases hk
        dsimp only
        rw [Cursor.advance_append _ hend.length_le, Cursor.advance_append _ hend.length_le]
        exact .of_append (finish_append start hend v) (finish_append start hend probe)
      | none =>
        generalize hhere : c.upTo ((o.enterAll c.lineStart).2.skip indent).2 = here at *
        have hrest : here.rest = ((o.enterAll c.lineStart).2.skip indent).2.rest := by rw [← hhere]; rfl
        rw [← hrest] at hline hshort
        have hless := Cursor.length_nextLine_lt (List.ne_nil_of_mem hline.mem)
        dsimp only
        rw [Cursor.nextLine_append _ hline.mem, Cursor.nextLine_append _ hline.mem]
        refine ih hline.nextLine (fun hnil => ?_) (by omega) (by omega)
        have hblank := hskip.eq_newline h (hrest ▸ Closing.eq_newline_of_nextLine hline hnil)
        rw [Cursor.lineStart, hblank] at hentered
        exact o.not_mem_of_entered [] hentered

theorem take_append_of_nextLine (c : Cursor) (w : List Char) :
    (c.append w).rest.take ((c.nextLine.append w).offset - (c.append w).offset) =
      c.rest.take (c.nextLine.offset - c.offset) := by
  have hle : c.nextLine.offset - c.offset ≤ c.rest.length := by
    simpa [Cursor.nextLine, Cursor.advance] using lineLength_le c.rest
  exact List.take_append_of_le_length hle

/-- HTML whose last line is that of the closed text ends there, or takes in what follows. -/
theorem htmlBlock_carries_nil (mark : Option (List Char)) (f₁ : Nat) {f₂ : Nat} (hf : f₂ ≠ 0) {c : Cursor}
    (h : Closing c.rest) (hend : c.nextLine.rest = []) (hquote : .blockQuote ∉ o.containers) :
    Carries v (htmlBlock mark (f₁ + 1) o (c.append v)) (htmlBlock mark (f₂ + 1) o (c.append probe)) := by
  have hcontainers : (o.add (.html (c.span c.nextLine))).containers = o.containers := containers_add ..
  simp only [htmlBlock, Cursor.nextLine_append _ h.mem, Cursor.span_append, take_append_of_nextLine]
  generalize o.add (.html (c.span c.nextLine)) = o' at *
  rw [← hcontainers] at hquote
  rw [enterAll_append_of_nil isFlush_probe hend hquote]
  by_cases hentered : (Container.enterAll { rest := probe } o'.containers).1 < o'.spine.length
  · refine .of_end (r := (o', c.nextLine)) (fun hv => ?_) (if_pos hentered) hend
    rw [enterAll_append_of_nil hv hend hquote]
    exact if_pos hentered
  · rw [if_neg hentered]
    cases hends : mark.any fun mark => contains mark (c.rest.take (c.nextLine.offset - c.offset)) with
    | true =>
      cases mark with
      | none => cases hends
      | some mark =>
        rw [Option.any_some] at hends
        refine .of_end (r := (o', c.nextLine)) (fun hv => ?_) (by simp [hends, appendAt]) hend
        rw [enterAll_append_of_nil hv hend hquote]
        simp [hentered, hends, appendAt]
    | false =>
      refine .of_nil ?_
      obtain ⟨f₂, rfl⟩ := Nat.exists_eq_succ_of_ne_zero hf
      have hblank : (((c.nextLine.append probe).upTo { rest := probe }).blankLine?.isSome) = false := by
        rw [Cursor.blankLine?, Option.isSome_map]
        exact congrArg Option.isSome (blankLine?_of_isFlush isFlush_probe)
      have hmore : ((c.nextLine.append probe).upTo { rest := probe }).rest.isEmpty = false := rfl
      have hsuffix := o'.suffix_htmlBlock mark f₂ ((c.nextLine.append probe).upTo { rest := probe })
      cases mark with
      | none =>
        simp only [hblank, hmore]
        exact List.suffix_nil.1 hsuffix
      | some mark =>
        rw [Option.any_some] at hends
        simp only [hends, hmore]
        exact List.suffix_nil.1 hsuffix

theorem htmlBlock_carries (mark : Option (List Char)) {f₁ f₂ : Nat} {c : Cursor} (h : Closing c.rest)
    (hquote : c.rest = ['\n'] → .blockQuote ∉ o.containers) (h₁ : c.rest.length < f₁) (h₂ : c.rest.length < f₂) :
    Carries v (htmlBlock mark f₁ o (c.append v)) (htmlBlock mark f₂ o (c.append probe)) := by
  induction f₁ generalizing f₂ o c with
  | zero => omega
  | succ f₁ ih =>
    obtain _ | f₂ := f₂
    · omega
    have hless := Cursor.length_nextLine_lt (List.ne_nil_of_mem h.mem)
    have hnext : Tail c.nextLine.rest := h.nextLine
    rcases hnext with hend | hnext
    · have hpos := List.length_pos_of_mem h.mem
      exact htmlBlock_carries_nil mark f₁ (by omega) h hend (hquote (Closing.eq_newline_of_nextLine h hend))
    · simp only [htmlBlock, Cursor.nextLine_append _ h.mem, Cursor.span_append, take_append_of_nextLine]
      generalize o.add (.html (c.span c.nextLine)) = o' at *
      have hon := o'.on_enterAll_lineStart c.nextLine
      have hline := hon.closing hnext
      have hshort := (o'.suffix_enterAll c.nextLine).length_le
      simp only [o'.enterAll_lineStart_append _ hnext.mem, Cursor.upTo_append]
      refine Carries.ite (fun _ => .here _ _) fun hentered => ?_
      generalize hhere : c.nextLine.upTo (o'.enterAll c.nextLine.lineStart).2 = inner at *
      have hrest : inner.rest = (o'.enterAll c.nextLine.lineStart).2.rest := by rw [← hhere]; rfl
      rw [← hrest] at hline hshort
      have hmore (w : List Char) : (inner.append w).rest.isEmpty = false :=
        List.isEmpty_eq_false_iff.2 (List.append_ne_nil_of_left_ne_nil (List.ne_nil_of_mem hline.mem) w)
      have hblank (w : List Char) : (inner.append w).blankLine?.isSome = inner.blankLine?.isSome := by
        rw [Cursor.blankLine?_append _ hline.mem, Option.isSome_map]
      simp only [hmore, hblank]
      refine Carries.ite (fun _ => .here _ _) fun _ => ih hline (fun hblank => ?_) (by omega) (by omega)
      have hlast := hon.eq_newline hnext (hrest ▸ hblank)
      rw [Cursor.lineStart, hlast] at hentered
      exact o'.not_mem_of_entered [] hentered

end Outline

theorem endsText_probe : Outline.endsText true probe = false := by decide

/-- A line of marks that are none of a paragraph. -/
theorem Closed.thematicBreak? (h : Closed cs) {n : Nat} (hn : thematicBreak? cs = some n) : Closing (cs.drop n) := by
  have hgo (mark : Char) (marks length : Nat) {cs : List Char} (h : Closed cs) (hmark : mark ≠ '\n') :
      ∀ n, thematicBreak?.go mark marks length cs = some n → ∃ m, n = length + m ∧ Closing (cs.drop m) := by
    induction cs generalizing marks length with
    | nil => cases h.mem
    | cons c cs ih =>
      intro n hn
      have hfurther (hc : c ≠ '\n') {marks : Nat} (hn : thematicBreak?.go mark marks (length + 1) cs = some n) :
          ∃ m, n = length + m ∧ Closing ((c :: cs).drop m) := by
        obtain ⟨m, hm, hclosing⟩ := ih marks (length + 1) (h.tail hc) n hn
        exact ⟨m + 1, by omega, hclosing⟩
      unfold thematicBreak?.go at hn
      split at hn
      · next hc =>
        split at hn
        · obtain ⟨k, hk⟩ := eol?_cons hc cs
          rw [hk] at hn
          cases hn
          exact ⟨k + 1, rfl, (h.afterEol hk).1⟩
        · cases hn
      · next hc =>
        have hne : c ≠ '\n' := by rintro rfl; exact hc rfl
        split at hn
        · exact hfurther hne hn
        · split at hn
          · exact hfurther hne hn
          · cases hn
  obtain ⟨mark, cs, rfl⟩ := List.exists_cons_of_ne_nil (List.ne_nil_of_mem h.mem)
  rw [Markdown.thematicBreak?] at hn
  split at hn
  · next hmark =>
    have hne : mark ≠ '\n' := by rintro rfl; exact absurd hmark (by decide)
    obtain ⟨m, rfl, hclosing⟩ := hgo mark 1 1 (h.tail hne) hne n hn
    rwa [Nat.add_comm, List.drop_succ_cons]
  · cases hn

theorem newline_not_mem_atxLevel {level : Nat} (h : atxLevel? cs = some level) : '\n' ∉ cs.take level := by
  rw [atxLevel?] at h
  split at h
  · cases h
    rw [run, LineStart.On.take_length_takeWhile]
    exact LineStart.On.newline_not_mem_takeWhile (by decide) cs
  · cases h

theorem codeFence?_spec {mark : Char} {marks : Nat} (h : codeFence? cs = some (mark, marks)) :
    mark ≠ '\n' ∧ mark ≠ 'x' ∧ 0 < marks ∧ '\n' ∉ cs.take marks := by
  cases cs with
  | nil => cases h
  | cons c cs =>
    rw [codeFence?] at h
    split at h
    · next hc =>
      have hline : c ≠ '\n' := by rintro rfl; exact absurd hc (by decide)
      have htext : c ≠ 'x' := by rintro rfl; exact absurd hc (by decide)
      have hrun : '\n' ∉ cs.take (run c cs) := by
        rw [run, LineStart.On.take_length_takeWhile]
        exact LineStart.On.newline_not_mem_takeWhile (by simpa using hline.symm) cs
      dsimp only at h
      split at h
      · cases h
      split at h
      · cases h
      · cases h
        refine ⟨hline, htext, Nat.succ_pos _, ?_⟩
        rw [List.take_succ_cons, List.mem_cons, not_or]
        exact ⟨hline.symm, hrun⟩
    · cases h

namespace Outline
variable {o : Outline} {v : List Char}

theorem tableRows_of_nil {c k : Cursor} (hc : c.rest = []) (hquote : .blockQuote ∉ o.containers) {f₁ f₂ : Nat}
    (hk : k.rest = [] → isFlush v = true) (h : o.tableRows (f₂ + 1) (c.append probe) = k.append probe) :
    o.tableRows (f₁ + 1) (c.append v) = k.append v := by
  rw [tableRows, enterAll_append_of_nil isFlush_probe hc hquote] at h
  dsimp only at h
  by_cases hentered : (Container.enterAll { rest := probe } o.containers).1 < o.spine.length
  · rw [decide_eq_true hentered, Bool.true_or, if_pos rfl] at h
    obtain rfl := Cursor.append_inj _ h
    rw [tableRows, enterAll_append_of_nil (hk hc) hc hquote]
    dsimp only
    rw [decide_eq_true hentered, Bool.true_or, if_pos rfl]
  · have hskip : (LineStart.mk probe 0 0 0).skipAll = { rest := probe } := rfl
    rw [decide_eq_false hentered, hskip] at h
    have hends : endsText true ((c.append probe).upTo { rest := probe }).rest = false := endsText_probe
    rw [hends, Bool.or_false, if_neg Bool.false_ne_true] at h
    have hsuffix := o.suffix_tableRows f₂ (((c.append probe).upTo { rest := probe }).advance 1)
    have hnil : (o.tableRows f₂ (((c.append probe).upTo { rest := probe }).advance 1)).rest = [] :=
      List.suffix_nil.1 hsuffix
    have hrest := congrArg Cursor.rest h
    rw [Cursor.append_rest] at hrest
    exact absurd (hrest.symm.trans hnil) (by simp [probe])

theorem textBlock_carries {f₁ f₂ : Nat} {c : Cursor} (h : Closed c.rest) (h₁ : c.rest.length < f₁)
    (h₂ : c.rest.length < f₂) : Carries v (o.textBlock f₁ (c.append v)) (o.textBlock f₂ (c.append probe)) := by
  obtain ⟨hbody, hrest⟩ := o.tableBody?_append v h
  obtain ⟨hbody', -⟩ := o.tableBody?_append probe h
  simp only [textBlock, Cursor.append_rest, o.startsFootnote_append h, hbody, hbody']
  refine Carries.ite (fun _ => .here _ _) fun _ => ?_
  cases hb : o.tableBody? c with
  | none =>
    exact .of_append (o.paragraph_append v [] h h₁ h₂).1 (o.paragraph_append probe [] h h₂ h₂).1
  | some body =>
    have hless := length_tableBody?_lt hb
    dsimp only [Option.map_some]
    rcases hrest body hb with hclosing | ⟨hnil, hquote⟩
    · have hrows := o.tableRows_append v hclosing (hless.trans h₁) (hless.trans h₂)
      have hrows' := o.tableRows_append probe hclosing (hless.trans h₂) (hless.trans h₂)
      rw [hrows.1, hrows'.1, Cursor.span_append, Cursor.span_append]
      exact .here _ _
    · obtain ⟨f₁, rfl⟩ := Nat.exists_eq_succ_of_ne_zero (Nat.ne_zero_of_lt h₁)
      obtain ⟨f₂, rfl⟩ := Nat.exists_eq_succ_of_ne_zero (Nat.ne_zero_of_lt h₂)
      intro r hr hy
      obtain ⟨ho, hc⟩ := Prod.ext_iff.1 hy
      have hrows : o.tableRows (f₁ + 1) (body.append v) = r.2.append v := tableRows_of_nil hnil hquote hr hc
      have hspan : (o.add (.table ((c.append probe).span (o.tableRows (f₂ + 1) (body.append probe))))) = r.1 := ho
      rw [show o.tableRows (f₂ + 1) (body.append probe) = r.2.append probe from hc, Cursor.span_append] at hspan
      rw [hrows, Cursor.span_append, hspan]
      rfl

theorem leaf_carries {f₁ f₂ : Nat} (indent : Nat) {c : Cursor} (h : Closed c.rest) (h₁ : c.rest.length < f₁)
    (h₂ : c.rest.length < f₂) : Carries v (o.leaf f₁ indent (c.append v)) (o.leaf f₂ indent (c.append probe)) := by
  have hhtml (w : List Char) : leaf.html? (c.append w).rest = leaf.html? c.rest := by
    rw [Cursor.append_rest]
    generalize c.rest = cs at h
    obtain ⟨d, ds, rfl⟩ := List.exists_cons_of_ne_nil (List.ne_nil_of_mem h.mem)
    by_cases hd : d = '<'
    · subst hd
      have hds := mem_of_mem_cons h.mem (by decide)
      simp only [List.cons_append, leaf.html?, sectionEnd?_append hds, startsBlockTag_append hds, isLoneTag_append hds]
    · simp [leaf.html?, hd]
  have hdefinition (w : List Char) := definition?_append o.enters_enterDefinition w o.enters_enterLabel
    o.enterLabel_newline h
  simp only [leaf, hhtml]
  cases leaf.html? c.rest with
  | some mark => exact htmlBlock_carries mark (.inr h) (fun he => absurd (he ▸ h) Closing.not_closed_newline) h₁ h₂
  | none =>
  simp only [Cursor.append_rest, thematicBreak?_append h.mem]
  cases hn : thematicBreak? c.rest with
  | some n =>
    have hle := (h.thematicBreak? hn).length_le
    dsimp only
    rw [Cursor.advance_append _ hle, Cursor.advance_append _ hle]
    exact .here _ _
  | none =>
  simp only [atxLevel?_append h.mem]
  cases hlevel : atxLevel? c.rest with
  | some level =>
    have hmark := newline_not_mem_atxLevel hlevel
    exact .of_append (o.leafHeading_append v h hmark).1 (o.leafHeading_append probe h hmark).1
  | none =>
  simp only [(hdefinition _).1]
  cases hn : definition? o.enterLabel o.enterDefinition c.rest with
  | some n =>
    have hnext : Closing (c.advance n).rest := (hdefinition []).2 n hn
    dsimp only
    rw [Cursor.advance_append _ (Closing.length_le hnext), Cursor.advance_append _ (Closing.length_le hnext),
      Cursor.getD_blankLine?_append _ hnext.mem, Cursor.getD_blankLine?_append _ hnext.mem]
    exact .here _ _
  | none =>
  simp only [codeFence?_append h.mem]
  cases hfence : codeFence? c.rest with
  | some fence =>
    obtain ⟨mark, marks⟩ := fence
    obtain ⟨hmark, hx, hmarks, hline⟩ := codeFence?_spec hfence
    have hinfo : Closed (c.advance marks).rest := h.drop hline
    have hnext : Closing (c.advance marks).nextLine.rest := hinfo.nextLine
    have hshort : (c.advance marks).nextLine.rest.length ≤ c.rest.length :=
      ((Cursor.suffix_nextLine _).trans (Cursor.suffix_advance ..)).length_le
    dsimp only
    rw [Cursor.advance_append _ hinfo.length_le, Cursor.advance_append _ hinfo.length_le,
      Cursor.nextLine_append _ hinfo.mem, Cursor.nextLine_append _ hinfo.mem]
    exact fencedCode_carries c indent hmark hx hmarks (.inr hnext)
      (fun hnil => absurd hnil (List.ne_nil_of_mem hnext.mem)) (hshort.trans_lt h₁) (hshort.trans_lt h₂)
  | none => exact textBlock_carries h h₁ h₂

theorem leafFrom_carries {f₁ f₂ : Nat} {start : Cursor} (h : Closing start.rest) {l : LineStart}
    (hl : l.On start.rest) (h₁ : l.rest.length < f₁) (h₂ : l.rest.length < f₂) :
    Carries v (leafFrom f₁ o (start.append v) (l.append v)) (leafFrom f₂ o (start.append probe) (l.append probe)) := by
  have hline := hl.closing h
  have hmem : '\n' ∈ (start.upTo l).rest := hline.mem
  have hindent := (hl.indent 4).closing h
  have hshort := (l.suffix_indent 4).length_le
  simp only [leafFrom, Cursor.upTo_append, Cursor.blankLine?_append _ hmem, LineStart.indent_append hline.mem]
  cases hb : (start.upTo l).blankLine? with
  | some next => exact .here _ _
  | none =>
    have hclosed : Closed (l.indent 4).2.rest := by
      refine hindent.resolve_left fun he => ?_
      obtain ⟨blanks, hrest, hblanks⟩ := l.exists_skip 4
      rw [show (l.skip 4).2.rest = ['\n'] from he] at hrest
      have hrun : spaceRun (blanks ++ ['\n']) = blanks.length := by
        rw [spaceRun, List.takeWhile_append_of_pos hblanks]
        simp [isSpace]
      simp [Cursor.blankLine?, Cursor.upTo, hrest, blankLine?, hrun, eol?] at hb
    refine Carries.ite (fun _ => ?_) fun _ => ?_
    · exact indentedCode_carries _ (.inr hclosed) (fun he => absurd (he ▸ hclosed) Closing.not_closed_newline)
        (hshort.trans_lt h₁) (hshort.trans_lt h₂) false
    · exact leaf_carries _ hclosed (hshort.trans_lt h₁) (hshort.trans_lt h₂)

theorem blockFrom_carries {f₁ f₂ : Nat} {start : Cursor} (h : Closing start.rest) {l : LineStart}
    (hl : l.On start.rest) (h₁ : l.rest.length < f₁) (h₂ : l.rest.length < f₂) :
    Carries v (blockFrom f₁ o (start.append v) (l.append v)) (blockFrom f₂ o (start.append probe) (l.append probe)) := by
  have hopened := o.openAll_append v h hl h₁ h₂
  have hopened' := o.openAll_append probe h hl h₂ h₂
  rw [blockFrom, blockFrom, hopened.1, hopened'.1]
  rcases hr : openAll f₂ o start l with ⟨o', next | c⟩
  · have hnext : next.On start.rest := by simpa [hr] using hopened.2
    have hle : next.rest.length ≤ l.rest.length := by
      rcases openAll_progress hr with ⟨he, -⟩ | hless
      · cases he
        exact le_rfl
      · exact hless.le
    exact leafFrom_carries h hnext (hle.trans_lt h₁) (hle.trans_lt h₂)
  · exact .here _ _

/-- A block of a closed text is the same before every text, if reading comes to rest before that. -/
theorem block_carries {f₁ f₂ : Nat} {start : Cursor} (h : Closing start.rest) (h₁ : start.rest.length < f₁)
    (h₂ : start.rest.length < f₂) :
    Carries v (o.block f₁ (start.append v)) (o.block f₂ (start.append probe)) := by
  have hcontinued (w : List Char) : o.continued (start.append w) = o.continued start := by
    rw [continued, continued, o.enterAll_lineStart_append w h.mem]
    rfl
  have hon := o.on_enterAll_lineStart start
  have hline := hon.closing h
  have henter := (o.suffix_enterAll start).length_le
  have hlabel (w : List Char) : footnoteLabel? (o.continued start).enterLabel
      ((o.enterAll start.lineStart).2.append w).rest =
        footnoteLabel? (o.continued start).enterLabel (o.enterAll start.lineStart).2.rest := by
    rcases hline with hblank | hclosed
    · rw [LineStart.append, hblank]
      rfl
    · exact (footnoteLabel?_append (enters_enterLabel _) (enterLabel_newline _) w hclosed).1
  simp only [block_eq, hcontinued, o.enterAll_lineStart_append _ h.mem, hlabel, Cursor.upTo_append]
  cases hn : footnoteLabel? (o.continued start).enterLabel (o.enterAll start.lineStart).2.rest with
  | none => exact blockFrom_carries h hon (henter.trans_lt h₁) (henter.trans_lt h₂)
  | some n =>
    have hafter : Closed ((start.upTo (o.enterAll start.lineStart).2).advance n).rest := by
      rcases hline with hblank | hclosed
      · rw [hblank] at hn
        cases hn
      · exact (footnoteLabel?_append (enters_enterLabel _) (enterLabel_newline _) [] hclosed).2 n hn
    have hless : ((start.upTo (o.enterAll start.lineStart).2).advance n).rest.length ≤ start.rest.length :=
      (List.drop_suffix ..).length_le.trans henter
    generalize start.upTo (o.enterAll start.lineStart).2 = here at *
    have hbody := Cursor.closing_getD_blankLine? hafter
    have hshort := (Cursor.suffix_getD_blankLine? (here.advance n)).length_le
    dsimp only
    rw [Cursor.advance_append _ hafter.length_le, Cursor.advance_append _ hafter.length_le,
      Cursor.getD_blankLine?_append _ hafter.mem, Cursor.getD_blankLine?_append _ hafter.mem]
    exact blockFrom_carries hbody (.start _) ((hshort.trans hless).trans_lt h₁) ((hshort.trans hless).trans_lt h₂)

end Outline

end ComponentDocs.Markdown
