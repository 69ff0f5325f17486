import ComponentDocs.Proofs.Markdown.Boundary
import ComponentDocs.Proofs.Markdown.Front
import ComponentDocs.Proofs.Markdown.Paragraphs
/-! Closed texts that no block of goes on behind. Where reading comes to rest before the text behind them with nothing
open, that text keeps its blocks. -/
namespace ComponentDocs.Markdown

variable {cs : List Char}

theorem Closed.tail_of_suffix (h : Closed cs) {s : List Char} (hs : s <:+ cs) : Tail s := by
  obtain ⟨front, rfl, hlast⟩ := h
  obtain ⟨passed, hpassed⟩ := hs
  rcases List.append_eq_append_iff.1 hpassed with ⟨rest, rfl, rfl⟩ | ⟨ended, -, hend⟩
  · refine .inr (.inr ⟨rest, rfl, fun he => hlast ?_⟩)
    rw [List.getLast?_append, he]
    rfl
  · rcases ended with _ | ⟨_, _ | ⟨_, ended⟩⟩
    · obtain rfl : ['\n', '\n'] = s := hend
      exact .inr (.inr ⟨[], rfl, by simp⟩)
    · obtain ⟨-, rfl⟩ := List.cons_eq_cons.1 hend
      exact .inr (.inl rfl)
    · obtain ⟨-, hend⟩ := List.cons_eq_cons.1 hend
      obtain ⟨-, hend⟩ := List.cons_eq_cons.1 hend
      exact .inl (List.append_eq_nil_iff.1 hend.symm).2

theorem Closing.tail_of_suffix (h : Closing cs) {s : List Char} (hs : s <:+ cs) : Tail s := by
  rcases h with rfl | h
  · rcases List.suffix_cons_iff.1 hs with rfl | hs
    · exact .inr (.inl rfl)
    · exact .inl (List.suffix_nil.1 hs)
  · exact h.tail_of_suffix hs

theorem exists_append_probe {rest : List Char} (h : rest <:+ cs ++ probe) (hne : rest ≠ []) :
    ∃ s, rest = s ++ probe ∧ s <:+ cs := by
  obtain ⟨passed, hpassed⟩ := h
  rcases List.append_eq_append_iff.1 hpassed with ⟨s, hcs, hs⟩ | ⟨t, -, ht⟩
  · exact ⟨s, hs, passed, hcs.symm⟩
  · rcases t with _ | ⟨_, t⟩
    · exact ⟨[], ht.symm, List.nil_suffix⟩
    · exact absurd (List.append_eq_nil_iff.1 (List.cons_eq_cons.1 ht).2.symm).2 hne

namespace Block

mutual

/-- The containers in a block end at a place or before it. -/
def EndsBy (n : Nat) : Block → Prop
  | .nested _ _ span blocks => span.stop ≤ n ∧ AllEndBy n blocks
  | _ => True

def AllEndBy (n : Nat) : List Block → Prop
  | [] => True
  | b :: bs => b.EndsBy n ∧ AllEndBy n bs

end

theorem allEndBy_iff {n : Nat} {bs : List Block} : AllEndBy n bs ↔ ∀ b ∈ bs, b.EndsBy n := by
  induction bs with
  | nil => simp [AllEndBy]
  | cons b bs ih => rw [AllEndBy, ih, List.forall_mem_cons]

theorem inherits_endsBy (front : List Char) : Inherits (front ++ probe) (EndsBy front.length) where
  code _ := trivial
  html _ := trivial
  heading _ := trivial
  table _ := trivial
  taskBox := trivial
  paragraph _ := trivial
  nested h _ _ _ blocks hblocks := ⟨Nat.le_of_lt_succ (by simpa [probe] using h), allEndBy_iff.2 hblocks⟩

theorem settleAll_eq_map (document : Array Char) (outer : List Container) (bs : List Block) :
    settleAll document outer bs = bs.map (settle document outer) := by
  induction bs with
  | nil => rfl
  | cons b bs ih => rw [settleAll, ih, List.map_cons]

section Settle
variable (front v w : List Char)

theorem tighten_congr (containers : List Container) (c : Container) (isTight : Bool) {span : Span}
    (hstop : span.stop ≤ front.length) (blocks : List Block) :
    tighten (front ++ v).toArray containers (.nested c isTight span blocks) =
      tighten (front ++ w).toArray containers (.nested c isTight span blocks) := by
  have htext (v : List Char) : ((front ++ v).toArray.extract span.start span.stop).toList =
      (front.take span.stop).drop span.start := by
    rw [List.extract_toArray, List.extract_eq_drop_take', List.take_append_of_le_length hstop]
  cases c with
  | item indent => simp only [tighten, htext]
  | blockQuote | list | footnote => rfl

mutual

/-- What is behind a text does not change how the blocks in it that end there are settled. -/
theorem settle_congr (outer : List Container) : ∀ b : Block, b.EndsBy front.length →
    b.settle (front ++ v).toArray outer = b.settle (front ++ w).toArray outer
  | .nested c isTight span blocks, h => by
    have hsettled := settleAll_congr (c :: outer) blocks h.2
    simp only [settle, hsettled]
    congr 1
    split
    · refine List.map_congr_left fun b hb => ?_
      rw [settleAll_eq_map] at hb
      obtain ⟨inner, hinner, rfl⟩ := List.mem_map.1 hb
      have hends := allEndBy_iff.1 h.2 inner hinner
      cases inner with
      | nested c isTight span blocks => exact tighten_congr front v w _ c isTight hends.1 _
      | code | html | heading | paragraph | text | table | taskBox => rfl
    · rfl
  | .code _, _ | .html _, _ | .heading _, _ | .paragraph _, _ | .text _, _ | .table _, _ | .taskBox, _ => rfl

theorem settleAll_congr (outer : List Container) : ∀ bs : List Block, AllEndBy front.length bs →
    settleAll (front ++ v).toArray outer bs = settleAll (front ++ w).toArray outer bs
  | [], _ => rfl
  | b :: bs, h => by rw [settleAll, settleAll, settle_congr outer b h.1, settleAll_congr outer bs h.2]

end

end Settle

end Block

namespace Outline
variable {o : Outline} {document v : List Char} {Q : Block → Prop}

/-- Reads blocks until at most `n` characters are left. -/
def readTo (n : Nat) : Nat → Outline → Cursor → Outline × Cursor
  | 0, o, c => (o, c)
  | fuel + 1, o, c => if c.rest.length ≤ n then (o, c) else readTo n fuel (o.block fuel c).1 (o.block fuel c).2

theorem readTo_of_le {n : Nat} {c : Cursor} (h : c.rest.length ≤ n) (fuel : Nat) : readTo n fuel o c = (o, c) := by
  cases fuel with
  | zero => rfl
  | succ fuel => rw [readTo, if_pos h]

/-- One block of a closed text, where reading goes on to rest before a line of text: it is the same before any other
text, if that begins flush with the margin or comes later. -/
theorem exists_block_of_readTo {n : Nat} (hn : 0 < n) (hQ : Inherits document Q) {f₁ f₂ : Nat} {c : Cursor}
    {r : Outline × Cursor} (h : Closing c.rest) (hc : (c.append probe).In document) (ho : o.Holds Q)
    (h₁ : c.rest.length < f₁) (h₂ : c.rest.length ≤ f₂)
    (hr : readTo n (f₂ + 1) (o.block (f₂ + 1) (c.append probe)).1 (o.block (f₂ + 1) (c.append probe)).2 =
      appendAt probe r)
    (hflush : r.2.rest = [] → isFlush v = true) :
    ∃ r', o.block (f₂ + 1) (c.append probe) = appendAt probe r' ∧ o.block f₁ (c.append v) = appendAt v r' ∧
      Reads document Q (appendAt probe r') ∧ Tail r'.2.rest ∧ r'.2.rest.length < c.rest.length := by
  have hmore : (c.append probe).rest ≠ [] := List.append_ne_nil_of_left_ne_nil (List.ne_nil_of_mem h.mem) _
  have hless := length_block_lt (o := o) f₂ hmore
  have hcarries : Carries v (o.block f₁ (c.append v)) (o.block (f₂ + 1) (c.append probe)) :=
    block_carries h h₁ (Nat.lt_succ_of_le h₂)
  have hblock := reads_block hQ ho (f₂ + 1) hc hmore
  generalize o.block (f₂ + 1) (c.append probe) = y at *
  obtain ⟨o', i, rest⟩ := y
  have hrest : rest ≠ [] := by
    rintro rfl
    rw [readTo_of_le (Nat.zero_le n)] at hr
    have hend := congrArg (fun r : Outline × Cursor => r.2.rest) hr
    simp [appendAt, probe] at hend
  have hreads := hblock fun hnil => absurd hnil hrest
  have hdocument {cs : List Char} {i : Nat} (h : cs = document.drop i) : cs <:+ document := h ▸ List.drop_suffix ..
  have hsuffix : rest <:+ c.rest ++ probe :=
    List.suffix_of_suffix_length_le (hdocument hreads.2) (hdocument hc) hless.le
  obtain ⟨s, rfl, hs⟩ := exists_append_probe hsuffix hrest
  have hread : o.block f₁ (c.append v) = appendAt v (o', ⟨i, s⟩) := by
    refine hcarries (o', ⟨i, s⟩) (fun hnil => hflush ?_) rfl
    obtain rfl : s = [] := hnil
    rw [readTo_of_le hn] at hr
    rw [← appendAt_inj (show appendAt probe (o', ⟨i, []⟩) = appendAt probe r from hr)]
  exact ⟨(o', ⟨i, s⟩), rfl, hread, hreads, h.tail_of_suffix hs, by simpa using hless⟩

/-- Where reading comes to rest before a line of text, it passes the same place before any other text, if that begins
flush with the margin or comes later. -/
theorem exists_readAll_of_readTo {n : Nat} (hn : 0 < n) (hQ : Inherits document Q) {f₁ f₂ : Nat} {c : Cursor}
    {r : Outline × Cursor} (h : Tail c.rest) (hc : (c.append probe).In document) (ho : o.Holds Q)
    (h₁ : 2 * (c.append v).rest.length < f₁) (h₂ : c.rest.length + 1 < f₂)
    (hr : readTo n f₂ o (c.append probe) = appendAt probe r) (hflush : r.2.rest = [] → isFlush v = true) :
    Reads document Q (appendAt probe r) ∧
      ∃ f, 2 * (r.2.append v).rest.length < f ∧ readAll f₁ o (c.append v) = readAll f r.1 (r.2.append v) := by
  induction f₂ generalizing o c f₁ with
  | zero => omega
  | succ f₂ ih =>
    obtain ⟨f₁, rfl⟩ := Nat.exists_eq_succ_of_ne_zero (Nat.ne_zero_of_lt h₁)
    by_cases hlast : (c.append probe).rest.length ≤ n
    · rw [readTo_of_le hlast] at hr
      obtain rfl := appendAt_inj (show appendAt probe (o, c) = appendAt probe r from hr)
      exact ⟨⟨ho, hc⟩, _, h₁, rfl⟩
    · have hne : c.rest ≠ [] := by
        rintro hnil
        simp [hnil, probe] at hlast
        omega
      have hpos := List.length_pos_iff.2 hne
      have hlength (c : Cursor) : (c.append v).rest.length = c.rest.length + v.length := List.length_append
      rw [hlength] at h₁
      have hsmall : c.rest.length < f₁ := by omega
      obtain ⟨f₂, rfl⟩ := Nat.exists_eq_succ_of_ne_zero (show f₂ ≠ 0 by omega)
      rw [readTo, if_neg hlast] at hr
      obtain ⟨⟨o', c'⟩, hprobe, hread, ⟨hholds, hin⟩, htail, hless⟩ :=
        exists_block_of_readTo hn hQ (h.resolve_left hne) hc ho hsmall (by omega) hr hflush
      rw [hprobe] at hr
      have hstep : readAll (f₁ + 1) o (c.append v) = readAll f₁ o' (c'.append v) := by
        rw [readAll, if_neg (by simpa using fun hnil => absurd hnil hne), hread]
        rfl
      rw [hstep]
      refine ih htail hin hholds ?_ ?_ hr
      · rw [hlength]
        dsimp only at hless
        omega
      · dsimp only at hless
        omega

/-- Where reading a text comes to rest before a line of text, when at most `n` characters are left. -/
def restsAt (front : List Char) (n : Nat) : Outline × Cursor := readTo n (front.length + 2) {} ⟨0, front ++ probe⟩

/-- The marker of a list that begins with the text. -/
def marker? (cs : List Char) : Option Char := (LineStart.listMarker? { rest := cs }).map Prod.fst

/-- The text ends the containers that are open: a list at most, which it does not go on with. -/
def leaves (cs : List Char) : List Container → Bool
  | [] => true
  | [.list marker] => marker? cs != some marker
  | _ => false

/-- Where a container may end at the place, the outline comes to blocks without a container around them. -/
theorem finishList_of_leaves (h : leaves cs o.containers = true) (hstarts : o.startsItem = false) (stop : Nat) :
    o.finishList stop = { blocks := (o.finishList stop).blocks } := by
  obtain ⟨spine, blocks, s, a⟩ := o
  obtain rfl : s = false := hstarts
  rcases spine with _ | ⟨⟨c, start, inner, isLoose⟩, _ | ⟨d, outer⟩⟩
  · cases a <;> rfl
  · cases c <;> cases a <;> first | rfl | cases h
  · cases c <;> cases h

theorem enterLabel_of_leaves (h : leaves cs o.containers = true) (blocks : List Block) :
    enterLabel { blocks } = o.enterLabel := by
  obtain ⟨spine, before, s, a⟩ := o
  rcases spine with _ | ⟨⟨c, start, inner, isLoose⟩, _ | ⟨d, outer⟩⟩
  · rfl
  · cases c with
    | list marker => exact (enterLabel_of_list rfl).symm
    | blockQuote | item | footnote => cases h
  · cases c <;> cases h

theorem continueList_of_leaves {marker : Char} (hmarker : marker? cs = some marker)
    (h : leaves cs o.containers = true) (hstarts : o.startsItem = false) (stop : Nat) :
    o.continueList marker stop = continueList { blocks := (o.finishList stop).blocks } marker stop := by
  have hfinish := finishList_of_leaves h hstarts stop
  obtain ⟨spine, blocks, s, a⟩ := o
  obtain rfl : s = false := hstarts
  rcases spine with _ | ⟨⟨c, start, inner, isLoose⟩, _ | ⟨d, outer⟩⟩
  · cases a <;> rfl
  · cases c with
    | list open' =>
      have hother : (open' == marker) = false := by
        have hne : (marker? cs != some open') = true := h
        rw [hmarker, bne_iff_ne] at hne
        exact beq_eq_false_iff_ne.2 fun he => hne (congrArg some he.symm)
      simp only [continueList, containers, List.map_cons, hother, Bool.false_eq_true, if_false]
      rw [hfinish]
      rfl
    | blockQuote | item | footnote => cases h
  · cases c <;> cases h

section Leaves
variable {c : Cursor} (hb : blankLine? c.rest = none) (h : leaves c.rest o.containers = true)
  (hstarts : o.startsItem = false) (fuel : Nat)
include hb h hstarts

theorem leafFrom_of_leaves :
    leafFrom fuel o c c.lineStart = leafFrom fuel { blocks := (o.finishList c.offset).blocks } c c.lineStart := by
  have hblank : (c.upTo c.lineStart).blankLine? = none := by
    rw [Cursor.blankLine?]
    exact congrArg _ hb
  have hitem : { o with startsItem := false } = o := by
    rw [← hstarts]
  rw [leafFrom, leafFrom, hblank, hitem, finishList_of_leaves h hstarts]
  rfl

theorem blockFrom_of_leaves :
    blockFrom fuel o c c.lineStart = blockFrom fuel { blocks := (o.finishList c.offset).blocks } c c.lineStart := by
  have hleaf := leafFrom_of_leaves hb h hstarts
  cases fuel with
  | zero => exact hleaf 0
  | succ fuel =>
    simp only [blockFrom, openAll]
    cases hm : c.lineStart.listMarker? with
    | some marker =>
      obtain ⟨marker, indent, next⟩ := marker
      have hmarker : marker? c.rest = some marker := by
        rw [marker?, show LineStart.listMarker? { rest := c.rest } = _ from hm]
        rfl
      have hcontinue : o.continueList marker (c.upTo c.lineStart).offset =
          continueList { blocks := (o.finishList c.offset).blocks } marker (c.upTo c.lineStart).offset :=
        continueList_of_leaves hmarker h hstarts _
      simp only [hcontinue]
    | none =>
      cases c.lineStart.quoteMark? with
      | some next =>
        dsimp only
        rw [finishList_of_leaves h hstarts]
        rfl
      | none => exact hleaf (fuel + 1)

end Leaves

/-- A block that no open container goes on with is read as it is outside of all containers. -/
theorem block_of_leaves {c : Cursor} (henter : (o.enterAll c.lineStart).2 = c.lineStart)
    (hb : blankLine? c.rest = none) (h : leaves c.rest (o.continued c).containers = true)
    (hstarts : (o.continued c).startsItem = false) (fuel : Nat) :
    o.block fuel c = block fuel { blocks := ((o.continued c).finishList c.offset).blocks } c := by
  have hlabel := enterLabel_of_leaves h ((o.continued c).finishList c.offset).blocks
  have houtside (blocks : List Block) : continued { blocks } c = { blocks } := rfl
  have hstart (blocks : List Block) : (enterAll { blocks } c.lineStart).2 = c.lineStart := rfl
  rw [block_eq, block_eq, henter, houtside, hstart, hlabel]
  cases footnoteLabel? (o.continued c).enterLabel c.lineStart.rest with
  | none => exact blockFrom_of_leaves hb h hstarts fuel
  | some n =>
    have hfinish : (o.continued c).finishList (c.upTo c.lineStart).offset =
        { blocks := ((o.continued c).finishList c.offset).blocks } := finishList_of_leaves h hstarts _
    dsimp only
    rw [hfinish]
    rfl

theorem readAll_congr {o' : Outline} {fuel : Nat} {c : Cursor} (hne : c.rest ≠ [])
    (h : o.block fuel c = o'.block fuel c) : readAll (fuel + 1) o c = readAll (fuel + 1) o' c := by
  rw [readAll, readAll, if_neg (by simpa using hne), if_neg (by simpa using hne), h]

/-- The containers that go on at the end of a text. -/
def behind (front : List Char) (n : Nat) : Outline := (restsAt front n).1.continued (restsAt front n).2

/-- Reading the text comes to rest before its last line, a blank one that leaves nothing open. -/
structure IsSealed (front : List Char) : Prop where
  rest : (restsAt front 2).2.rest = '\n' :: probe
  containers : ((behind front 2).blankLine (restsAt front 2).2.offset).containers = []
  startsItem : ((behind front 2).blankLine (restsAt front 2).2.offset).startsItem = false
  afterBlank : ((behind front 2).blankLine (restsAt front 2).2.offset).afterBlank = false

/-- Reading the text comes to rest at its end, where another text begins flush with the margin and leaves the
containers that are open. -/
structure IsFinished (front text : List Char) : Prop where
  rest : (restsAt front 1).2.rest = probe
  startsItem : (behind front 1).startsItem = false
  flush : isFlush text = true
  quote : .blockQuote ∈ (restsAt front 1).1.containers → text.head? ≠ some '>'
  leaves : leaves text (behind front 1).containers = true

instance (front : List Char) : Decidable (IsSealed front) :=
  decidable_of_iff ((restsAt front 2).2.rest = '\n' :: probe ∧
      ((behind front 2).blankLine (restsAt front 2).2.offset).containers = [] ∧
      ((behind front 2).blankLine (restsAt front 2).2.offset).startsItem = false ∧
      ((behind front 2).blankLine (restsAt front 2).2.offset).afterBlank = false)
    ⟨fun ⟨hr, hc, hs, ha⟩ => ⟨hr, hc, hs, ha⟩, fun ⟨hr, hc, hs, ha⟩ => ⟨hr, hc, hs, ha⟩⟩

instance (front text : List Char) : Decidable (IsFinished front text) :=
  decidable_of_iff ((restsAt front 1).2.rest = Markdown.probe ∧ (behind front 1).startsItem = false ∧
      isFlush text = true ∧ (.blockQuote ∈ (restsAt front 1).1.containers → text.head? ≠ some '>') ∧
      Outline.leaves text (behind front 1).containers = true)
    ⟨fun ⟨hr, hs, hf, hq, hl⟩ => ⟨hr, hs, hf, hq, hl⟩, fun ⟨hr, hs, hf, hq, hl⟩ => ⟨hr, hs, hf, hq, hl⟩⟩

theorem IsFinished.probe {front text : List Char} (h : IsFinished front text) : IsFinished front probe where
  rest := h.rest
  startsItem := h.startsItem
  flush := isFlush_probe
  quote _ := by decide
  leaves := by
    have hleaves := h.leaves
    generalize (behind front 1).containers = cs at hleaves
    rcases cs with _ | ⟨c, _ | ⟨d, outer⟩⟩
    · rfl
    · cases c with
      | list marker => rfl
      | blockQuote | item | footnote => cases hleaves
    · cases c <;> cases hleaves

/-- What is read of a closed text up to a place near its end. -/
theorem exists_readAll_of_restsAt {front rest : List Char} (hfront : Closed front) {n : Nat} (hn : 0 < n)
    (hrest : (restsAt front n).2.rest = rest ++ probe) :
    (restsAt front n).1.Holds (Block.EndsBy front.length) ∧ (restsAt front n).2.offset + rest.length = front.length ∧
      ∀ v, (rest = [] → isFlush v = true) → ∃ f, 2 * (rest ++ v).length < f ∧
        readAll (2 * (front ++ v).length + 1) {} ⟨0, front ++ v⟩ =
          readAll f (restsAt front n).1 ⟨(restsAt front n).2.offset, rest ++ v⟩ := by
  have hstart : (⟨0, front ++ probe⟩ : Cursor).In (front ++ probe) := rfl
  have hread : readTo n (front.length + 2) {} ⟨0, front ++ probe⟩ =
      appendAt probe ((restsAt front n).1, ⟨(restsAt front n).2.offset, rest⟩) :=
    Prod.ext rfl (by rw [appendAt, Cursor.append, ← hrest]; rfl)
  have hpassed {v : List Char} (hv : rest = [] → isFlush v = true) :=
    exists_readAll_of_readTo (v := v) (c := ⟨0, front⟩) (o := {}) hn (Block.inherits_endsBy front) (.inr (.inr hfront))
      hstart ⟨List.forall_mem_nil _, List.forall_mem_nil _⟩ (Nat.lt_succ_self _) (Nat.lt_succ_self _) hread hv
  obtain ⟨⟨hholds, hin⟩, -⟩ := hpassed fun _ => isFlush_probe
  refine ⟨hholds, ?_, fun v hv => (hpassed hv).2⟩
  have hlength := congrArg List.length (show rest ++ probe = (front ++ probe).drop (restsAt front n).2.offset from hin)
  simp [probe] at hlength
  omega

section Newline
variable (o : Outline) (i : Nat) (v : List Char)

theorem upTo_newline {l : LineStart} (hl : l.On ('\n' :: v)) :
    (⟨i, '\n' :: v⟩ : Cursor).upTo l = ⟨i, '\n' :: v⟩ := by
  have hscanned : l.scanned = 0 := by
    have hline := hl.newline_not_mem
    cases hn : l.scanned with
    | zero => rfl
    | succ n => simp [hn] at hline
  rw [Cursor.upTo, hl.rest_newline, hscanned]
  rfl

theorem openAll_newline (fuel : Nat) (start : Cursor) {l : LineStart} (hl : l.On ('\n' :: v)) :
    openAll fuel o start l = (o, .inl l) := by
  have hindent := (hl.indent 4).rest_newline
  have hskip := (hl.skip 3).rest_newline
  have hmarker : l.listMarker? = none := by
    rw [LineStart.listMarker?]
    generalize l.indent 4 = r at hindent
    obtain ⟨indent, l⟩ := r
    dsimp only at hindent ⊢
    rw [hindent]
    exact ite_self none
  have hquote : l.quoteMark? = none := by simp [LineStart.quoteMark?, hskip]
  cases fuel with
  | zero => rfl
  | succ fuel => simp only [openAll, hmarker, hquote]

theorem block_of_newline (fuel : Nat) : o.block fuel ⟨i, '\n' :: v⟩ =
    ((o.continued ⟨i, '\n' :: v⟩).blankLine i, ⟨i + 1, v⟩) := by
  have hon := o.on_enterAll_lineStart ⟨i, '\n' :: v⟩
  rw [block_eq, hon.rest_newline]
  dsimp only [footnoteLabel?]
  rw [blockFrom, openAll_newline _ v fuel _ hon]
  dsimp only
  rw [leafFrom, upTo_newline i v hon]
  rfl

theorem continued_newline (w : List Char) : o.continued ⟨i, '\n' :: v⟩ = o.continued ⟨i, '\n' :: w⟩ := by
  have hmem : '\n' ∈ (⟨i, ['\n']⟩ : Cursor).rest := by simp
  have hline (v : List Char) : (o.enterAll (⟨i, '\n' :: v⟩ : Cursor).lineStart).1 =
      (o.enterAll (⟨i, ['\n']⟩ : Cursor).lineStart).1 := by
    rw [show (⟨i, '\n' :: v⟩ : Cursor) = (⟨i, ['\n']⟩ : Cursor).append v from rfl, o.enterAll_lineStart_append v hmem]
  rw [continued, continued, hline v, hline w]

end Newline

variable {front : List Char}

theorem eq_of_containers {o : Outline} (hcontainers : o.containers = []) (hstarts : o.startsItem = false)
    (hblank : o.afterBlank = false) : o = { blocks := o.blocks } := by
  obtain ⟨spine, blocks, s, a⟩ := o
  obtain rfl : spine = [] := List.map_eq_nil_iff.1 hcontainers
  obtain rfl : s = false := hstarts
  obtain rfl : a = false := hblank
  rfl

theorem exists_readAll_of_sealed (hfront : Closed front) (h : IsSealed front) :
    ∃ before : List Block, (∀ b ∈ before, b.EndsBy front.length) ∧ ∀ v : List Char, ∃ f, 2 * v.length < f ∧
      readAll (2 * (front ++ v).length + 1) {} ⟨0, front ++ v⟩ = readAll f { blocks := before } ⟨front.length, v⟩ := by
  obtain ⟨hholds, hoffset, hread⟩ := @exists_readAll_of_restsAt front ['\n'] hfront 2 Nat.two_pos h.rest
  have hn : Nests (Block.EndsBy front.length) (restsAt front 2).2.offset :=
    (Block.inherits_endsBy front).nested (by simp [probe] at hoffset ⊢; omega)
  have hbehind : (behind front 2).Holds (Block.EndsBy front.length) := hholds.continued hn
  refine ⟨_, (hbehind.blankLine hn).blocks, fun v => ?_⟩
  obtain ⟨f, hf, hf'⟩ := hread v fun hnil => absurd hnil (List.cons_ne_nil _ _)
  obtain ⟨f, rfl⟩ := Nat.exists_eq_succ_of_ne_zero (Nat.ne_zero_of_lt hf)
  have hcontinued : (restsAt front 2).1.continued ⟨(restsAt front 2).2.offset, '\n' :: v⟩ = behind front 2 := by
    rw [behind, continued_newline _ _ v probe, ← h.rest]
  have hblock := block_of_newline (restsAt front 2).1 (restsAt front 2).2.offset v f
  rw [hcontinued, eq_of_containers h.containers h.startsItem h.afterBlank] at hblock
  refine ⟨f, ?_, ?_⟩
  · simp only [List.length_append, List.length_singleton] at hf
    omega
  · rw [hf', List.singleton_append, readAll_cons, hblock]
    dsimp only
    rw [show (restsAt front 2).2.offset + 1 = front.length from hoffset]

theorem exists_readAll_of_finished {text : List Char} (hfront : Closed front) (h : IsFinished front text) :
    ∃ before : List Block, (∀ b ∈ before, b.EndsBy front.length) ∧ ∀ v : List Char, IsFinished front v →
      ∃ f, 2 * v.length < f ∧ readAll (2 * (front ++ v).length + 1) {} ⟨0, front ++ v⟩ =
        readAll f { blocks := before } ⟨front.length, v⟩ := by
  obtain ⟨hholds, hoffset, hread⟩ := @exists_readAll_of_restsAt front [] hfront 1 Nat.one_pos h.rest
  have hn : Nests (Block.EndsBy front.length) (restsAt front 1).2.offset :=
    (Block.inherits_endsBy front).nested (by simp [probe] at hoffset ⊢; omega)
  have hbehind : (behind front 1).Holds (Block.EndsBy front.length) := hholds.continued hn
  refine ⟨_, (hbehind.finishList hn).blocks, fun v hv => ?_⟩
  obtain ⟨f, hf, hf'⟩ := hread v fun _ => hv.flush
  obtain ⟨f, rfl⟩ := Nat.exists_eq_succ_of_ne_zero (Nat.ne_zero_of_lt hf)
  have hne : v ≠ [] := by
    obtain ⟨c, rest, rfl, -⟩ := exists_cons_of_isFlush hv.flush
    exact List.cons_ne_nil c rest
  have henter {v : List Char} (hv : IsFinished front v) :
      (restsAt front 1).1.enterAll (⟨(restsAt front 1).2.offset, v⟩ : Cursor).lineStart =
        ((Container.enterAll { rest := probe } (restsAt front 1).1.containers).1, { rest := v }) :=
    Container.enterAll_of_isFlush hv.flush hv.quote
  have hcontinued : (restsAt front 1).1.continued ⟨(restsAt front 1).2.offset, v⟩ = behind front 1 := by
    have hprobe := henter h.probe
    have hstart : (⟨(restsAt front 1).2.offset, probe⟩ : Cursor) = (restsAt front 1).2 := by rw [← h.rest]
    rw [hstart] at hprobe
    rw [behind, continued, henter hv, continued, hprobe]
  have hblock := block_of_leaves (o := (restsAt front 1).1) (c := ⟨(restsAt front 1).2.offset, v⟩)
    (congrArg Prod.snd (henter hv)) (blankLine?_of_isFlush hv.flush) (hcontinued ▸ hv.leaves)
    (hcontinued ▸ h.startsItem) f
  refine ⟨f + 1, hf, ?_⟩
  rw [hf', List.nil_append, readAll_congr hne hblock, hcontinued, ← hoffset]
  rfl

end Outline

/-- Reading a closed text comes to rest at its end, and the text behind it goes on with nothing in it. -/
def Parts (front text : List Char) : Prop := Outline.IsSealed front ∨ Outline.IsFinished front text

instance (front text : List Char) : Decidable (Parts front text) := inferInstanceAs (Decidable (_ ∨ _))

/-- Behind a closed text, another text keeps its blocks, and so does a line of text. -/
theorem exists_blocks_append {front text : List Char} (hfront : Closed front) (h : Parts front text) :
    ∃ bs : List Block, ∀ v, v = text ∨ v = probe → blocks (front ++ v) = bs ++ Block.shiftAll front.length (blocks v) := by
  have hread : ∃ before : List Block, (∀ b ∈ before, b.EndsBy front.length) ∧ ∀ v, v = text ∨ v = probe →
      ∃ f, 2 * v.length < f ∧ Outline.readAll (2 * (front ++ v).length + 1) {} ⟨0, front ++ v⟩ =
        Outline.readAll f { blocks := before } ⟨front.length, v⟩ := by
    rcases h with h | h
    · obtain ⟨before, hends, hread⟩ := Outline.exists_readAll_of_sealed hfront h
      exact ⟨before, hends, fun v _ => hread v⟩
    · obtain ⟨before, hends, hread⟩ := Outline.exists_readAll_of_finished hfront h
      refine ⟨before, hends, fun v hv => hread v ?_⟩
      rcases hv with rfl | rfl
      · exact h
      · exact h.probe
  obtain ⟨before, hends, hread⟩ := hread
  refine ⟨Block.settleAll (front ++ probe).toArray [] before.reverse, fun v hv => ?_⟩
  obtain ⟨f, hf, hv⟩ := hread v hv
  rw [blocks_append_of_readAll hf hv]
  congr 1
  refine Block.settleAll_congr front v probe [] _ (Block.allEndBy_iff.2 fun b hb => ?_)
  exact hends b (List.mem_reverse.1 hb)

end ComponentDocs.Markdown
