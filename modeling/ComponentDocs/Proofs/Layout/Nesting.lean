import ComponentDocs.Proofs.Layout.Verbatim
/-! The lines that a stream of events protects: those with a character in a block of code, or in HTML around which no tag
with running text is open. It is enough to count the open tags of this kind as long as the tags are well nested. -/
namespace ComponentDocs

namespace Markdown

/-- What an event makes of the open tags, the innermost first. Only the innermost can be closed. -/
def Event.nest (enclosing : List Tag) : Event → Option (List Tag)
  | .opened t => some (t :: enclosing)
  | .closed t => if enclosing.head? = some t then some enclosing.tail else none
  | .code _ | .html _ | .text _ => some enclosing

/-- The tags that are open after some events, if the events are in order. -/
def openAfter (enclosing : List Tag) (es : List Event) : Option (List Tag) := es.foldlM Event.nest enclosing

/-- Every tag is closed, after all tags that are opened in it. -/
def WellNested (es : List Event) : Prop := openAfter [] es = some []

instance (es : List Event) : Decidable (WellNested es) := inferInstanceAs (Decidable (_ = _))

/-- Among the events is HTML with the range `s`, and no tag that is open there holds running text. -/
def StandsFree (enclosing : List Tag) (es : List Event) (s : Span) : Prop :=
  ∃ before after inner, es = before ++ .html s :: after ∧ openAfter enclosing before = some inner ∧
    ∀ t ∈ inner, t ∉ [Tag.paragraph, .heading, .item, .tableCell]

theorem Tag.holdsText_iff (t : Tag) : t.holdsText = true ↔ t ∈ [Tag.paragraph, .heading, .item, .tableCell] := by
  cases t <;> decide

end Markdown

namespace Layout
open Markdown Text

def textDepth (enclosing : List Tag) : Nat := enclosing.countP Tag.holdsText

theorem textDepth_eq_zero_iff (enclosing : List Tag) :
    textDepth enclosing = 0 ↔ ∀ t ∈ enclosing, t ∉ [Tag.paragraph, .heading, .item, .tableCell] := by
  simp only [textDepth, List.countP_eq_zero, Tag.holdsText_iff]

/-- The range that an event protects by itself. -/
def ownSpan (depth : Nat) : Event → List Span
  | .code s => [s]
  | .html s => if depth = 0 then [s] else []
  | .opened _ | .closed _ | .text _ => []

theorem mem_ownSpan_iff {s : Span} {depth : Nat} {e : Event} :
    s ∈ ownSpan depth e ↔ .code s = e ∨ (e = .html s ∧ depth = 0) := by
  cases e with
  | html u => by_cases hdepth : depth = 0 <;> simp [ownSpan, hdepth, eq_comm]
  | code u | opened t | closed t | text u => simp [ownSpan]

section Nested
variable {enclosing inner : List Tag} {e : Event}

theorem protectedSpans_cons (h : e.nest enclosing = some inner) (es : List Event) :
    protectedSpans (textDepth enclosing) (e :: es) =
      ownSpan (textDepth enclosing) e ++ protectedSpans (textDepth inner) es := by
  cases e with
  | code s | text s =>
    cases h
    rfl
  | html s =>
    cases h
    rw [protectedSpans, ownSpan]
    split <;> rfl
  | opened t =>
    cases h
    rw [protectedSpans, textDepth, textDepth, List.countP_cons]
    cases t.holdsText <;> rfl
  | closed t =>
    cases enclosing with
    | nil => simp [Event.nest] at h
    | cons u outer =>
      simp only [Event.nest, List.head?_cons, Option.some.injEq, List.tail_cons] at h
      split at h
      · next hu =>
        cases h
        subst hu
        rw [protectedSpans, textDepth, textDepth, List.countP_cons]
        cases u.holdsText <;> rfl
      · cases h

theorem openAfter_cons (h : e.nest enclosing = some inner) (es : List Event) :
    openAfter enclosing (e :: es) = openAfter inner es := by
  rw [openAfter, List.foldlM_cons, h]
  rfl

theorem standsFree_cons_iff (h : e.nest enclosing = some inner) (es : List Event) (s : Span) :
    StandsFree enclosing (e :: es) s ↔ (e = .html s ∧ textDepth enclosing = 0) ∨ StandsFree inner es s := by
  rw [textDepth_eq_zero_iff]
  constructor
  · rintro ⟨before, after, there, hes, hopen, hfree⟩
    rcases List.cons_eq_append_iff.1 hes with ⟨rfl, hhead⟩ | ⟨front, rfl, htail⟩
    · obtain ⟨rfl, -⟩ := List.cons.inj hhead
      cases hopen
      exact .inl ⟨rfl, hfree⟩
    · rw [openAfter_cons h] at hopen
      exact .inr ⟨front, after, there, htail, hopen, hfree⟩
  · rintro (⟨rfl, hfree⟩ | ⟨before, after, there, rfl, hopen, hfree⟩)
    · exact ⟨[], es, enclosing, rfl, rfl, hfree⟩
    · exact ⟨e :: before, after, there, rfl, (openAfter_cons h before).trans hopen, hfree⟩

end Nested

/-- The count finds out the HTML that stands free as long as no tag is closed out of order. -/
theorem mem_protectedSpans_iff {enclosing left : List Tag} {es : List Event} (h : openAfter enclosing es = some left)
    (s : Span) : s ∈ protectedSpans (textDepth enclosing) es ↔ .code s ∈ es ∨ StandsFree enclosing es s := by
  induction es generalizing enclosing with
  | nil => simp [protectedSpans, StandsFree]
  | cons e es ih =>
    obtain ⟨inner, hnest, hrest⟩ := Option.bind_eq_some_iff.1 ((List.foldlM_cons ..).symm.trans h)
    rw [protectedSpans_cons hnest, List.mem_append, mem_ownSpan_iff, ih hrest, standsFree_cons_iff hnest, List.mem_cons,
      or_or_or_comm]

/-- Where a line starts: behind the lines before it and the line feeds that end them. -/
def startOfLine (document : List Char) (k : Nat) : Nat :=
  (((lines document).take k).map fun line => line.length + 1).sum

def lineSpan (document : List Char) (k : Nat) : Span :=
  ⟨startOfLine document k, min (startOfLine document (k + 1)) document.length⟩

theorem startOfLine_newline (cs : List Char) (k : Nat) :
    startOfLine ('\n' :: cs) (k + 1) = startOfLine cs k + 1 := by
  simp [startOfLine, lines_newline, Nat.add_comm]

theorem startOfLine_cons {c : Char} (hc : c ≠ '\n') (cs : List Char) (k : Nat) :
    startOfLine (c :: cs) (k + 1) = startOfLine cs (k + 1) + 1 := by
  cases hl : lines cs with
  | nil => exact absurd hl (lines_ne_nil cs)
  | cons l ls =>
    simp [startOfLine, lines, hc, hl]
    omega

theorem startOfLine_le_iff {document : List Char} {i : Nat} (hi : i ≤ document.length) (k : Nat) :
    startOfLine document k ≤ i ↔ k ≤ lineAt document i := by
  induction document generalizing i k with
  | nil =>
    obtain rfl : i = 0 := by simpa using hi
    cases k <;> simp [startOfLine, lines, lineAt]
  | cons c cs ih =>
    cases k with
    | zero => simp [startOfLine]
    | succ k =>
      cases i with
      | zero =>
        obtain ⟨l, ls, hl⟩ := List.exists_cons_of_ne_nil (lines_ne_nil (c :: cs))
        simp [startOfLine, hl, lineAt]
      | succ i =>
        have hrest := ih (Nat.le_of_succ_le_succ hi)
        by_cases hc : c = '\n'
        · subst hc
          rw [startOfLine_newline, lineAt, List.take_succ_cons, List.count_cons_self, Nat.add_le_add_iff_right,
            Nat.add_le_add_iff_right, hrest]
          rfl
        · rw [startOfLine_cons hc, lineAt, List.take_succ_cons, List.count_cons_of_ne hc, Nat.add_le_add_iff_right, hrest]
          rfl

theorem mem_lineSpan_iff {document : List Char} {i k : Nat} :
    i ∈ lineSpan document k ↔ i < document.length ∧ lineAt document i = k := by
  show startOfLine document k ≤ i ∧ i < min (startOfLine document (k + 1)) document.length ↔ _
  rw [lt_min_iff]
  constructor
  · rintro ⟨hstart, hstop, hi⟩
    have hle := (startOfLine_le_iff hi.le k).1 hstart
    have hnot := mt (startOfLine_le_iff hi.le (k + 1)).2 hstop.not_ge
    exact ⟨hi, by omega⟩
  · rintro ⟨hi, rfl⟩
    have hnot := mt (startOfLine_le_iff hi.le (lineAt document i + 1)).1 (by omega)
    exact ⟨(startOfLine_le_iff hi.le _).2 le_rfl, Nat.lt_of_not_le hnot, hi⟩

/-- A line is protected if one of its characters is in a block of code, or in HTML that stands free, and only then. -/
theorem protectedLines_exact {document : List Char} {es : List Event} (hnested : WellNested es)
    (hinside : ∀ s, .code s ∈ es ∨ .html s ∈ es → s.stop ≤ document.length) {count k : Nat} (hk : k < count) :
    ∃ mark, (protectedLines document count es)[k]? = some mark ∧
      (mark = true ↔ ∃ i ∈ lineSpan document k, ∃ s, i ∈ s ∧ (.code s ∈ es ∨ StandsFree [] es s)) := by
  obtain ⟨mark, hmark, hiff⟩ := getElem?_protectedLines_spans document es hk
  have hspans (s : Span) : s ∈ protectedSpans 0 es ↔ .code s ∈ es ∨ StandsFree [] es s := mem_protectedSpans_iff hnested s
  refine ⟨mark, hmark, hiff.trans ⟨?_, ?_⟩⟩
  · rintro ⟨s, hs, i, hi, hline⟩
    have hs' := (hspans s).1 hs
    have hevent : .code s ∈ es ∨ .html s ∈ es := by
      refine hs'.imp_right ?_
      rintro ⟨before, after, inner, rfl, -, -⟩
      simp
    exact ⟨i, mem_lineSpan_iff.2 ⟨hi.2.trans_le (hinside s hevent), hline⟩, s, hi, hs'⟩
  · rintro ⟨i, hline, s, hi, hs⟩
    exact ⟨s, (hspans s).2 hs, i, hi, (mem_lineSpan_iff.1 hline).2⟩

def nestedText : List Char := "* <b>\n> <hr>\n```\nx\n".toList

/-- HTML in a list item and in a block quote, and a block of code behind them. -/
def nestedEvents : List Event :=
  [.opened .list, .opened .item, .html ⟨2, 5⟩, .closed .item, .closed .list, .opened .blockQuote, .html ⟨8, 13⟩,
    .closed .blockQuote, .code ⟨13, 19⟩]

theorem protectedLines_exact_nested :
    WellNested nestedEvents ∧
      (∀ s, .code s ∈ nestedEvents ∨ .html s ∈ nestedEvents → s.stop ≤ nestedText.length) ∧ 1 < 5 ∧
      protectedLines nestedText 5 nestedEvents = [false, true, true, true, false] ∧
      ∃ mark, (protectedLines nestedText 5 nestedEvents)[1]? = some mark ∧
        (mark = true ↔ ∃ i ∈ lineSpan nestedText 1, ∃ s, i ∈ s ∧
          (.code s ∈ nestedEvents ∨ StandsFree [] nestedEvents s)) := by
  have hnested : WellNested nestedEvents := by decide
  have hinside : ∀ s, .code s ∈ nestedEvents ∨ .html s ∈ nestedEvents → s.stop ≤ nestedText.length := by
    rintro s (h | h)
    · obtain rfl : s = ⟨13, 19⟩ := by simpa [nestedEvents] using h
      decide
    · obtain rfl | rfl : s = ⟨2, 5⟩ ∨ s = ⟨8, 13⟩ := by simpa [nestedEvents] using h
      · decide
      · decide
  exact ⟨hnested, hinside, by decide, by decide +kernel, protectedLines_exact hnested hinside (by decide)⟩

end Layout

end ComponentDocs
