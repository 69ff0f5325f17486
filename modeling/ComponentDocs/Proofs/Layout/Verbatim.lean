import ComponentDocs.Proofs.Layout.FixedPoint
import Mathlib.Tactic
/-! Which lines the formatter leaves alone: those of the blocks of code at any depth, and those of
HTML outside of list items. -/
namespace ComponentDocs

namespace Markdown.Block

mutual

/-- The ranges of the blocks of code in a block, at any depth, and of its lines of HTML that are in no
list item. -/
def verbatim (inItem : Bool) : Block → List Span
  | .code s => [s]
  | .html s => if inItem then [] else [s]
  | .nested (.item _) _ _ blocks => verbatimOfAll true blocks
  | .nested _ _ _ blocks => verbatimOfAll inItem blocks
  | _ => []

def verbatimOfAll (inItem : Bool) : List Block → List Span
  | [] => []
  | b :: bs => b.verbatim inItem ++ verbatimOfAll inItem bs

end

end Markdown.Block

namespace Layout
open Markdown Text

theorem protectedSpans_texts (depth : Nat) (lines : List Span) (es : List Event) :
    protectedSpans depth (lines.map .text ++ es) = protectedSpans depth es := by
  induction lines with
  | nil => rfl
  | cons line lines ih => rw [List.map_cons, List.cons_append, protectedSpans, ih]

theorem protectedSpans_enclosed (depth : Nat) (tag : Tag) (lines : List Span) (es : List Event) :
    protectedSpans depth ((.opened tag :: lines.map .text ++ [.closed tag]) ++ es) = protectedSpans depth es := by
  have hback : (if tag.holdsText then (if tag.holdsText then depth + 1 else depth) - 1
      else if tag.holdsText then depth + 1 else depth) = depth := by
    cases tag.holdsText <;> rfl
  rw [List.append_assoc, List.cons_append, protectedSpans, protectedSpans_texts, List.singleton_append,
    protectedSpans, hback]

mutual

/-- The count of open tags finds out the lines of HTML in list items, and no others: no block but a list item
leaves such a tag open around other blocks. -/
theorem protectedSpans_events (b : Block) (depth : Nat) (es : List Event) :
    protectedSpans depth (b.events ++ es) = b.verbatim (depth != 0) ++ protectedSpans depth es := by
  cases b with
  | code s => rfl
  | html s => cases depth <;> rfl
  | heading lines => exact protectedSpans_enclosed depth .heading lines es
  | paragraph lines => exact protectedSpans_enclosed depth .paragraph lines es
  | text lines => exact protectedSpans_texts depth lines es
  | table s => exact protectedSpans_enclosed depth .table [] es
  | taskBox => rfl
  | nested c isTight s blocks =>
    have hevents : (Block.nested c isTight s blocks).events ++ es =
        .opened c.tag :: (Block.eventsOfAll blocks ++ .closed c.tag :: es) := by
      rw [Block.events]
      show (_ :: _) ++ _ ++ _ = _
      simp
    have hinner (inner : Nat) := protectedSpans_eventsOfAll blocks inner (.closed c.tag :: es)
    rw [hevents, protectedSpans, hinner, protectedSpans]
    cases c <;> rfl

theorem protectedSpans_eventsOfAll (bs : List Block) (depth : Nat) (es : List Event) :
    protectedSpans depth (Block.eventsOfAll bs ++ es) =
      Block.verbatimOfAll (depth != 0) bs ++ protectedSpans depth es := by
  cases bs with
  | nil => rfl
  | cons b bs =>
    rw [Block.eventsOfAll, List.append_assoc, protectedSpans_events b, protectedSpans_eventsOfAll bs,
      Block.verbatimOfAll, List.append_assoc]

end

def lineAt (document : List Char) (i : Nat) : Nat := (document.take i).count '\n'

theorem lineAt_le (document : List Char) {i j : Nat} (h : i ≤ j) : lineAt document i ≤ lineAt document j :=
  (List.take_sublist_take_left h).count_le _

theorem lineAt_succ_le (document : List Char) (i : Nat) : lineAt document (i + 1) ≤ lineAt document i + 1 := by
  rw [lineAt, lineAt, List.take_add_one, List.count_append]
  cases document[i]? with
  | none => simp
  | some c =>
    have hone : [c].count '\n' ≤ [c].length := List.count_le_length
    simpa using hone

theorem lineAt_eq_of_not_mem {document : List Char} {i j : Nat} (hij : i ≤ j)
    (h : '\n' ∉ (document.drop i).take (j - i)) : lineAt document j = lineAt document i := by
  obtain ⟨d, rfl⟩ := Nat.exists_eq_add_of_le hij
  rw [Nat.add_sub_cancel_left] at h
  rw [lineAt, List.take_add, List.count_append, List.count_eq_zero_of_not_mem h, Nat.add_zero, lineAt]

theorem exists_lineAt (document : List Char) {i j k : Nat} (h : i ≤ j) (hi : lineAt document i ≤ k)
    (hj : k ≤ lineAt document j) : ∃ m, i ≤ m ∧ m ≤ j ∧ lineAt document m = k := by
  induction j, h using Nat.le_induction with
  | base => exact ⟨i, le_rfl, le_rfl, le_antisymm hi hj⟩
  | succ j hij ih =>
    by_cases hk : k ≤ lineAt document j
    · obtain ⟨m, him, hmj, hm⟩ := ih hk
      exact ⟨m, him, by omega, hm⟩
    · have hs := lineAt_succ_le document j
      exact ⟨j + 1, by omega, le_rfl, by omega⟩

theorem getElem?_lineNumbers (n : Nat) (cs : List Char) (i : Nat) :
    (lineNumbers n cs)[i]? = if i ≤ cs.length then some (n + lineAt cs i) else none := by
  induction cs generalizing n i with
  | nil => cases i <;> simp [lineNumbers, lineAt]
  | cons c cs ih =>
    cases i with
    | zero => simp [lineNumbers, lineAt]
    | succ i =>
      rw [lineNumbers, List.getElem?_cons_succ, ih]
      by_cases hc : c = '\n' <;> simp [lineAt, hc, Nat.add_assoc, Nat.add_comm 1]

theorem getLast?_lineNumbers (n : Nat) (cs : List Char) :
    (lineNumbers n cs).getLast? = some (n + cs.count '\n') := by
  induction cs generalizing n with
  | nil => rfl
  | cons c cs ih =>
    rw [lineNumbers, List.getLast?_cons, ih]
    by_cases hc : c = '\n' <;> simp [hc, Nat.add_assoc, Nat.add_comm 1]

theorem touchedLines_eq (document : List Char) (s : Span) :
    touchedLines (lineNumbers 0 document).toArray s =
      if s.isEmpty then none else some (lineAt document s.start, lineAt document (s.stop - 1)) := by
  have hnumber (i : Nat) : (((lineNumbers 0 document).toArray[i]?.or (lineNumbers 0 document).toArray.back?).getD 0) =
      lineAt document i := by
    rw [List.getElem?_toArray, List.back?_toArray, getElem?_lineNumbers, getLast?_lineNumbers]
    split
    · simp
    · next h => simp [lineAt, List.take_of_length_le (Nat.le_of_not_le h)]
  simp only [touchedLines, hnumber]

theorem exists_mem_lineAt_iff (document : List Char) (s : Span) (k : Nat) : (∃ i ∈ s, lineAt document i = k) ↔
    s.start < s.stop ∧ lineAt document s.start ≤ k ∧ k ≤ lineAt document (s.stop - 1) := by
  constructor
  · rintro ⟨i, ⟨hi, hi'⟩, rfl⟩
    exact ⟨by omega, lineAt_le document hi, lineAt_le document (by omega)⟩
  · rintro ⟨hs, hf, hl⟩
    obtain ⟨m, hm, hm', rfl⟩ := exists_lineAt document (show s.start ≤ s.stop - 1 by omega) hf hl
    exact ⟨m, ⟨hm, by omega⟩, rfl⟩

/-- A line that a part of a block of code is on, or of a line of HTML outside of list items. -/
def IsVerbatim (document : List Char) (k : Nat) : Prop :=
  ∃ s ∈ Block.verbatimOfAll false (blocks document), ∃ i ∈ s, lineAt document i = k

instance (document : List Char) (k : Nat) : Decidable (IsVerbatim document k) :=
  decidable_of_iff (∃ s ∈ Block.verbatimOfAll false (blocks document),
    s.start < s.stop ∧ lineAt document s.start ≤ k ∧ k ≤ lineAt document (s.stop - 1))
    (by simp only [IsVerbatim, exists_mem_lineAt_iff])

theorem protectedSpans_zero (document : List Char) :
    protectedSpans 0 (events document) = Block.verbatimOfAll false (blocks document) := by
  have h := protectedSpans_eventsOfAll (blocks document) 0 []
  rw [List.append_nil] at h
  rw [events, h]
  exact List.append_nil _

theorem getElem?_protectedLines_spans (document : List Char) (es : List Event) {count k : Nat} (hk : k < count) :
    ∃ mark, (protectedLines document count es)[k]? = some mark ∧
      (mark = true ↔ ∃ s ∈ protectedSpans 0 es, ∃ i ∈ s, lineAt document i = k) := by
  refine ⟨_, by rw [protectedLines, List.getElem?_map, List.getElem?_range hk]; rfl, ?_⟩
  rw [List.any_eq_true]
  constructor
  · rintro ⟨⟨first, last⟩, hm, hr⟩
    obtain ⟨s, hs, ht⟩ := List.mem_filterMap.1 hm
    rw [touchedLines_eq] at ht
    split at ht
    · cases ht
    · next he =>
      cases ht
      have hlt : s.start < s.stop := by simpa [Span.isEmpty] using he
      exact ⟨s, hs, (exists_mem_lineAt_iff document s k).2 ⟨hlt, by simpa using hr⟩⟩
  · rintro ⟨s, hs, hi⟩
    obtain ⟨hlt, hr⟩ := (exists_mem_lineAt_iff document s k).1 hi
    have he : s.isEmpty = false := decide_eq_false (Nat.not_le.2 hlt)
    refine ⟨(lineAt document s.start, lineAt document (s.stop - 1)), List.mem_filterMap.2 ⟨s, hs, ?_⟩, by simpa using hr⟩
    rw [touchedLines_eq, he]
    rfl

/-- The protected lines are those of blocks of code, and of HTML outside of list items. -/
theorem getElem?_protectedLines (document : List Char) {count k : Nat} (hk : k < count) :
    ∃ mark, (protectedLines document count (events document))[k]? = some mark ∧
      (mark = true ↔ IsVerbatim document k) := by
  obtain ⟨mark, hmark, hiff⟩ := getElem?_protectedLines_spans document (events document) hk
  exact ⟨mark, hmark, by rw [hiff, protectedSpans_zero, IsVerbatim]⟩

/-! Blocks of code, and of HTML outside of list items, come out as they went in. -/

/-- What comes after some lines is laid out by itself, once it is known whether text came last and
whether a blank line is due. -/
theorem exists_laid_append (front rest : List MarkedLine) (afterText due : Bool) :
    ∃ before afterText' due', laid afterText due (front ++ rest) = before ++ laid afterText' due' rest := by
  induction front generalizing afterText due with
  | nil => exact ⟨[], afterText, due, rfl⟩
  | cons line front ih =>
    rw [List.cons_append]
    cases hb : isBlank line.1 with
    | true =>
      obtain ⟨before, a, d, he⟩ := ih false due
      exact ⟨_, a, d, by rw [laid_blank _ _ _ hb, he, ← List.append_assoc]⟩
    | false =>
      obtain ⟨before, a, d, he⟩ := ih true (isHeading line)
      exact ⟨_, a, d, by rw [laid_text _ _ _ hb, he, ← List.cons_append, ← List.append_assoc]⟩

theorem laid_protected_blank {line : MarkedLine} (h : line.2 = true) (hb : isBlank line.1 = true)
    (rest : List MarkedLine) (afterText due : Bool) :
    laid afterText due (line :: rest) = line :: laid false due rest := by
  rw [laid_blank rest _ _ hb, if_pos h]
  rfl

theorem laid_protected_text {line : MarkedLine} (h : line.2 = true) (hb : isBlank line.1 = false)
    (rest : List MarkedLine) (afterText due : Bool) :
    laid afterText due (line :: rest) = (if due then gap afterText else []) ++ line :: laid true false rest := by
  have hheading : isHeading line = false := by simp [isHeading, h]
  rw [laid_text rest _ _ hb, hheading, Bool.or_false, image, if_pos h]

section Run
variable {run : List MarkedLine} (h : ∀ line ∈ run, line.2 = true) (rest : List MarkedLine)
include h

/-- Where no blank line is due after text, protected lines are laid out as they are. After the first
of them none is due any more, or it is blank. -/
theorem exists_laid_run (afterText due : Bool) (hd : afterText = false ∨ due = false) :
    ∃ afterText' due', laid afterText due (run ++ rest) = run ++ laid afterText' due' rest := by
  induction run generalizing afterText due with
  | nil => exact ⟨afterText, due, rfl⟩
  | cons line run ih =>
    have hline := h line (by simp)
    have hrun : ∀ line ∈ run, line.2 = true := fun line hl => h line (by simp [hl])
    rw [List.cons_append]
    cases hb : isBlank line.1 with
    | true =>
      obtain ⟨a, d, he⟩ := ih hrun false due (.inl rfl)
      exact ⟨a, d, by rw [laid_protected_blank hline hb, he, List.cons_append]⟩
    | false =>
      have hgap : (if due then gap afterText else []) = [] := by
        rcases hd with rfl | rfl <;> simp [gap]
      obtain ⟨a, d, he⟩ := ih hrun true false (.inr rfl)
      exact ⟨a, d, by rw [laid_protected_text hline hb, hgap, he, List.nil_append, List.cons_append]⟩

theorem exists_laid_protected (afterText due : Bool) : ∃ separator afterText' due',
    laid afterText due (run ++ rest) = separator ++ (run ++ laid afterText' due' rest) := by
  cases run with
  | nil => exact ⟨[], afterText, due, rfl⟩
  | cons line run =>
    have hline := h line (by simp)
    have hrun : ∀ line ∈ run, line.2 = true := fun line hl => h line (by simp [hl])
    rw [List.cons_append]
    cases hb : isBlank line.1 with
    | true =>
      obtain ⟨a, d, he⟩ := exists_laid_run hrun rest false due (.inl rfl)
      exact ⟨[], a, d, by rw [laid_protected_blank hline hb, he, List.nil_append, List.cons_append]⟩
    | false =>
      obtain ⟨a, d, he⟩ := exists_laid_run hrun rest true false (.inr rfl)
      exact ⟨if due then gap afterText else [], a, d, by rw [laid_protected_text hline hb, he, List.cons_append]⟩

end Run

/-- Blank lines alone leave blank lines alone, and every other line leaves text. -/
theorem all_isBlank_laid (ms : List MarkedLine) (afterText due : Bool) :
    ((laid afterText due ms).map Prod.fst).all isBlank = (ms.map Prod.fst).all isBlank := by
  have hgap (b : Bool) : ((gap b).map Prod.fst).all isBlank = true := by cases b <;> rfl
  induction ms generalizing afterText due with
  | nil => rfl
  | cons line rest ih =>
    cases hb : isBlank line.1 with
    | true =>
      have hfirst : ((if line.2 then [line] else gap afterText).map Prod.fst).all isBlank = true := by
        cases line.2
        · exact hgap afterText
        · simpa using hb
      rw [laid_blank _ _ _ hb, List.map_append, List.all_append, hfirst, ih, List.map_cons, List.all_cons, hb]
    | false =>
      rw [laid_text _ _ _ hb, List.map_append, List.all_append, List.map_cons, List.all_cons,
        isBlank_image _ hb, List.map_cons, List.all_cons, hb, Bool.false_and, Bool.false_and, Bool.and_false]

theorem rdropWhile_append (front back : List Line) : (front ++ back).rdropWhile isBlank =
    if back.all isBlank then front.rdropWhile isBlank else front ++ back.rdropWhile isBlank := by
  have hall : (back.reverse.dropWhile isBlank).isEmpty = back.all isBlank := by
    rw [Bool.eq_iff_iff, List.isEmpty_iff, List.dropWhile_eq_nil_iff, List.all_eq_true]
    simp
  simp only [List.rdropWhile, List.reverse_append, List.dropWhile_append, hall]
  split <;> simp

/-- What is dropped at the end takes nothing from lines that text comes after. -/
theorem infix_rdropWhile (front run back : List Line) :
    (if back.all isBlank then run.rdropWhile isBlank else run) <:+:
      (front ++ (run ++ back)).rdropWhile isBlank := by
  rw [rdropWhile_append front, rdropWhile_append run back, List.all_append]
  cases hb : back.all isBlank with
  | false =>
    rw [Bool.and_false, if_neg Bool.false_ne_true, if_neg Bool.false_ne_true, if_neg Bool.false_ne_true,
      ← List.append_assoc]
    exact List.infix_append ..
  | true =>
    rw [Bool.and_true, if_pos rfl, if_pos rfl]
    split
    · next hrun =>
      have hnil : run.rdropWhile isBlank = [] := List.rdropWhile_eq_nil_iff.2 (List.all_eq_true.1 hrun)
      rw [hnil]
      exact List.nil_infix
    · exact (List.suffix_append ..).isInfix

theorem dropLast_lines_canonical (text : List Char) : (lines (canonical text)).dropLast =
    ((laid false false (markLines (unixNewlines text))).map Prod.fst).rdropWhile isBlank := by
  have hn : ∀ l ∈ ((laid false false (markLines (unixNewlines text))).map Prod.fst).rdropWhile isBlank, '\n' ∉ l := by
    intro l hl
    have hm : ∀ m ∈ markLines (unixNewlines text), '\n' ∉ m.1 := fun m hm => newline_not_mem_of_mem_markLines hm
    exact newline_not_mem_laid hm false false l ((List.rdropWhile_prefix isBlank _).subset hl)
  rw [canonical, layOut_eq]
  split
  · next he => rw [he]; rfl
  · next hne => rw [lines_append_newline, lines_joinLines hne hn, List.dropLast_concat]

theorem marked_iff_isVerbatim {text : List Char} {k : Nat} {m : MarkedLine} (h : (markLines text)[k]? = some m) :
    m.2 = true ↔ IsVerbatim text k := by
  obtain ⟨hline, hmark⟩ := List.getElem?_zip_eq_some.1 h
  obtain ⟨mark, hm, hiff⟩ := getElem?_protectedLines text (List.getElem?_eq_some_iff.1 hline).1
  obtain rfl : mark = m.2 := Option.some.inj (hm.symm.trans hmark)
  exact hiff

/-- Lines of blocks of code, and of HTML outside of list items, come out one after the other as they went in.
Blank lines among them are lost only at their end, and there only if no text follows. -/
theorem verbatim_infix (text : String) {front run back : List Line}
    (hl : lines (unixNewlines text.toList) = front ++ run ++ back)
    (hr : ∀ i < run.length, IsVerbatim (unixNewlines text.toList) (front.length + i)) :
    (if back.all isBlank then run.rdropWhile isBlank else run) <:+:
      (lines (canonicalize text).toList).dropLast := by
  obtain ⟨before, marked, after, hm, rfl, rfl, rfl⟩ : ∃ before marked after,
      markLines (unixNewlines text.toList) = before ++ (marked ++ after) ∧
        before.map Prod.fst = front ∧ marked.map Prod.fst = run ∧ after.map Prod.fst = back := by
    have hfst := map_fst_markLines (unixNewlines text.toList)
    rw [hl, List.append_assoc, List.map_eq_append_iff] at hfst
    obtain ⟨before, rest, hm, hb, hrest⟩ := hfst
    obtain ⟨marked, after, rfl, hma, haf⟩ := List.map_eq_append_iff.1 hrest
    exact ⟨before, marked, after, hm, hb, hma, haf⟩
  have hprotected : ∀ line ∈ marked, line.2 = true := by
    intro line hline
    obtain ⟨i, hi, rfl⟩ := List.getElem_of_mem hline
    have hat : (markLines (unixNewlines text.toList))[before.length + i]? = some marked[i] := by
      rw [hm, List.getElem?_append_right (Nat.le_add_right ..), Nat.add_sub_cancel_left,
        List.getElem?_append_left hi, List.getElem?_eq_getElem hi]
    exact (marked_iff_isVerbatim hat).2 (by simpa using hr i (by simpa using hi))
  obtain ⟨first, a, d, hfirst⟩ := exists_laid_append before (marked ++ after) false false
  obtain ⟨separator, a', d', hrun⟩ := exists_laid_protected hprotected after a d
  have hout : ((laid false false (markLines (unixNewlines text.toList))).map Prod.fst) =
      (first ++ separator).map Prod.fst ++ (marked.map Prod.fst ++ (laid a' d' after).map Prod.fst) := by
    rw [hm, hfirst, hrun]
    simp
  rw [canonicalize_toList, dropLast_lines_canonical, hout, ← all_isBlank_laid after a' d']
  exact infix_rdropWhile ..

/-- A block of code without a closing fence, in a list item of a block quote. -/
theorem verbatim_infix_nested :
    let text := "> * ~~~\n>   x   \n>   \n>   * y\n\n# a\n* b\n"
    let run := ["> * ~~~".toList, ">   x   ".toList, ">   ".toList, ">   * y".toList]
    (∀ i < run.length, IsVerbatim (unixNewlines text.toList) i) ∧
      canonicalize text = "> * ~~~\n>   x   \n>   \n>   * y\n\n# a\n\n- b\n" ∧
      run <:+: (lines (canonicalize text).toList).dropLast := by
  intro text run
  have hl : lines (unixNewlines text.toList) = [] ++ run ++ [[], "# a".toList, "* b".toList, []] := by decide +kernel
  have hr : ∀ i < run.length, IsVerbatim (unixNewlines text.toList) i := by decide +kernel
  have h := verbatim_infix text hl (by simpa using hr)
  exact ⟨hr, by decide +kernel, h⟩

/-- HTML in a list item is laid out like running text, and blank lines at the end of a block of code are
lost where the text ends without a closing fence. -/
theorem canonicalize_changes_blocks :
    events "- <div>\n  x   \n  </div>\n".toList = [.opened .list, .opened .item, .html ⟨2, 8⟩, .html ⟨10, 15⟩,
        .html ⟨17, 24⟩, .closed .item, .closed .list] ∧
      canonicalize "- <div>\n  x   \n  </div>\n" = "- <div>\n  x  \n  </div>\n" ∧
    events "```\nabc\n\n\n".toList = [.code ⟨0, 10⟩] ∧ canonicalize "```\nabc\n\n\n" = "```\nabc\n" := by
  decide +kernel

end Layout

end ComponentDocs
