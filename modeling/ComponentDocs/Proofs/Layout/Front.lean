import ComponentDocs.Proofs.Layout.Fixed
import ComponentDocs.Proofs.Layout.Sections
import ComponentDocs.Proofs.Markdown.Front
/-! A text behind lines that leave nothing open. It is protected and laid out as it is alone, with a blank line
in front of it if it has text. -/
namespace ComponentDocs

namespace Markdown.Block

mutual

theorem verbatim_shift (d : Nat) (inItem : Bool) : ∀ b : Block,
    (b.shift d).verbatim inItem = (b.verbatim inItem).map (Span.shift d)
  | .code _ => rfl
  | .html _ => by cases inItem <;> rfl
  | .nested c _ _ blocks => by
    cases c with
    | item indent => exact verbatimOfAll_shift d true blocks
    | blockQuote | list | footnote => exact verbatimOfAll_shift d inItem blocks
  | .heading _ | .paragraph _ | .text _ | .table _ | .taskBox => rfl

theorem verbatimOfAll_shift (d : Nat) (inItem : Bool) : ∀ bs : List Block,
    verbatimOfAll inItem (shiftAll d bs) = (verbatimOfAll inItem bs).map (Span.shift d)
  | [] => rfl
  | b :: bs => by
    rw [shiftAll, verbatimOfAll, verbatimOfAll, List.map_append, verbatim_shift d inItem b,
      verbatimOfAll_shift d inItem bs]

end

theorem verbatimOfAll_append (inItem : Bool) (as bs : List Block) :
    verbatimOfAll inItem (as ++ bs) = verbatimOfAll inItem as ++ verbatimOfAll inItem bs := by
  induction as with
  | nil => rfl
  | cons a as ih => rw [List.cons_append, verbatimOfAll, ih, verbatimOfAll, List.append_assoc]

end Markdown.Block

namespace Layout
open Markdown Text

theorem lineAt_append (front text : List Char) (i : Nat) :
    lineAt (front ++ text) (front.length + i) = front.count '\n' + lineAt text i := by
  rw [lineAt, lineAt, List.take_length_add_append, List.count_append]

theorem eq_of_map_fst_eq {as bs : List MarkedLine} (hfst : as.map Prod.fst = bs.map Prod.fst)
    (hsnd : ∀ (k : Nat) (a b : MarkedLine), as[k]? = some a → bs[k]? = some b → (a.2 = true ↔ b.2 = true)) :
    as = bs := by
  refine List.ext_getElem? fun k => ?_
  have hk := congrArg (·[k]?) hfst
  simp only [List.getElem?_map] at hk
  cases ha : as[k]? with
  | none =>
    rw [ha] at hk
    exact (Option.map_eq_none_iff.1 hk.symm).symm
  | some a =>
    rw [ha] at hk
    obtain ⟨b, hb, hab⟩ := Option.map_eq_some_iff.1 hk.symm
    rw [hb, Option.some.injEq]
    exact Prod.ext hab.symm (Bool.eq_iff_iff.2 (hsnd k a b ha hb))

theorem markLines_eq_of_verbatim {text : List Char} (h : Block.verbatimOfAll false (blocks text) = []) :
    markLines text = (lines text).map (·, false) := by
  refine eq_of_map_fst_eq ?_ fun k a b ha hb => ?_
  · rw [map_fst_markLines, List.map_map]
    simp [Function.comp_def]
  · rw [marked_iff_isVerbatim ha, IsVerbatim, h]
    obtain ⟨l, -, rfl⟩ := List.mem_map.1 (List.mem_of_getElem? hb)
    simp

/-- The lines of a text behind another one are verbatim as they are alone. -/
theorem isVerbatim_append_iff {front text : List Char} {before : List Block}
    (h : blocks (front ++ text) = before ++ Block.shiftAll front.length (blocks text)) (k : Nat) :
    IsVerbatim (front ++ text) k ↔ (∃ s ∈ Block.verbatimOfAll false before, ∃ i ∈ s, lineAt (front ++ text) i = k) ∨
      ∃ j, k = front.count '\n' + j ∧ IsVerbatim text j := by
  have hspans : Block.verbatimOfAll false (blocks (front ++ text)) = Block.verbatimOfAll false before ++
      (Block.verbatimOfAll false (blocks text)).map (Span.shift front.length) := by
    rw [h, Block.verbatimOfAll_append, Block.verbatimOfAll_shift]
  unfold IsVerbatim
  simp only [hspans, List.mem_append, or_and_right, exists_or]
  refine or_congr_right ⟨?_, ?_⟩
  · rintro ⟨s, hs, i, hi, rfl⟩
    obtain ⟨inner, hinner, rfl⟩ := List.mem_map.1 hs
    obtain ⟨i, rfl⟩ := Nat.exists_eq_add_of_le (show front.length ≤ i from (Nat.le_add_right ..).trans hi.1)
    exact ⟨lineAt text i, lineAt_append .., inner, hinner, i,
      ⟨Nat.add_le_add_iff_left.1 hi.1, Nat.add_lt_add_iff_left.1 hi.2⟩, rfl⟩
  · rintro ⟨-, rfl, s, hs, i, hi, rfl⟩
    exact ⟨s.shift front.length, List.mem_map_of_mem hs, front.length + i,
      ⟨Nat.add_le_add_left hi.1 _, Nat.add_lt_add_left hi.2 _⟩, lineAt_append ..⟩

section Front
variable {front : List Char} {before : List Block} {steps : Nat} (h : Outline.IsFront front before steps)
  (hbefore : ∀ document, Block.verbatimOfAll false (Block.settleAll document [] before.reverse) = [])
include h hbefore

/-- The lines in front are not protected, and those of the text are protected as they are alone. -/
theorem markLines_append {frontLines : List Line} (hlines : ∀ text, lines (front ++ text) = frontLines ++ lines text)
    (hcount : frontLines.length = front.count '\n') (text : List Char) :
    markLines (front ++ text) = frontLines.map (·, false) ++ markLines text := by
  refine eq_of_map_fst_eq ?_ fun k a b ha hb => ?_
  · rw [map_fst_markLines, hlines, List.map_append, map_fst_markLines, List.map_map]
    simp [Function.comp_def]
  · rw [marked_iff_isVerbatim ha, isVerbatim_append_iff (blocks_append h text), hbefore, ← hcount]
    simp only [List.not_mem_nil, false_and, exists_false, false_or]
    rcases Nat.lt_or_ge k frontLines.length with hk | hk
    · rw [List.getElem?_append_left (by simpa using hk), List.getElem?_map] at hb
      obtain ⟨l, -, rfl⟩ := Option.map_eq_some_iff.1 hb
      exact iff_of_false (by rintro ⟨j, rfl, -⟩; omega) Bool.false_ne_true
    · obtain ⟨j, rfl⟩ := Nat.exists_eq_add_of_le hk
      rw [List.getElem?_append_right (by simp), List.length_map, Nat.add_sub_cancel_left] at hb
      rw [marked_iff_isVerbatim hb]
      simp

end Front

theorem markLines_newline (text : List Char) : markLines ('\n' :: text) = ([], false) :: markLines text := by
  have hlines (text : List Char) : lines (['\n'] ++ text) = [[]] ++ lines text := lines_newline text
  exact markLines_append Outline.isFront_newline (fun _ => rfl) hlines rfl text

/-- The line that names a source, without its first letter and the mark at its end. -/
def sourceOf (path : List Char) : List Char := ['o', 'u', 'r', 'c', 'e', ':', ' ', '`'] ++ path

/-- The heading of a component and the line that names its source, with a blank line between them. -/
def header (name path : List Char) : List Char :=
  '#' :: ' ' :: (name ++ '\n' :: '\n' :: 'S' :: (sourceOf path ++ ['`', '\n']))

/-- A title that a heading is spelled with as it is. -/
structure IsTitle (name : List Char) : Prop where
  ne_nil : name ≠ []
  trim_eq : trim name = name
  last_ne : name.getLast? ≠ some '#'

theorem heading?_title {name : List Char} (h : IsTitle name) :
    heading? ('#' :: ' ' :: name) = some ('#' :: ' ' :: name) := by
  have htrim : trim (' ' :: name) = name := h.trim_eq
  have hopen : (name.reverse.dropWhile (· == '#')).reverse = name := by
    cases hr : name.reverse with
    | nil => simpa using hr
    | cons c cs =>
      have hlast := h.last_ne
      rw [← List.head?_reverse, hr] at hlast
      have hc : (c == '#') = false := by simpa using hlast
      rw [List.dropWhile_cons_of_neg (by simp [hc]), ← hr, List.reverse_reverse]
  have htitle : headingTitle (' ' :: name) = name := by
    simp only [headingTitle, htrim, hopen]
    simp
  simp [heading?, htitle, spellHeading, h.ne_nil, isBlankChar]

theorem image_source (l : List Char) (next : Option MarkedLine) :
    image ('S' :: (l ++ ['`']), false) next = 'S' :: (l ++ ['`']) := by
  have hheading : heading? ('S' :: (l ++ ['`'])) = none := rfl
  have htrim (keep : Bool) : trimLine keep ('S' :: (l ++ ['`'])) = 'S' :: (l ++ ['`']) := by
    have hend : trimEnd ('S' :: l ++ ['`']) = 'S' :: l ++ ['`'] := trimEnd_append ('S' :: l) (by decide)
    rw [trimLine_eq_self_iff]
    refine .inl ?_
    rw [blankTail, ← List.cons_append, hend, List.drop_length]
  have hbullet : spellBullet ('S' :: (l ++ ['`'])) = 'S' :: (l ++ ['`']) := by
    have hbreak : isThematicBreak ('S' :: (l ++ ['`'])) = false := by
      simp [isThematicBreak, isBlankChar]
    have hsplit : splitBullet? ('S' :: (l ++ ['`'])) = none := rfl
    rw [spellBullet, hbreak, hsplit]
    rfl
  simp only [image, hheading, htrim, hbullet, Option.getD_none]
  rfl

def titleLine (name : List Char) : MarkedLine := ('#' :: ' ' :: name, false)

def sourceLine (l : List Char) : MarkedLine := ('S' :: (l ++ ['`']), false)

theorem keptLines_header {name : List Char} (h : IsTitle name) (l : List Char) :
    keptLines [titleLine name, ([], false), sourceLine l] = [(titleLine name).1, [], (sourceLine l).1] := by
  have hup : upToText [titleLine name, ([], false), sourceLine l] = [titleLine name, ([], false), sourceLine l] :=
    List.rdropWhile_eq_self_iff.2 fun _ => Bool.false_ne_true
  have htitle (next : Option MarkedLine) : image (titleLine name) next = (titleLine name).1 := by
    simp [image, titleLine, heading?_title h]
  have hheading : isHeading (titleLine name) = true := by simp [isHeading, titleLine, heading?_title h]
  rw [keptLines_eq, hup, laid_text _ _ _ rfl, laid_blank _ _ _ rfl, laid_text _ _ _ rfl, htitle, hheading]
  have hsource : image (sourceLine l) none = (sourceLine l).1 := image_source l none
  simpa [gap, laid] using hsource

theorem textOf_header {name l : List Char} {ls : List Line} (hls : ls ≠ []) :
    textOf ([(titleLine name).1, [], (sourceLine l).1] ++ [] :: ls) =
      textOf [(titleLine name).1, [], (sourceLine l).1] ++ '\n' :: textOf ls := by
  obtain ⟨first, rest, rfl⟩ := List.exists_cons_of_ne_nil hls
  simp [textOf, joinLines]

section Header
variable {name path : List Char} (h : IsTitle name) (hn : ∀ c ∈ name, isEol c = false)
  (hp : ∀ c ∈ path, isEol c = false)

theorem header_append (name path text : List Char) : header name path ++ text =
    ('#' :: ' ' :: name) ++ '\n' :: '\n' :: ('S' :: (sourceOf path ++ ['`']) ++ '\n' :: text) := by
  simp [header]

theorem textOf_headerLines (name path : List Char) :
    textOf [(titleLine name).1, [], (sourceLine (sourceOf path)).1] = header name path := by
  simp [textOf, joinLines, titleLine, sourceLine, header]

include hp in
theorem isEol_sourceOf : ∀ c ∈ sourceOf path ++ ['`'], isEol c = false :=
  List.forall_mem_append.2 ⟨List.forall_mem_append.2 ⟨by simp [isEol], hp⟩, by simp [isEol]⟩

include hn in
theorem newline_not_mem_title : '\n' ∉ '#' :: ' ' :: name := by
  have hname : '\n' ∉ name := fun hm => Bool.noConfusion (hn _ hm)
  simpa using hname

include hp in
theorem newline_not_mem_source : '\n' ∉ 'S' :: (sourceOf path ++ ['`']) := by
  intro hm
  exact Bool.noConfusion (isEol_sourceOf hp _ ((List.mem_cons.1 hm).resolve_left (by decide)))

include hn hp

theorem unixNewlines_header (text : List Char) :
    unixNewlines (header name path ++ text) = header name path ++ unixNewlines text := by
  have hname : '\r' ∉ name := fun hm => Bool.noConfusion (hn _ hm)
  have hpath : '\r' ∉ path := fun hm => Bool.noConfusion (hp _ hm)
  refine unixNewlines_append_of_not_mem ?_ text
  simp [header, sourceOf, hname, hpath]

theorem unixNewlines_header_eq : unixNewlines (header name path) = header name path := by
  simpa [unixNewlines] using unixNewlines_header hn hp []

theorem lines_header (text : List Char) : lines (header name path ++ text) =
    [(titleLine name).1, [], (sourceLine (sourceOf path)).1] ++ lines text := by
  rw [header_append, lines_append_newline_cons (newline_not_mem_title hn), lines_newline,
    lines_append_newline_cons (newline_not_mem_source hp)]
  rfl

theorem markLines_header : markLines (header name path) =
    sectionLines [titleLine name, ([], false), sourceLine (sourceOf path)] ++ [([], false)] := by
  have hblocks : blocks (header name path) = (Outline.headerBlocks name (sourceOf path ++ ['`'])).reverse := by
    have hshape : header name path =
        '#' :: ' ' :: (name ++ '\n' :: '\n' :: 'S' :: (sourceOf path ++ ['`'] ++ ['\n'])) := by
      simp [header]
    rw [hshape]
    exact Outline.blocks_header (fun hm => Bool.noConfusion (hn _ hm)) (isEol_sourceOf hp)
  rw [markLines_eq_of_verbatim (by rw [hblocks]; rfl), ← List.append_nil (header name path), lines_header hn hp]
  rfl

/-- A text behind the header is protected as it is alone. -/
theorem markLines_header_append (text : List Char) : markLines (header name path ++ '\n' :: text) =
    sectionLines [titleLine name, ([], false), sourceLine (sourceOf path)] ++ ([], false) :: markLines text := by
  have hfront : Outline.IsFront (header name path ++ ['\n'])
      (Outline.headerBlocks name (sourceOf path ++ ['`'])) 4 := by
    have hshape : header name path ++ ['\n'] =
        '#' :: ' ' :: (name ++ '\n' :: '\n' :: 'S' :: (sourceOf path ++ ['`'] ++ ['\n', '\n'])) := by
      simp [header]
    rw [hshape]
    exact Outline.isFront_header (fun hm => Bool.noConfusion (hn _ hm)) (isEol_sourceOf hp)
  have hlines (text : List Char) : lines (header name path ++ ['\n'] ++ text) =
      [(titleLine name).1, [], (sourceLine (sourceOf path)).1, []] ++ lines text := by
    rw [List.append_assoc, lines_header hn hp, List.singleton_append, lines_newline]
    rfl
  have hcount : [(titleLine name).1, [], (sourceLine (sourceOf path)).1, []].length =
      (header name path ++ ['\n']).count '\n' := by
    have hshape : header name path ++ ['\n'] =
        ('#' :: ' ' :: name) ++ (['\n', '\n'] ++ ('S' :: (sourceOf path ++ ['`']) ++ ['\n', '\n'])) := by
      simp [header]
    rw [hshape, List.count_append, List.count_append, List.count_append,
      List.count_eq_zero.2 (newline_not_mem_title hn), List.count_eq_zero.2 (newline_not_mem_source hp)]
    rfl
  have hmarked := markLines_append hfront (fun _ => rfl) hlines hcount text
  rw [List.append_assoc] at hmarked
  rw [← List.singleton_append, hmarked]
  rfl

include h

theorem canonical_header : canonical (header name path) = header name path := by
  rw [canonical_eq, unixNewlines_header_eq hn hp, markLines_header hn hp, keptLines_append_nil _ _ rfl, keptLines_header h, textOf_headerLines]

/-- A text behind the header, with a blank line between them, is laid out as it is alone. -/
theorem canonical_header_append (text : List Char) : canonical (header name path ++ '\n' :: text) =
    header name path ++ (if canonical text = [] then [] else '\n' :: canonical text) := by
  have hunix : unixNewlines (header name path ++ '\n' :: text) = header name path ++ '\n' :: unixNewlines text := by
    rw [unixNewlines_header hn hp, unixNewlines]
    simp
  rw [canonical_eq, hunix, markLines_header_append hn hp, canonical_eq text]
  split
  · next hnil =>
    rw [keptLines_append_nil _ _ (textOf_eq_nil.1 hnil), keptLines_header h, textOf_headerLines, List.append_nil]
  · next hne =>
    have hkept := mt textOf_eq_nil.2 hne
    rw [keptLines_append _ _ hkept, keptLines_header h, if_neg (List.cons_ne_nil _ _), textOf_header hkept,
      textOf_headerLines]

end Header

end Layout

end ComponentDocs
