import ComponentDocs.Proofs.Markdown.ItemShift
/-! Text in front of a document that leaves no container open: the document keeps its blocks. -/
namespace ComponentDocs.Markdown

namespace Outline

/-- Whatever comes after the text, reading it takes some steps, gives the blocks `before`, from the latest, and
leaves nothing open. -/
structure IsFront (front : List Char) (before : List Block) (steps : Nat) : Prop where
  readAll_eq (fuel : Nat) (rest : List Char) : readAll (fuel + steps) {} ⟨0, front ++ rest⟩ =
    readAll fuel { blocks := before } ⟨front.length, rest⟩
  steps_le : steps ≤ 2 * front.length

end Outline

theorem settleAll_append (document : Array Char) (outer : List Container) (as bs : List Block) :
    Block.settleAll document outer (as ++ bs) =
      Block.settleAll document outer as ++ Block.settleAll document outer bs := by
  induction as with
  | nil => rfl
  | cons a as ih => rw [List.cons_append, Block.settleAll, ih, Block.settleAll, List.cons_append]

/-- Where nothing is open behind a text, the blocks of what follows come after those of the text. -/
theorem blocks_append_of_readAll {front text : List Char} {before : List Block} {fuel : Nat}
    (hfuel : 2 * text.length < fuel) (h : Outline.readAll (2 * (front ++ text).length + 1) {} ⟨0, front ++ text⟩ =
      Outline.readAll fuel { blocks := before } ⟨front.length, text⟩) : blocks (front ++ text) =
      Block.settleAll (front ++ text).toArray [] before.reverse ++ Block.shiftAll front.length (blocks text) := by
  have hread : Outline.readAll fuel { blocks := before } ⟨front.length, text⟩ =
      (Outline.readAll (2 * text.length + 1) {} ⟨0, text⟩).shift front.length before :=
    Outline.readAll_shift (o := {}) (c := ⟨0, text⟩) hfuel (by simp)
  rw [blocks, h, hread]
  simp only [Outline.shift, List.reverse_append, Block.shiftAll_eq_map, ← List.map_reverse]
  rw [settleAll_append, ← Block.shiftAll_eq_map, Block.settleAll_shift, ← Block.shiftAll_eq_map]
  rfl

theorem blocks_append {front : List Char} {before : List Block} {steps : Nat}
    (h : Outline.IsFront front before steps) (text : List Char) : blocks (front ++ text) =
      Block.settleAll (front ++ text).toArray [] before.reverse ++ Block.shiftAll front.length (blocks text) := by
  have hsteps := h.steps_le
  have hfuel : 2 * (front ++ text).length + 1 = (2 * front.length - steps + (2 * text.length + 1)) + steps := by
    rw [List.length_append]
    omega
  exact blocks_append_of_readAll (by omega) (hfuel ▸ h.readAll_eq _ text)

namespace Outline
variable (fuel : Nat) (before : List Block) (i : Nat)

theorem readAll_cons (o : Outline) (c : Char) (cs : List Char) :
    readAll (fuel + 1) o ⟨i, c :: cs⟩ = readAll fuel (block fuel o ⟨i, c :: cs⟩).1 (block fuel o ⟨i, c :: cs⟩).2 := rfl

theorem block_newline (rest : List Char) :
    block fuel { blocks := before } ⟨i, '\n' :: rest⟩ = ({ blocks := before }, ⟨i + 1, rest⟩) := by
  cases fuel <;> rfl

theorem isFront_newline : IsFront ['\n'] [] 1 where
  readAll_eq fuel rest := by
    rw [List.singleton_append, readAll_cons, show ({} : Outline) = { blocks := [] } from rfl, block_newline]
    rfl
  steps_le := by decide

theorem lineLength_append {l : List Char} (h : '\n' ∉ l) (rest : List Char) :
    lineLength (l ++ '\n' :: rest) = l.length + 1 := by
  induction l with
  | nil => rfl
  | cons c l ih =>
    rw [List.mem_cons, not_or] at h
    rw [List.cons_append, lineLength, ih h.2, if_neg (by simpa using Ne.symm h.1), List.length_cons]

theorem nextLine_advance {l : List Char} (h : '\n' ∉ l) (rest : List Char) {n : Nat} (hn : n ≤ l.length) :
    ((⟨i, l ++ '\n' :: rest⟩ : Cursor).advance n).nextLine = ⟨i + (l.length + 1), rest⟩ := by
  have hdrop : (l ++ '\n' :: rest).drop n = l.drop n ++ '\n' :: rest := List.drop_append_of_le_length hn
  have hnot : '\n' ∉ l.drop n := fun hm => h (List.mem_of_mem_drop hm)
  simp only [Cursor.advance, Cursor.nextLine, hdrop, lineLength_append hnot, Cursor.mk.injEq]
  constructor
  · rw [List.length_drop]
    omega
  · rw [← List.singleton_append, ← List.append_assoc, List.drop_left' (by simp)]

theorem length_takeWhile_le {p : Char → Bool} {c : Char} (hc : p c = false) (l rest : List Char) :
    ((l ++ c :: rest).takeWhile p).length ≤ l.length := by
  induction l with
  | nil => simp [hc]
  | cons d l ih => cases hd : p d <;> simp [hd, ih]

theorem block_heading {title : List Char} (h : '\n' ∉ title) (rest : List Char) :
    block fuel { blocks := before } ⟨i, '#' :: ' ' :: (title ++ '\n' :: rest)⟩ =
      ({ blocks := .heading [⟨i, i + (title.length + 3)⟩] :: before }, ⟨i + (title.length + 3), rest⟩) := by
  have hspaces : spaceRun (' ' :: title ++ '\n' :: rest) ≤ (' ' :: title).length := length_takeWhile_le rfl _ rest
  have hnext := nextLine_advance (i + 1) (l := ' ' :: title) (by simpa using h) rest hspaces
  have hend : i + 1 + ((' ' :: title).length + 1) = i + (title.length + 3) := by
    rw [List.length_cons]
    omega
  have hleaf : block fuel { blocks := before } ⟨i, '#' :: ' ' :: (title ++ '\n' :: rest)⟩ =
      let next := ((⟨i + 1, ' ' :: title ++ '\n' :: rest⟩ : Cursor).advance
        (spaceRun (' ' :: title ++ '\n' :: rest))).nextLine
      ({ blocks := .heading [⟨i, next.offset⟩] :: before }, next) := by
    cases fuel <;> rfl
  rw [hleaf, hnext, hend]

theorem cellCount_ne_zero {n : Nat} (hn : n ≠ 0) (cs afterLast : List Char) :
    cellCount ('S' :: cs) n afterLast ≠ 0 := by
  have hhead : ((('S' :: cs).dropWhile isSpace).head? == some '|') = false := rfl
  simp only [cellCount, hhead]
  split
  · exact hn
  · exact Nat.succ_ne_zero n

theorem lineEnd_append {l : List Char} (h : ∀ c ∈ l, isEol c = false) (rest : List Char) :
    tableBody?.lineEnd (l ++ '\n' :: rest) = l.length + 1 := by
  have hline : (l ++ '\n' :: rest).takeWhile (fun d => !isEol d) = l := by
    rw [List.takeWhile_append_of_pos (by simpa using h)]
    simp [isEol]
  rw [tableBody?.lineEnd, hline]
  simp [eol?]

theorem block_paragraph {l : List Char} (h : ∀ c ∈ l, isEol c = false) {rest : List Char}
    (hrest : rest = [] ∨ ∃ more, rest = '\n' :: more) :
    block (fuel + 1) { blocks := before } ⟨i, 'S' :: (l ++ '\n' :: rest)⟩ =
      ({ blocks := .paragraph [⟨i, i + (l.length + 2)⟩] :: before }, ⟨i + (l.length + 2), rest⟩) := by
  have hleaf : block (fuel + 1) { blocks := before } ⟨i, 'S' :: (l ++ '\n' :: rest)⟩ =
      textBlock { blocks := before } (fuel + 1) ⟨i, 'S' :: (l ++ '\n' :: rest)⟩ := rfl
  have hend : tableBody?.lineEnd ('S' :: (l ++ '\n' :: rest)) = l.length + 2 :=
    lineEnd_append (l := 'S' :: l) (List.forall_mem_cons.2 ⟨rfl, h⟩) rest
  have hnext : (⟨i, 'S' :: (l ++ '\n' :: rest)⟩ : Cursor).advance (l.length + 2) = ⟨i + (l.length + 2), rest⟩ := by
    simp [Cursor.advance]
  have htable : tableBody? { blocks := before } ⟨i, 'S' :: (l ++ '\n' :: rest)⟩ = none := by
    unfold tableBody?
    simp only [hend, hnext]
    split
    · rfl
    · next hpipes =>
      have hn : (pipes ('S' :: (l ++ '\n' :: rest))).1 ≠ 0 := fun hn => hpipes (by simp [hn])
      rcases hrest with rfl | ⟨more, rfl⟩
      · exact absurd (by simp) hpipes
      · have hrow : delimiterRow? (enterAll { blocks := before }
            (⟨i + (l.length + 2), '\n' :: more⟩ : Cursor).lineStart).2.rest = some (1, 0) := rfl
        rw [hrow]
        exact if_neg (cellCount_ne_zero hn _ _).symm
  have hstarts : startsFootnote { blocks := before } ('S' :: (l ++ '\n' :: rest)) = false := rfl
  rw [hleaf, textBlock, htable, if_neg (by rw [hstarts]; decide)]
  dsimp only
  rw [paragraph]
  simp only [hend, hnext]
  rcases hrest with rfl | ⟨more, rfl⟩ <;> rfl

/-- The blocks of a heading and a paragraph of one line, from the latest. -/
def headerBlocks (title l : List Char) : List Block :=
  [.paragraph [⟨title.length + 4, title.length + 4 + (l.length + 2)⟩], .heading [⟨0, title.length + 3⟩]]

section Header
variable {title l : List Char} (ht : '\n' ∉ title) (hl : ∀ c ∈ l, isEol c = false)
include ht hl

theorem readAll_header {rest : List Char} (hrest : rest = [] ∨ ∃ more, rest = '\n' :: more) :
    readAll (fuel + 4) {} ⟨0, '#' :: ' ' :: (title ++ '\n' :: '\n' :: 'S' :: (l ++ '\n' :: rest))⟩ =
      readAll (fuel + 1) { blocks := headerBlocks title l } ⟨title.length + 4 + (l.length + 2), rest⟩ := by
  rw [readAll_cons, block_heading _ _ _ ht, readAll_cons, block_newline, readAll_cons, block_paragraph _ _ _ hl hrest,
    Nat.zero_add]
  rfl

/-- A heading and a paragraph, with a blank line after each. -/
theorem isFront_header : IsFront ('#' :: ' ' :: (title ++ '\n' :: '\n' :: 'S' :: (l ++ ['\n', '\n'])))
    (headerBlocks title l) 4 := by
  refine ⟨fun fuel rest => ?_, by simp; omega⟩
  have htext : '#' :: ' ' :: (title ++ '\n' :: '\n' :: 'S' :: (l ++ ['\n', '\n'])) ++ rest =
      '#' :: ' ' :: (title ++ '\n' :: '\n' :: 'S' :: (l ++ '\n' :: '\n' :: rest)) := by simp
  have hlength : ('#' :: ' ' :: (title ++ '\n' :: '\n' :: 'S' :: (l ++ ['\n', '\n']))).length =
      title.length + 4 + (l.length + 2) + 1 := by
    simp
    omega
  have hblank (i : Nat) : readAll (fuel + 1) { blocks := headerBlocks title l } ⟨i, '\n' :: rest⟩ =
      readAll fuel { blocks := headerBlocks title l } ⟨i + 1, rest⟩ := by
    rw [readAll_cons, block_newline]
  rw [htext, hlength, readAll_header fuel ht hl (.inr ⟨rest, rfl⟩), hblank]

theorem blocks_header : Markdown.blocks ('#' :: ' ' :: (title ++ '\n' :: '\n' :: 'S' :: (l ++ ['\n']))) =
    (headerBlocks title l).reverse := by
  have hfuel : ∃ fuel, 2 * ('#' :: ' ' :: (title ++ '\n' :: '\n' :: 'S' :: (l ++ ['\n']))).length + 1 = fuel + 4 :=
    Nat.exists_eq_add_of_le' (by simp; omega)
  obtain ⟨fuel, hfuel⟩ := hfuel
  rw [Markdown.blocks, hfuel, readAll_header fuel ht hl (.inl rfl)]
  rfl

end Header

end Outline

end ComponentDocs.Markdown
