import ComponentDocs.Proofs.Markdown.Paragraphs
import ComponentDocs.Proofs.Markdown.ItemShift
/-! The lines that go on with a paragraph: they hold more than spaces and tabs, and where they begin behind spaces with a
mark that is none of a block quote, no heading and no item ends the paragraph there. -/
namespace ComponentDocs.Markdown

/-- What comes after a line: nothing, or a line feed. -/
def IsLineRest (tail : List Char) : Prop := ∀ c ∈ tail.head?, c = '\n'

theorem isSome_blankLine?_iff (cs : List Char) :
    (blankLine? cs).isSome = true ↔ ∀ c ∈ (cs.dropWhile isSpace).head?, isEol c = true := by
  have hdrop : cs.drop (spaceRun cs) = cs.dropWhile isSpace := by
    have hsplit := List.takeWhile_append_dropWhile (p := isSpace) (l := cs)
    rw [spaceRun]
    exact (congrArg (List.drop _) hsplit.symm).trans List.drop_left
  rw [blankLine?, Option.isSome_map, hdrop]
  cases cs.dropWhile isSpace with
  | nil => simp [eol?]
  | cons c rest =>
    cases hc : isEol c with
    | true =>
      obtain ⟨n, hn⟩ := eol?_cons hc rest
      simp [hn, hc]
    | false =>
      have hnone : eol? (c :: rest) = none := by
        simp only [isEol, Bool.or_eq_false_iff, beq_eq_false_iff_ne] at hc
        simp [eol?, hc]
      simp [hnone, hc]

theorem isSome_blankLine?_of_append {cs tail : List Char} (h : (blankLine? (cs ++ tail)).isSome = true) :
    (blankLine? cs).isSome = true := by
  rw [isSome_blankLine?_iff] at h ⊢
  rw [List.dropWhile_append] at h
  cases hd : cs.dropWhile isSpace with
  | nil => simp
  | cons c rest => simpa [hd] using h

namespace LineStart

theorem On.exists_rest {cs tail : List Char} {l : LineStart} (h : l.On (cs ++ tail)) (htail : IsLineRest tail) :
    ∃ rest, rest <:+ cs ∧ l.rest = rest ++ tail := by
  have hnewline := h.newline_not_mem
  rcases Nat.lt_or_ge cs.length l.scanned with hlong | hshort
  · have hnil : tail = [] := by
      cases tail with
      | nil => rfl
      | cons c tail =>
        obtain rfl := htail c rfl
        obtain ⟨k, hk⟩ := Nat.exists_eq_add_of_lt hlong
        refine absurd ?_ hnewline
        rw [List.take_append, List.mem_append, hk, show cs.length + k + 1 - cs.length = k + 1 by omega]
        exact .inr List.mem_cons_self
    exact ⟨[], List.nil_suffix, by rw [h.rest_eq, hnil]; simp; omega⟩
  · exact ⟨cs.drop l.scanned, List.drop_suffix .., by rw [h.rest_eq, List.drop_append_of_le_length hshort]⟩

/-- At most some spaces are left before a character, and no column of a tab. -/
def Indented (n : Nat) (cs : List Char) (l : LineStart) : Prop :=
  l.pending = 0 ∧ ∃ m ≤ n, l.rest = List.replicate m ' ' ++ cs

variable {c : Char} {cs : List Char}

theorem skip_go_spaces (hspace : c ≠ ' ') (htab : c ≠ '\t') (cs : List Char) (k m scanned column : Nat) :
    ∃ scanned' column', skip.go k 0 scanned column (List.replicate m ' ' ++ c :: cs) =
      (k - m, ⟨List.replicate (m - k) ' ' ++ c :: cs, scanned', column', 0⟩) := by
  induction m generalizing k scanned column with
  | zero =>
    refine ⟨scanned, column, ?_⟩
    cases k <;> simp [skip.go, hspace, htab]
  | succ m ih =>
    cases k with
    | zero => exact ⟨scanned, column, by simp [List.replicate_succ, skip.go]⟩
    | succ k =>
      obtain ⟨scanned', column', he⟩ := ih k (scanned + 1) (column + 1)
      exact ⟨scanned', column', by simpa [List.replicate_succ, skip.go] using he⟩

theorem skip_spaces (hspace : c ≠ ' ') (htab : c ≠ '\t') {l : LineStart} (hpending : l.pending = 0) {m : Nat}
    (hrest : l.rest = List.replicate m ' ' ++ c :: cs) (k : Nat) : (l.skip k).1 = k - m ∧
      (l.skip k).2.pending = 0 ∧ (l.skip k).2.rest = List.replicate (m - k) ' ' ++ c :: cs := by
  obtain ⟨scanned, column, he⟩ := skip_go_spaces hspace htab cs k m l.scanned l.column
  have hskip : l.skip k = skip.go k 0 l.scanned l.column (List.replicate m ' ' ++ c :: cs) := by
    rw [skip, hpending, hrest, Nat.zero_min, Nat.sub_zero]
  rw [hskip, he]
  exact ⟨rfl, rfl, rfl⟩

theorem Indented.skip (hspace : c ≠ ' ') (htab : c ≠ '\t') {n : Nat} {l : LineStart} (h : l.Indented n (c :: cs))
    (k : Nat) : (l.skip k).2.Indented n (c :: cs) := by
  obtain ⟨hpending, m, hm, hrest⟩ := h
  obtain ⟨-, hpending', hrest'⟩ := skip_spaces hspace htab hpending hrest k
  exact ⟨hpending', m - k, (Nat.sub_le m k).trans hm, hrest'⟩

/-- No mark is passed but white space where the line does not begin with the mark of a block quote. -/
theorem Indented.enterAll (hspace : c ≠ ' ') (htab : c ≠ '\t') (hquote : c ≠ '>') {n : Nat} (hn : n ≤ 3)
    {l : LineStart} (h : l.Indented n (c :: cs)) (containers : List Container) :
    (Container.enterAll l containers).2.Indented n (c :: cs) := by
  induction containers with
  | nil => exact h
  | cons container outer ih =>
    rw [Container.enterAll]
    dsimp only
    split
    · split
      · next inner hinner =>
        cases container with
        | blockQuote =>
          obtain ⟨hpending, m, hm, hrest⟩ := ih
          obtain ⟨-, -, hrest'⟩ := skip_spaces hspace htab hpending hrest 3
          rw [Nat.sub_eq_zero_of_le (hm.trans hn)] at hrest'
          simp [Container.enter?, quoteMark?, hrest', hquote] at hinner
        | item indent =>
          simp only [Container.enter?] at hinner
          split at hinner
          · cases hinner
            exact ih.skip hspace htab indent
          · cases hinner
        | list | footnote =>
          cases hinner
          exact ih
      · exact ih
    · exact ih

end LineStart

namespace GoesOn
variable {containers : List Container} {cs tail : List Char}

theorem exists_text (htail : IsLineRest tail) (h : GoesOn containers (cs ++ tail)) :
    ∃ c ∈ cs, (c == ' ' || c == '\t') = false := by
  by_contra hgaps
  simp only [not_exists, not_and, Bool.not_eq_false] at hgaps
  have hon := ((LineStart.On.start (cs ++ tail)).enterAll containers).skip 4
  obtain ⟨rest, hrest, hl⟩ := hon.exists_rest htail
  refine Bool.eq_false_iff.1 h.filled ?_
  have htake : (rest ++ tail).takeWhile (fun c => c == ' ' || c == '\t') = rest := by
    rw [List.takeWhile_append_of_pos fun c hc => hgaps c (hrest.subset hc)]
    cases tail with
    | nil => simp
    | cons c tail =>
      obtain rfl := htail c rfl
      simp
  have hskip : ((Container.enterAll { rest := cs ++ tail } containers).2.skip 4).2.skipAll.rest = tail := by
    rw [LineStart.skipAll, hl, htake, List.drop_left]
  rw [LineStart.atEol, hskip, Option.all_eq_true]
  rintro c hc
  rw [htail c hc]
  decide

theorem endsText_eq_false {n : Nat} (hn : n ≤ 3) {c : Char} (hspace : c ≠ ' ') (htab : c ≠ '\t') (hquote : c ≠ '>')
    (h : GoesOn containers (List.replicate n ' ' ++ c :: cs)) :
    ∃ inside, Outline.endsText inside (c :: cs) = false := by
  have hstart : LineStart.Indented n (c :: cs) { rest := List.replicate n ' ' ++ c :: cs } := ⟨rfl, n, le_rfl, rfl⟩
  obtain ⟨hpending, m, hm, hrest⟩ := hstart.enterAll hspace htab hquote hn containers
  obtain ⟨hmissing, -, hrest'⟩ := LineStart.skip_spaces hspace htab hpending hrest 4
  have hends := h.text
  rw [hrest', Nat.sub_eq_zero_of_le (by omega)] at hends
  exact ⟨_, hends (by omega)⟩

end GoesOn

/-! The items of tight lists hold no other paragraphs than those that were read. -/

namespace Piece
variable {Q : Block → Prop}

/-- All the pieces that are blocks have a property. -/
def AllHold (Q : Block → Prop) (ps : List Piece) : Prop := ∀ p ∈ ps, ∀ i b, p.kind = .block i b → Q b

theorem allHold_nil : AllHold Q [] := nofun

theorem allHold_cons_iff {p : Piece} {ps : List Piece} :
    AllHold Q (p :: ps) ↔ (∀ i b, p.kind = .block i b → Q b) ∧ AllHold Q ps := List.forall_mem_cons

theorem AllHold.append {ps qs : List Piece} (hp : AllHold Q ps) (hq : AllHold Q qs) : AllHold Q (ps ++ qs) :=
  List.forall_mem_append.2 ⟨hp, hq⟩

theorem allHold_ite {p : Prop} [Decidable p] {ps qs : List Piece} (hp : AllHold Q ps) (hq : AllHold Q qs) :
    AllHold Q (if p then ps else qs) := by
  split
  · exact hp
  · exact hq

theorem allHold_plain (start stop : Nat) : AllHold Q (if start < stop then [⟨.plain, ⟨start, stop⟩, []⟩] else []) :=
  allHold_ite (by simp [AllHold]) allHold_nil

theorem allHold_ofText (content fuel start : Nat) (c : Cursor) : AllHold Q (ofText content fuel start c) := by
  induction fuel generalizing start c with
  | zero => exact allHold_nil
  | succ fuel ih =>
    have hmark (kind : PieceKind) (hkind : ∀ i b, kind ≠ .block i b) (before length : Nat) :
        AllHold Q ((if start < c.offset then [(⟨.plain, ⟨start, c.offset⟩, []⟩ : Piece)] else []) ++
          ⟨kind, ⟨c.offset + before, (c.advance (before + length)).offset⟩, (c.advance (before + length)).rest⟩ ::
            ofText content fuel (c.advance (before + length)).offset (c.advance (before + length))) :=
      (allHold_plain _ _).append (allHold_cons_iff.2 ⟨fun i b h => absurd h (hkind i b), ih _ _⟩)
    rw [ofText]
    dsimp only
    split
    · exact allHold_plain _ _
    · exact allHold_ite (allHold_plain _ _) (allHold_ite (hmark _ (by simp) _ _) (allHold_ite
        ((allHold_plain _ _).append (ih _ _)) (allHold_ite (hmark _ (by simp) _ _) (allHold_ite (hmark _ (by simp) _ _)
        (allHold_ite (hmark _ (by simp) _ _) (allHold_ite (hmark _ (by simp) _ _)
        (allHold_ite (hmark _ (by simp) _ _) (ih _ _))))))))

theorem allHold_ofLine (c : Cursor) (isLast : Bool) : AllHold Q (ofLine c isLast) := by
  unfold ofLine
  exact allHold_ite (allHold_ofText _ _ _ _) ((allHold_ofText _ _ _ _).append (by simp [AllHold]))

theorem allHold_ofLines (c : Cursor) (lines : List Span) : AllHold Q (ofLines c lines).1 := by
  induction lines generalizing c with
  | nil => exact allHold_nil
  | cons line lines ih => exact (allHold_ofLine _ _).append (ih _)

theorem allHold_ofBlocks (c : Cursor) {blocks : List (Block × Nat)} (h : ∀ x ∈ blocks, Q x.1) :
    AllHold Q (ofBlocks c blocks) := by
  induction blocks generalizing c with
  | nil => exact allHold_nil
  | cons indexed blocks ih =>
    obtain ⟨b, i⟩ := indexed
    obtain ⟨hb, hblocks⟩ := List.forall_mem_cons.1 h
    by_cases hparagraph : ∃ lines, b = .paragraph lines
    · obtain ⟨lines, rfl⟩ := hparagraph
      exact (allHold_ofLines _ _).append (ih _ hblocks)
    · rw [ofBlocks_cons (not_exists.1 hparagraph)]
      split
      · refine allHold_cons_iff.2 ⟨?_, ih _ hblocks⟩
        rintro _ _ ⟨⟩
        exact hb
      · exact ih _ hblocks

theorem AllHold.dropTo (hstart : ∀ b i, Q b → Q (b.startingAt i)) (i : Nat) {ps : List Piece} (h : AllHold Q ps) :
    AllHold Q (Piece.dropTo i ps) := by
  induction ps with
  | nil => exact allHold_nil
  | cons p ps ih =>
    obtain ⟨hp, hps⟩ := allHold_cons_iff.1 h
    refine allHold_ite (ih hps) (allHold_cons_iff.2 ⟨?_, hps⟩)
    obtain ⟨kind, span, rest⟩ := p
    cases kind with
    | block k b =>
      rintro _ _ ⟨⟩
      exact hstart b i (hp k b rfl)
    | ticks | angle | opening | closing | plain => nofun

theorem suffix_of_afterTicks? {n : Nat} {ps qs : List Piece} (h : afterTicks? n ps = some qs) : qs <:+ ps := by
  induction ps with
  | nil => cases h
  | cons p ps ih =>
    unfold afterTicks? at h
    split at h
    · split at h
      · cases h
        exact List.suffix_cons p _
      · exact (ih h).trans (List.suffix_cons p ps)
    · exact (ih h).trans (List.suffix_cons p ps)

theorem AllHold.afterTicks? (n : Nat) {ps : List Piece} (h : AllHold Q ps) :
    AllHold Q ((Piece.afterTicks? n ps).getD ps) := by
  cases hticks : Piece.afterTicks? n ps with
  | none => exact h
  | some qs => exact fun p hp => h p ((suffix_of_afterTicks? hticks).subset hp)

theorem AllHold.closeAt? (i : Nat) {ps : List Piece} (h : AllHold Q ps) :
    AllHold Q ((Piece.closeAt? i ps).getD ps) := by
  have hsome : ∀ qs ∈ Piece.closeAt? i ps, AllHold Q qs := by
    induction ps with
    | nil =>
      intro qs hqs
      cases hqs
    | cons p ps ih =>
      intro qs hqs
      obtain ⟨hp, hps⟩ := allHold_cons_iff.1 h
      unfold Piece.closeAt? at hqs
      split at hqs
      · obtain ⟨rs, hrs, rfl⟩ := Option.map_eq_some_iff.1 hqs
        exact allHold_cons_iff.2 ⟨hp, ih hps rs hrs⟩
      · cases hqs
        exact allHold_cons_iff.2 ⟨by simp, hps⟩
  cases hclose : Piece.closeAt? i ps with
  | none => exact h
  | some qs => exact hsome qs hclose

/-- No block comes out of an item that did not go in, but a block of code may begin later. -/
theorem allHold_reduce (hstart : ∀ b i, Q b → Q (b.startingAt i)) (enter : List Char → Nat) (fuel : Nat)
    (brackets : List Opening) {done todo : List Piece} (hdone : AllHold Q done) (htodo : AllHold Q todo) :
    AllHold Q (reduce enter fuel brackets done todo) := by
  have hreverse {done : List Piece} (hdone : AllHold Q done) : AllHold Q done.reverse :=
    fun p hp => hdone p (List.mem_reverse.1 hp)
  induction fuel generalizing brackets done todo with
  | zero => exact (hreverse hdone).append htodo
  | succ fuel ih =>
    cases todo with
    | nil => exact hreverse hdone
    | cons p todo =>
      obtain ⟨hp, htodo⟩ := allHold_cons_iff.1 htodo
      have hgo (brackets : List Opening) {rest : List Piece} (hrest : AllHold Q rest) :
          AllHold Q (reduce enter fuel brackets (p :: done) rest) := ih brackets (allHold_cons_iff.2 ⟨hp, hdone⟩) hrest
      rw [reduce]
      dsimp only
      split
      · exact hgo brackets htodo
      · exact hgo brackets htodo
      · exact hgo brackets (allHold_ite htodo (htodo.afterTicks? _))
      · refine hgo brackets ?_
        split
        · exact htodo.dropTo hstart _
        · exact htodo
      · exact hgo _ htodo
      · split
        · exact hgo [] htodo
        · refine allHold_ite (hgo _ htodo) ?_
          split
          · exact hgo _ (htodo.dropTo hstart _)
          · split
            · exact hgo _ (htodo.closeAt? _)
            · exact allHold_ite (ih [] (fun q hq => hdone q (List.mem_of_mem_drop hq)) htodo) (hgo _ htodo)

theorem holds_of_mem_blocksLeft (hstart : ∀ b i, Q b → Q (b.startingAt i)) {containers : List Container} {c : Cursor}
    {blocks : List Block} (h : ∀ b ∈ blocks, Q b) {x : Nat × Block} (hx : x ∈ blocksLeft containers c blocks) : Q x.2 := by
  obtain ⟨p, hp, hx⟩ := List.mem_filterMap.1 hx
  have hblocks : ∀ x ∈ blocks.zipIdx, Q x.1 := fun x hx => h x.1 (List.fst_mem_of_mem_zipIdx hx)
  have hholds := allHold_reduce hstart _ _ [] allHold_nil (allHold_ofBlocks c hblocks) p hp
  split at hx
  · next i b hkind =>
    cases hx
    exact hholds i b hkind
  · cases hx

end Piece

namespace Block
variable {P : List Span → Prop}

theorem holds_startingAt (b : Block) (i : Nat) (h : b.Holds P) : (b.startingAt i).Holds P := by
  cases b <;> exact h

theorem holds_nested_iff {container : Container} {isTight : Bool} {span : Span} {blocks : List Block} :
    (nested container isTight span blocks).Holds P ↔ ∀ b ∈ blocks, b.Holds P := by
  constructor
  · intro h b hb lines hlines
    exact h lines (mem_paragraphsOfAll_iff.2 ⟨b, hb, hlines⟩)
  · intro h lines hlines
    obtain ⟨b, hb, hlines⟩ := mem_paragraphsOfAll_iff.1 hlines
    exact h b hb lines hlines

theorem mem_of_lookup {α : Type} {i : Nat} {a : α} {l : List (Nat × α)} (h : l.lookup i = some a) : (i, a) ∈ l := by
  induction l with
  | nil => cases h
  | cons x l ih =>
    obtain ⟨k, b⟩ := x
    rw [List.lookup_cons] at h
    split at h
    · next hk =>
      cases h
      rw [beq_iff_eq.1 hk]
      exact List.mem_cons_self
    · exact List.mem_cons_of_mem _ (ih h)

theorem holds_tighten (document : Array Char) (containers : List Container) {b : Block} (h : b.Holds P) :
    (b.tighten document containers).Holds P := by
  unfold tighten
  split
  · next indent isTight span blocks =>
    have hblocks := holds_nested_iff.1 h
    refine holds_nested_iff.2 ?_
    split
    · exact List.forall_mem_nil _
    · intro b hb
      obtain ⟨⟨b', i⟩, hmem, hb⟩ := List.mem_filterMap.1 hb
      have hb' := hblocks b' (List.fst_mem_of_mem_zipIdx hmem)
      generalize hleft : (if anyHoldsCode blocks then some (Piece.blocksLeft _ _ blocks) else none) = left at hb
      dsimp only at hb
      split at hb
      · cases hb
        exact hb'
      · split at hleft
        · cases hleft
          exact Piece.holds_of_mem_blocksLeft (Q := Holds P) holds_startingAt hblocks (mem_of_lookup hb)
        · cases hleft
      · cases hb
        exact hb'
  · exact h

mutual

theorem holds_settle (document : Array Char) (outer : List Container) : ∀ b : Block, b.Holds P →
    (b.settle document outer).Holds P
  | .nested c isTight span blocks, h => by
    have hsettled := holds_settleAll document (c :: outer) blocks (holds_nested_iff.1 h)
    refine holds_nested_iff.2 ?_
    cases isTight with
    | false => exact hsettled
    | true =>
      rw [if_pos rfl]
      intro b hb
      obtain ⟨b', hb', rfl⟩ := List.mem_map.1 hb
      exact holds_tighten document _ (hsettled b' hb')
  | .code _, h | .html _, h | .heading _, h | .paragraph _, h | .text _, h | .table _, h | .taskBox, h => h

theorem holds_settleAll (document : Array Char) (outer : List Container) : ∀ bs : List Block, (∀ b ∈ bs, b.Holds P) →
    ∀ b ∈ settleAll document outer bs, b.Holds P
  | [], _ => List.forall_mem_nil _
  | b :: bs, h => by
    obtain ⟨hb, hbs⟩ := List.forall_mem_cons.1 h
    exact List.forall_mem_cons.2 ⟨holds_settle document outer b hb, holds_settleAll document outer bs hbs⟩

end

end Block

/-- On every line of a paragraph but the last one, what follows goes on with the paragraph. -/
theorem isRun_of_mem_paragraphs {document : List Char} {lines : List Span}
    (h : lines ∈ Block.paragraphsOfAll (blocks document)) : IsRun document lines := by
  obtain ⟨b, hb, hlines⟩ := Block.mem_paragraphsOfAll_iff.1 h
  have hread : (Outline.readAll (2 * document.length + 1) {} ⟨0, document⟩).Holds (Block.Holds (IsRun document)) :=
    Outline.holds_readAll (Block.inherits_holds document) (Block.nests_holds document) _ ⟨List.forall_mem_nil _, List.forall_mem_nil _⟩ rfl
  exact Block.holds_settleAll _ _ _ (fun b hb => hread.blocks b (List.mem_reverse.1 hb)) b hb lines hlines

end ComponentDocs.Markdown
