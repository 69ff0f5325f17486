import ComponentDocs.Proofs.Markdown.Shift
/-! Items of tight lists further on in a document. Which of their blocks are left does not depend on the
place. -/
namespace ComponentDocs.Markdown

namespace Block
variable (d : Nat) (b : Block)

theorem span?_shift : (b.shift d).span? = b.span?.map (Span.shift d) := by
  cases b with
  | heading lines =>
    simp only [shift, span?, List.head?_map, List.getLast?_map]
    cases lines.head? <;> cases lines.getLast? <;> rfl
  | code | html | paragraph | text | table | taskBox | nested => rfl

theorem startingAt_shift (i : Nat) : (b.shift d).startingAt (d + i) = (b.startingAt i).shift d := by
  cases b with
  | code s => simp [shift, startingAt, Span.shift, Nat.add_max_add_left]
  | html | heading | paragraph | text | table | taskBox | nested => rfl

mutual

theorem holdsCode_shift (d : Nat) : ∀ b : Block, (b.shift d).holdsCode = b.holdsCode
  | .nested _ _ _ blocks => anyHoldsCode_shift d blocks
  | .code _ | .html _ | .heading _ | .paragraph _ | .text _ | .table _ | .taskBox => rfl

theorem anyHoldsCode_shift (d : Nat) : ∀ bs : List Block, anyHoldsCode (shiftAll d bs) = anyHoldsCode bs
  | [] => rfl
  | b :: bs => by rw [shiftAll, anyHoldsCode, anyHoldsCode, holdsCode_shift d b, anyHoldsCode_shift d bs]

end

end Block

def PieceKind.shift (d : Nat) : PieceKind → PieceKind
  | .block i b => .block i (b.shift d)
  | kind => kind

namespace Piece

def shift (d : Nat) (p : Piece) : Piece := { p with kind := p.kind.shift d, span := p.span.shift d }

def Opening.shift (d : Nat) (o : Opening) : Opening := { o with stop := d + o.stop }

def Follower.shift (d : Nat) : Follower → Follower
  | .label stop => .label (d + stop)
  | f => f

theorem ite_map {α β : Type} {p : Prop} [Decidable p] {f : α → β} {x y : List β} {x' y' : List α}
    (hx : p → x = x'.map f) (hy : ¬ p → y = y'.map f) : (if p then x else y) = (if p then x' else y').map f := by
  split
  · next h => exact hx h
  · next h => exact hy h

theorem plain_shift (d start stop : Nat) :
    (if d + start < d + stop then [(⟨.plain, ⟨d + start, d + stop⟩, []⟩ : Piece)] else []) =
      (if start < stop then [⟨.plain, ⟨start, stop⟩, []⟩] else []).map (shift d) := by
  by_cases h : start < stop
  · simp [h]
    rfl
  · simp [h]

theorem ofText_shift (d content fuel start : Nat) (c : Cursor) :
    ofText (d + content) fuel (d + start) (c.shift d) = (ofText content fuel start c).map (shift d) := by
  induction fuel generalizing start c with
  | zero => rfl
  | succ fuel ih =>
    have hmark (kind : PieceKind) (hkind : kind.shift d = kind) (before length : Nat) :
        (if d + start < d + c.offset then [(⟨.plain, ⟨d + start, d + c.offset⟩, []⟩ : Piece)] else []) ++
            ⟨kind, ⟨d + c.offset + before, d + (c.offset + (before + length))⟩, (c.advance (before + length)).rest⟩ ::
            ofText (d + content) fuel (d + (c.offset + (before + length))) ((c.advance (before + length)).shift d) =
          ((if start < c.offset then [(⟨.plain, ⟨start, c.offset⟩, []⟩ : Piece)] else []) ++
            ⟨kind, ⟨c.offset + before, c.offset + (before + length)⟩, (c.advance (before + length)).rest⟩ ::
            ofText content fuel (c.offset + (before + length)) (c.advance (before + length))).map (shift d) := by
      rw [plain_shift, ih, List.map_append, List.map_cons, shift, hkind, Span.shift, Nat.add_assoc]
    simp only [ofText, Cursor.shift_rest, Cursor.shift_offset, Cursor.advance_shift]
    split
    · exact plain_shift ..
    · refine ite_map (fun _ => plain_shift ..) fun _ => ite_map (fun _ => hmark _ rfl ..) fun _ => ite_map (fun _ => ?_)
        fun _ => ite_map (fun _ => hmark _ rfl ..) fun _ => ite_map (fun _ => hmark _ rfl ..) fun _ =>
        ite_map (fun _ => hmark _ rfl ..) fun _ => ite_map (fun _ => hmark _ rfl ..) fun _ =>
        ite_map (fun _ => hmark _ rfl ..) fun _ => ih ..
      rw [List.map_append, ← ih, ← plain_shift, Nat.add_assoc]
      rfl

/-- What is cut off a line at its end: blanks or the backslash of a hard break, but not both. -/
theorem length_ending_le (cs : List Char) :
    (cs.takeWhile isSpace).length + (cs.takeWhile (· == '\\')).length % 2 ≤ cs.length := by
  cases cs with
  | nil => simp
  | cons c cs =>
    have hblanks := (List.takeWhile_prefix isSpace (l := cs)).length_le
    have hbackslashes := (List.takeWhile_prefix (· == '\\') (l := cs)).length_le
    by_cases hc : c = '\\'
    · subst hc
      simp [isSpace]
      omega
    · cases hs : isSpace c <;> simp [hc, hs]
      omega

theorem ofLine_shift (d : Nat) (c : Cursor) (isLast : Bool) :
    ofLine (c.shift d) isLast = (ofLine c isLast).map (shift d) := by
  let line := c.rest.takeWhile fun d => !isEol d
  let stop := c.offset + line.length
  let blanks := (line.reverse.takeWhile isSpace).length
  let backslash := (line.reverse.takeWhile (· == '\\')).length % 2
  have hending : blanks + backslash ≤ stop := by
    have hle := length_ending_le line.reverse
    rw [List.length_reverse] at hle
    exact hle.trans (Nat.le_add_left ..)
  have hstop : d + c.offset + line.length = d + stop := Nat.add_assoc ..
  have hcontent : d + stop - blanks - backslash = d + (stop - blanks - backslash) := by omega
  have hbreak : (if backslash = 1 then d + stop - 1 else if 2 ≤ blanks then d + stop - blanks else d + stop) =
      d + (if backslash = 1 then stop - 1 else if 2 ≤ blanks then stop - blanks else stop) := by
    split_ifs <;> omega
  change (if isLast then ofText (d + c.offset + line.length - blanks - backslash) _ (d + c.offset) (c.shift d)
    else ofText (d + c.offset + line.length - blanks - backslash) _ (d + c.offset) (c.shift d) ++
      [⟨.plain, ⟨if backslash = 1 then d + c.offset + line.length - 1
        else if 2 ≤ blanks then d + c.offset + line.length - blanks else d + c.offset + line.length,
        d + c.offset + line.length + 1⟩, []⟩]) = _
  rw [hstop, hcontent, hbreak, ofText_shift]
  refine ite_map (fun _ => rfl) fun _ => ?_
  rw [List.map_append]
  rfl

theorem ofLines_shift (d : Nat) (c : Cursor) (lines : List Span) :
    ofLines (c.shift d) (lines.map (Span.shift d)) =
      ((ofLines c lines).1.map (shift d), (ofLines c lines).2.shift d) := by
  induction lines generalizing c with
  | nil => rfl
  | cons line lines ih =>
    simp only [List.map_cons, ofLines, Cursor.shift_offset, Span.shift, Nat.add_sub_add_left, Cursor.advance_shift, ih,
      List.isEmpty_map, ofLine_shift, List.map_append]

/-- Blocks of an item with their indices. -/
def shiftIndexed (d : Nat) (blocks : List (Block × Nat)) : List (Block × Nat) :=
  blocks.map (Prod.map (Block.shift d) id)

theorem ofBlocks_cons {b : Block} (hb : ∀ lines, b ≠ .paragraph lines) (c : Cursor) (i : Nat)
    (blocks : List (Block × Nat)) : ofBlocks c ((b, i) :: blocks) =
      match b.span? with
      | some s => ⟨.block i b, s, (c.advance (s.stop - c.offset)).rest⟩ :: ofBlocks (c.advance (s.stop - c.offset)) blocks
      | none => ofBlocks c blocks := by
  cases b with
  | paragraph lines => exact absurd rfl (hb lines)
  | code | html | heading | text | table | taskBox | nested => rfl

theorem ofBlocks_shift (d : Nat) (c : Cursor) (blocks : List (Block × Nat)) :
    ofBlocks (c.shift d) (shiftIndexed d blocks) = (ofBlocks c blocks).map (shift d) := by
  induction blocks generalizing c with
  | nil => rfl
  | cons indexed blocks ih =>
    obtain ⟨b, i⟩ := indexed
    rw [shiftIndexed, List.map_cons, ← shiftIndexed, Prod.map]
    by_cases hb : ∃ lines, b = .paragraph lines
    · obtain ⟨lines, rfl⟩ := hb
      simp only [Block.shift, ofBlocks, ofLines_shift, ih, List.map_append]
    · have hshift (lines : List Span) : b.shift d ≠ .paragraph lines := by
        rintro h
        cases b <;> simp [Block.shift] at h hb
      rw [not_exists] at hb
      rw [ofBlocks_cons hshift, ofBlocks_cons hb, Block.span?_shift]
      cases b.span? with
      | none => exact ih c
      | some s =>
        simp only [Option.map_some, Span.shift, Cursor.shift_offset, Nat.add_sub_add_left, Cursor.advance_shift, ih]
        rfl

theorem nextText?_shift (d : Nat) (p : Piece) (ps : List Piece) :
    nextText? (p.shift d) (ps.map (shift d)) = (nextText? p ps).map fun (i, text) => (d + i, text) := by
  cases ps with
  | nil => rfl
  | cons q ps => simp [nextText?, shift, Span.shift, Nat.add_sub_add_left]

theorem afterTicks?_shift (d n : Nat) (ps : List Piece) :
    afterTicks? n (ps.map (shift d)) = (afterTicks? n ps).map (List.map (shift d)) := by
  induction ps with
  | nil => rfl
  | cons p ps ih =>
    obtain ⟨kind, span, rest⟩ := p
    cases kind with
    | ticks m escaped =>
      simp only [List.map_cons, shift, PieceKind.shift, afterTicks?, ih]
      split <;> rfl
    | angle | opening | closing | plain | block => exact ih

theorem dropTo_shift (d i : Nat) (ps : List Piece) :
    dropTo (d + i) (ps.map (shift d)) = (dropTo i ps).map (shift d) := by
  induction ps with
  | nil => rfl
  | cons p ps ih =>
    obtain ⟨kind, span, rest⟩ := p
    simp only [List.map_cons, dropTo, ih, shift, Span.shift, Nat.add_le_add_iff_left, Nat.add_max_add_left]
    refine ite_map (fun _ => rfl) fun _ => ?_
    cases kind with
    | block k b => simp [PieceKind.shift, shift, Block.startingAt_shift, Span.shift]
    | ticks | angle | opening | closing | plain => rfl

theorem closeAt?_shift (d i : Nat) (ps : List Piece) :
    closeAt? (d + i) (ps.map (shift d)) = (closeAt? i ps).map (List.map (shift d)) := by
  induction ps with
  | nil => rfl
  | cons p ps ih =>
    simp only [List.map_cons, closeAt?, ih, show (p.shift d).span.stop = d + p.span.stop from rfl,
      Nat.add_le_add_iff_left]
    split
    · cases closeAt? i ps <;> rfl
    · rfl

theorem follower_shift (enter : List Char → Option Nat) (d : Nat) (p : Piece) (ps : List Piece) :
    follower enter (p.shift d) (ps.map (shift d)) = (follower enter p ps).shift d := by
  unfold follower
  rw [nextText?_shift]
  rcases nextText? p ps with _ | ⟨start, text⟩
  · rfl
  · simp only [Option.map_some]
    split
    · next heq =>
      cases heq
      rfl
    · next heq =>
      cases heq
      rfl
    · next heq =>
      cases heq
      cases h : label? enter _ <;> simp [h, Follower.shift, Nat.add_assoc]
    · next hopen =>
      have hother (rest : List Char) : text ≠ '[' :: rest := by
        rintro rfl
        exact hopen _ _ rfl
      split
      all_goals first | rfl | next heq => exact absurd (by cases heq; rfl) (hother _)

theorem marksFootnote_shift (enter : List Char → Option Nat) (d : Nat) (o : Opening) (p : Piece) :
    marksFootnote enter (o.shift d) (p.shift d) = marksFootnote enter o p := by
  simp only [marksFootnote, Opening.shift, shift, Span.shift, Nat.add_assoc, Nat.add_left_cancel_iff]

theorem follower_pos {enter : List Char → Option Nat} {p : Piece} {ps : List Piece} {stop : Nat}
    (h : follower enter p ps = .label stop) : 0 < stop := by
  unfold follower at h
  split at h
  · cases h
  · cases h
  · split at h
    · cases h
      omega
    · cases h
  · cases h

/-- Within a link there is no other link. -/
theorem outer_shift (d : Nat) (o : Opening) (outer : List Opening) :
    (if (o.shift d).isImage then outer.map (Opening.shift d)
      else (outer.map (Opening.shift d)).map fun b => { b with isOff := b.isOff || !b.isImage }) =
      (if o.isImage then outer else outer.map fun b => { b with isOff := b.isOff || !b.isImage }).map
        (Opening.shift d) := by
  refine ite_map (fun _ => rfl) fun _ => ?_
  rw [List.map_map, List.map_map]
  rfl

theorem reduce_shift (enter : List Char → Nat) (d fuel : Nat) (brackets : List Opening) (done todo : List Piece) :
    reduce enter fuel (brackets.map (Opening.shift d)) (done.map (shift d)) (todo.map (shift d)) =
      (reduce enter fuel brackets done todo).map (shift d) := by
  induction fuel generalizing brackets done todo with
  | zero => simp [reduce]
  | succ fuel ih =>
    cases todo with
    | nil => simp [reduce]
    | cons p todo =>
      have hgo (brackets : List Opening) (todo : List Piece) :
          reduce enter fuel (brackets.map (Opening.shift d)) (p.shift d :: done.map (shift d)) (todo.map (shift d)) =
            (reduce enter fuel brackets (p :: done) todo).map (shift d) := ih brackets (p :: done) todo
      have hnext := nextText?_shift d p todo
      have hfollower := follower_shift (fun cs => some (enter cs)) d p todo
      have hfootnote (o : Opening) := marksFootnote_shift (fun cs => some (enter cs)) d o p
      have hpos {stop : Nat} (h : follower (fun cs => some (enter cs)) p todo = .label stop) : 0 < stop :=
        follower_pos h
      obtain ⟨kind, span, rest⟩ := p
      cases kind with
      | plain => exact hgo brackets todo
      | block i b => exact hgo brackets todo
      | ticks n escaped =>
        simp only [List.map_cons, shift, PieceKind.shift, reduce, afterTicks?_shift, Option.getD_map,
          ← apply_ite (List.map _)]
        exact hgo ..
      | angle =>
        simp only [List.map_cons, reduce]
        dsimp only [shift, PieceKind.shift] at hnext ⊢
        rw [hnext]
        cases nextText? _ todo with
        | none => exact hgo ..
        | some next =>
          obtain ⟨start, text⟩ := next
          dsimp only [Option.map_some, Option.bind_some]
          cases afterAutolink? text <|> afterInlineHtml? (fun cs => cs.drop (enter cs)) text with
          | none => exact hgo ..
          | some rest =>
            dsimp only [Option.map_some]
            rw [Nat.add_assoc, dropTo_shift]
            exact hgo ..
      | opening isImage =>
        simp only [List.map_cons, shift, PieceKind.shift, reduce, List.length_map]
        exact hgo ({ before := done.length, isImage, label := rest, stop := span.stop } :: brackets) todo
      | closing mayRefer =>
        simp only [List.map_cons, reduce]
        dsimp only [shift, PieceKind.shift] at hfollower hfootnote ⊢
        rcases brackets with _ | ⟨o, outer⟩
        · exact hgo [] todo
        · rw [List.map_cons]
          dsimp only
          refine ite_map (fun _ => hgo outer todo) fun _ => ?_
          cases afterLinkTarget? (fun cs => cs.drop (enter cs)) rest with
          | some after =>
            dsimp only
            rw [outer_shift, Span.shift, Nat.add_assoc, dropTo_shift]
            exact hgo ..
          | none =>
            dsimp only
            rw [hfollower]
            cases hf : follower (fun cs => some (enter cs)) _ todo with
            | label stop =>
              dsimp only [Follower.shift]
              rw [Nat.add_sub_assoc (hpos hf), closeAt?_shift, Option.getD_map]
              exact hgo ..
            | empty | other =>
              dsimp only [Follower.shift]
              simp only [hfootnote, List.length_map, ← List.map_drop]
              exact ite_map (fun _ => ih [] _ _) fun _ => hgo outer todo

theorem blocksLeft_shift (d : Nat) (containers : List Container) (c : Cursor) (blocks : List Block) :
    blocksLeft containers (c.shift d) (Block.shiftAll d blocks) =
      (blocksLeft containers c blocks).map (Prod.map id (Block.shift d)) := by
  have hindexed : (Block.shiftAll d blocks).zipIdx = shiftIndexed d blocks.zipIdx := by
    rw [Block.shiftAll_eq_map, List.zipIdx_map, shiftIndexed]
  simp only [blocksLeft, hindexed, ofBlocks_shift, List.length_map]
  have hreduce := reduce_shift (fun cs => (Container.enterAll { rest := cs } containers).2.scanned) d
    ((ofBlocks c blocks.zipIdx).length + 1) [] [] (ofBlocks c blocks.zipIdx)
  rw [List.map_nil, List.map_nil] at hreduce
  rw [hreduce, List.filterMap_map, List.map_filterMap]
  refine List.filterMap_congr fun p _ => ?_
  obtain ⟨kind, span, rest⟩ := p
  cases kind <;> rfl

end Piece

namespace Block
variable (front text : List Char)

theorem extract_append (start stop : Nat) :
    ((front ++ text).toArray.extract (front.length + start) (front.length + stop)).toList =
      (text.toArray.extract start stop).toList := by
  simp [List.extract_eq_take_drop, Nat.add_sub_add_left]

theorem lookup_map_snd {α β : Type} (f : α → β) (i : Nat) (l : List (Nat × α)) :
    (l.map (Prod.map id f)).lookup i = (l.lookup i).map f := by
  induction l with
  | nil => rfl
  | cons a l ih =>
    obtain ⟨k, a⟩ := a
    simp only [List.map_cons, Prod.map, id, List.lookup_cons, ih]
    split <;> rfl

theorem eq_paragraph_nil_cons_of_shiftAll {d : Nat} {blocks rest : List Block}
    (h : shiftAll d blocks = .paragraph [] :: rest) : ∃ rest, blocks = .paragraph [] :: rest := by
  cases blocks with
  | nil => cases h
  | cons b blocks =>
    cases b <;> simp only [shiftAll, shift, List.cons.injEq, reduceCtorEq, false_and, paragraph.injEq,
      List.map_eq_nil_iff] at h
    exact ⟨blocks, by rw [h.1]⟩

/-- What is left of an item that holds code. -/
theorem left_shift (d : Nat) (containers : List Container) (start : Nat) (text : List Char) (blocks : List Block) :
    (if anyHoldsCode (shiftAll d blocks) then
      some (Piece.blocksLeft containers ⟨d + start, text⟩ (shiftAll d blocks)) else none) =
      (if anyHoldsCode blocks then some (Piece.blocksLeft containers ⟨start, text⟩ blocks) else none).map
        (List.map (Prod.map id (shift d))) := by
  rw [anyHoldsCode_shift]
  split
  · exact congrArg some (Piece.blocksLeft_shift d containers ⟨start, text⟩ blocks)
  · rfl

theorem tighten_shift (containers : List Container) (b : Block) :
    tighten (front ++ text).toArray containers (b.shift front.length) =
      (tighten text.toArray containers b).shift front.length := by
  cases b with
  | nested c isTight span blocks =>
    cases c with
    | item indent =>
      simp only [shift, tighten, Span.shift, extract_append, left_shift, nested.injEq, true_and]
      generalize (if anyHoldsCode blocks then some (Piece.blocksLeft _ _ blocks) else none) = left
      split
      · next hfirst =>
        split
        · rfl
        · next hother =>
          obtain ⟨rest, rfl⟩ := eq_paragraph_nil_cons_of_shiftAll hfirst
          exact absurd rfl (hother rest)
      · next hother =>
        split
        · exact absurd rfl (hother _)
        · rw [shiftAll_eq_map, shiftAll_eq_map, List.zipIdx_map, List.filterMap_map, List.map_filterMap]
          refine List.filterMap_congr fun x _ => ?_
          obtain ⟨b, i⟩ := x
          simp only [Function.comp, Prod.map, span?_shift]
          cases b with
          | paragraph lines => rfl
          | heading lines =>
            cases span? (.heading lines) with
            | none => rfl
            | some s =>
              cases left with
              | none => rfl
              | some left => exact lookup_map_snd ..
          | text | taskBox => rfl
          | code | html | table | nested =>
            cases left with
            | none => rfl
            | some left => exact lookup_map_snd ..
    | blockQuote | list | footnote => rfl
  | code | html | heading | paragraph | text | table | taskBox => rfl

mutual

theorem settle_shift (outer : List Container) : ∀ b : Block,
    (b.shift front.length).settle (front ++ text).toArray outer = (b.settle text.toArray outer).shift front.length
  | .nested c isTight span blocks => by
    simp only [shift, settle]
    rw [settleAll_shift (c :: outer) blocks]
    cases isTight with
    | false => rfl
    | true =>
      simp only [if_true, shiftAll_eq_map, List.map_map, Function.comp_def, tighten_shift]
  | .code _ | .html _ | .heading _ | .paragraph _ | .text _ | .table _ | .taskBox => rfl

theorem settleAll_shift (outer : List Container) : ∀ bs : List Block,
    settleAll (front ++ text).toArray outer (shiftAll front.length bs) =
      shiftAll front.length (settleAll text.toArray outer bs)
  | [] => rfl
  | b :: bs => by rw [shiftAll, settleAll, settleAll, shiftAll, settle_shift outer b, settleAll_shift outer bs]

end

end Block

end ComponentDocs.Markdown
