import ComponentDocs.Markdown.Block
import ComponentDocs.Markdown.Html
/-! Items of tight lists. The text of their paragraphs and the blocks between them are
one sequence, in which a code span, a piece of HTML, the target of a link or a
footnote mark may reach over blocks. A block that is passed over is none. -/
namespace ComponentDocs.Markdown

inductive PieceKind
  /-- A run of backticks. A backslash before it makes a text of the first of them. -/
  | ticks (count : Nat) (escaped : Bool)
  | angle
  | opening (isImage : Bool)
  /-- A closing bracket, and whether its label alone may refer to something. -/
  | closing (mayRefer : Bool)
  | plain
  | block (index : Nat) (b : Block)

/-- A piece of the contents of an item, with the text from its end to the end of the item. -/
structure Piece where
  kind : PieceKind
  span : Span
  rest : List Char

namespace Piece

/-- The pieces of a line from `c` on. Plain text began at `start` and ends before `content`. -/
def ofText (content : Nat) : Nat → (start : Nat) → Cursor → List Piece
  | 0, _, _ => []
  | fuel + 1, start, c =>
    let textTo (stop : Nat) : List Piece := if start < stop then [⟨.plain, ⟨start, stop⟩, []⟩] else []
    let mark (kind : PieceKind) (before length : Nat) : List Piece :=
      let next := c.advance (before + length)
      textTo c.offset ++
        ⟨kind, ⟨c.offset + before, next.offset⟩, next.rest⟩ :: ofText content fuel next.offset next
    match c.rest with
    | [] => textTo content
    | d :: cs =>
      if isEol d then textTo content
      else if d == '\\' && cs.head? == some '`' then mark (.ticks (run '`' cs) true) 1 (run '`' cs)
      else if d == '\\' && cs.head?.any isPunctuation then
        textTo c.offset ++ ofText content fuel (c.offset + 1) (c.advance 2)
      else if d == '`' then mark (.ticks (run '`' c.rest) false) 0 (run '`' c.rest)
      else if d == '<' && cs.head? != some '\\' then mark .angle 0 1
      else if d == '!' && cs.head? == some '[' then mark (.opening true) 0 2
      else if d == '[' then mark (.opening false) 0 1
      else if d == ']' then mark (.closing true) 0 1
      else ofText content fuel start (c.advance 1)

def ofLine (c : Cursor) (isLast : Bool) : List Piece :=
  let line := c.rest.takeWhile fun d => !isEol d
  let stop := c.offset + line.length
  let blanks := (line.reverse.takeWhile isSpace).length
  let backslash := (line.reverse.takeWhile (· == '\\')).length % 2
  let breakStart := if backslash = 1 then stop - 1 else if 2 ≤ blanks then stop - blanks else stop
  let text := ofText (stop - blanks - backslash) (line.length + 1) c.offset c
  if isLast then text else text ++ [⟨.plain, ⟨breakStart, stop + 1⟩, []⟩]

def ofLines (c : Cursor) : List Span → List Piece × Cursor
  | [] => ([], c)
  | line :: lines =>
    let c := c.advance (line.start - c.offset)
    let (pieces, last) := ofLines c lines
    (ofLine c lines.isEmpty ++ pieces, last)

def ofBlocks (c : Cursor) : List (Block × Nat) → List Piece
  | [] => []
  | (.paragraph lines, _) :: blocks =>
    let (pieces, c) := ofLines c lines
    pieces ++ ofBlocks c blocks
  | (b, i) :: blocks =>
    match b.span? with
    | some s =>
      let c := c.advance (s.stop - c.offset)
      ⟨.block i b, s, c.rest⟩ :: ofBlocks c blocks
    | none => ofBlocks c blocks

def dropTo (i : Nat) : List Piece → List Piece
  | [] => []
  | p :: ps =>
    if p.span.stop ≤ i then dropTo i ps
    else
      let kind := match p.kind with
        | .block k b => .block k (b.startingAt i)
        | kind => kind
      { p with kind, span := { p.span with start := max p.span.start i } } :: ps

def nextText? (p : Piece) : List Piece → Option (Nat × List Char)
  | [] => none
  | q :: _ => some (q.span.start, p.rest.drop (q.span.start - p.span.stop))

def afterTicks? (n : Nat) : List Piece → Option (List Piece)
  | [] => none
  | p :: ps =>
    match p.kind with
    | .ticks m _ => if m = n then some ps else afterTicks? n ps
    | _ => afterTicks? n ps

/-- Makes a closing bracket that refers to nothing of the first piece that ends after `i`. -/
def closeAt? (i : Nat) : List Piece → Option (List Piece)
  | [] => none
  | p :: ps =>
    if p.span.stop ≤ i then (closeAt? i ps).map (p :: ·) else some ({ p with kind := .closing false } :: ps)

structure Opening where
  before : Nat
  isImage : Bool
  label : List Char
  stop : Nat
  isOff : Bool := false

inductive Follower
  | empty
  | label (stop : Nat)
  | other

def follower (enter : List Char → Option Nat) (p : Piece) (todo : List Piece) : Follower :=
  match nextText? p todo with
  | some (_, '[' :: ']' :: _) => .empty
  | some (_, '[' :: '^' :: _) => .other
  | some (start, '[' :: text) =>
    match label? enter text with
    | some n => .label (start + 1 + n)
    | none => .other
  | _ => .other

def marksFootnote (enter : List Char → Option Nat) (o : Opening) (p : Piece) : Bool :=
  match o.label with
  | '^' :: text => (label? enter text).any fun n => o.stop + 1 + n = p.span.stop
  | _ => false

/-- Goes through the pieces and drops those that code spans, HTML, link targets and footnote marks
pass over. `enter` tells how many characters at the front of a line mark containers. -/
def reduce (enter : List Char → Nat) :
    Nat → List Opening → (done todo : List Piece) → List Piece
  | 0, _, done, todo => done.reverse ++ todo
  | _, _, done, [] => done.reverse
  | fuel + 1, brackets, done, p :: todo =>
    let nextLine (cs : List Char) : List Char := cs.drop (enter cs)
    let go (brackets : List Opening) (todo : List Piece) : List Piece :=
      reduce enter fuel brackets (p :: done) todo
    match p.kind with
    | .plain | .block _ _ => go brackets todo
    | .ticks n escaped =>
      let n := if escaped then n - 1 else n
      go brackets (if n = 0 then todo else (afterTicks? n todo).getD todo)
    | .angle =>
      let reach := (nextText? p todo).bind fun (start, text) =>
        (afterAutolink? text <|> afterInlineHtml? nextLine text).map fun rest =>
          start + (text.length - rest.length)
      go brackets (match reach with
        | some i => dropTo i todo
        | none => todo)
    | .opening isImage =>
      go ({ before := done.length, isImage, label := p.rest, stop := p.span.stop } :: brackets) todo
    | .closing mayRefer =>
      match brackets with
      | [] => go [] todo
      | o :: outer =>
        if o.isOff then go outer todo
        else
          match afterLinkTarget? nextLine p.rest with
          | some rest =>
            let outer := if o.isImage then outer else outer.map fun b => { b with isOff := b.isOff || !b.isImage }
            go outer (dropTo (p.span.stop + (p.rest.length - rest.length)) todo)
          | none =>
            match follower (fun cs => some (enter cs)) p todo with
            | .label stop => go outer ((closeAt? (stop - 1) todo).getD todo)
            | _ =>
              if mayRefer && marksFootnote (fun cs => some (enter cs)) o p then
                reduce enter fuel [] (done.drop (done.length - o.before)) todo
              else go outer todo

def blocksLeft (containers : List Container) (c : Cursor) (blocks : List Block) : List (Nat × Block) :=
  let pieces := ofBlocks c blocks.zipIdx
  let enter (cs : List Char) : Nat := (Container.enterAll { rest := cs } containers).2.scanned
  (reduce enter (pieces.length + 1) [] [] pieces).filterMap fun p =>
    match p.kind with
    | .block i b => some (i, b)
    | _ => none

end Piece

namespace Block

/-- An item of a tight list holds the text of its paragraphs in place of the paragraphs. Where the
first paragraph has no text, the item ends at once. -/
def tighten (document : Array Char) (containers : List Container) : Block → Block
  | .nested (.item indent) isTight span blocks =>
    let containers := .item indent :: containers
    let text : Cursor := ⟨span.start, (document.extract span.start span.stop).toList⟩
    let left := if anyHoldsCode blocks then some (Piece.blocksLeft containers text blocks) else none
    .nested (.item indent) isTight span <|
      match blocks with
      | .paragraph [] :: _ => []
      | _ =>
        blocks.zipIdx.filterMap fun (b, i) =>
          match b, b.span?, left with
          | .paragraph lines, _, _ => some (.text lines)
          | _, some _, some left => left.lookup i
          | _, _, _ => some b
  | b => b

mutual

/-- The block with the items of its tight lists as they are. `outer` are the containers around it. -/
def settle (document : Array Char) (outer : List Container) : Block → Block
  | .nested c isTight span blocks =>
    let blocks := settleAll document (c :: outer) blocks
    .nested c isTight span (if isTight then blocks.map (tighten document (c :: outer)) else blocks)
  | b => b

def settleAll (document : Array Char) (outer : List Container) : List Block → List Block
  | [] => []
  | b :: bs => b.settle document outer :: settleAll document outer bs

end

end Block

end ComponentDocs.Markdown
