import ComponentDocs.Markdown.TightItem
/-! The block structure of a markdown document: containers (block quotes, lists,
footnotes) that a line enters from the outside in, and the leaf blocks in them.
A document is read block by block; what a block is depends on the characters
from its start on and on the containers that are open. -/
namespace ComponentDocs.Markdown

structure OpenContainer where
  container : Container
  start : Nat
  blocks : List Block := []
  /-- A blank line came between the items of the list, or between the blocks of one. -/
  isLoose : Bool := false

def OpenContainer.toBlock (c : OpenContainer) (stop : Nat) : Block :=
  let isTight := match c.container with
    | .list _ => !c.isLoose
    | _ => false
  .nested c.container isTight ⟨c.start, stop⟩ c.blocks.reverse

structure Outline where
  /-- The open containers, from the innermost. -/
  spine : List OpenContainer := []
  /-- The blocks outside of them, from the latest. -/
  blocks : List Block := []
  /-- The last line was a list marker alone. -/
  startsItem : Bool := false
  /-- A blank line came last, but not one of a block quote. -/
  afterBlank : Bool := false

namespace Outline

def containers (o : Outline) : List Container := o.spine.map OpenContainer.container

def add (o : Outline) (b : Block) : Outline :=
  match o.spine with
  | [] => { o with blocks := b :: o.blocks }
  | c :: outer => { o with spine := { c with blocks := b :: c.blocks } :: outer }

def open' (o : Outline) (c : Container) (start : Nat) : Outline :=
  { o with spine := { container := c, start } :: o.spine }

def close (o : Outline) (stop : Nat) : Outline :=
  match o.spine with
  | [] => o
  | c :: outer => { o with spine := outer }.add (c.toBlock stop)

def closeTo (n stop : Nat) (o : Outline) : Outline :=
  (List.range (o.spine.length - n)).foldl (fun o _ => o.close stop) o

/-- After a blank line, makes the list loose that is `n` levels around the innermost container. -/
def loosen (o : Outline) (n : Nat) : Outline :=
  if o.afterBlank then
    { o with spine := o.spine.modify n fun c => { c with isLoose := true }, afterBlank := false }
  else o

/-- Ends the innermost container if it is a list. A block after a blank line makes the list loose
that the block is an item's of. -/
def finishList (o : Outline) (stop : Nat) : Outline :=
  let o := match o.containers with
    | .list _ :: _ => o.close stop
    | _ => o
  o.loosen 1

/-- Goes on with the innermost list if its markers end in `marker`, and begins a list if not. -/
def continueList (o : Outline) (marker : Char) (start : Nat) : Outline :=
  let begin' (o : Outline) : Outline := { o.open' (.list marker) start with afterBlank := false }
  match o.containers with
  | [] => begin' o
  | .list open' :: _ => if open' == marker then o.loosen 0 else begin' (o.finishList start)
  | _ => begin' (o.finishList start)

def enterAll (o : Outline) (l : LineStart) : Nat × LineStart := Container.enterAll l o.containers

def interrupts (cs : List Char) : Bool :=
  (eol? cs).isSome || (thematicBreak? cs).isSome || (atxLevel? cs).isSome ||
  (codeFence? cs).isSome || startsQuote cs ||
  match cs with
  | '<' :: html => interruptsWithHtml html
  | _ => false

/-- A list marker at which a paragraph ends. On a line `inside` the containers of the paragraph, the
item holds something and has no number but one. -/
def interruptsWithItem (inside : Bool) (cs : List Char) : Bool :=
  match listMarker? cs with
  | none => false
  | some (mark, number, rest) =>
    !inside || (!blankTwice rest && (mark == '*' || mark == '-' || mark == '+' || number == 1))

def endsText (inside : Bool) (cs : List Char) : Bool := interruptsWithItem inside cs || interrupts cs

/-- Enters the containers on a line of a link label, which ends where a paragraph would. -/
def enterLabel (o : Outline) (cs : List Char) : Option Nat :=
  let (n, l) := o.enterAll { rest := cs }
  if endsText (n = o.spine.length) l.rest then none else some l.scanned

def startsFootnote (o : Outline) (cs : List Char) : Bool := (footnoteLabel? o.enterLabel cs).isSome

/-- Enters the containers on a further line of a link reference definition: all of them. -/
def enterDefinition (o : Outline) (cs : List Char) : Option Nat :=
  let (n, l) := o.enterAll { rest := cs }
  if n = o.spine.length then some l.scanned else none

/-- Reads indented code. `stop` is the end of its last line that is not blank. -/
def indentedCode (o : Outline) (start : Cursor) : Nat → (stop line : Cursor) → (blank : Bool) → Outline × Cursor
  | 0, stop, line, blank => ({ o with afterBlank := blank }.add (.code (start.span stop)), line)
  | fuel + 1, stop, line, blank =>
    let next := line.nextLine
    let stop := if blank then stop else next
    let done := ({ o with afterBlank := blank }.add (.code (start.span stop)), next)
    let (n, l) := o.enterAll next.lineStart
    if n < o.spine.length then done
    else
      let (missing, l) := l.skip 4
      if missing ≠ 0 && !l.atEol then done
      else
        let line := next.upTo l
        if line.rest.isEmpty then done
        else indentedCode o start fuel stop line line.blankLine?.isSome

def fencedCode (o : Outline) (start : Cursor) (indent : Nat) (mark : Char) (marks : Nat) :
    Nat → Cursor → Outline × Cursor
  | 0, c => finish c
  | fuel + 1, c =>
    let (n, l) := o.enterAll c.lineStart
    if n < o.spine.length then finish c
    else
      let l := (l.skip indent).2
      let (missing, inner) := l.skip 4
      match if missing ≠ 0 then closingFence? mark marks inner.rest else none with
      | some k => finish ((c.upTo inner).advance k)
      | none => fencedCode o start indent mark marks fuel (c.upTo l).nextLine
where
  finish (c : Cursor) : Outline × Cursor :=
    (o.add (.code (start.span c)), c.blankLine?.getD c)

def contains (part : List Char) : List Char → Bool
  | [] => part.isEmpty
  | c :: cs => part.isPrefixOf (c :: cs) || contains part cs

/-- Reads a block of HTML, up to the line that holds `mark` or, without a mark, to a blank line. -/
def htmlBlock (mark : Option (List Char)) : Nat → Outline → Cursor → Outline × Cursor
  | 0, o, c => (o, c)
  | fuel + 1, o, c =>
    let next := c.nextLine
    let o := o.add (.html (c.span next))
    let (n, l) := o.enterAll next.lineStart
    if n < o.spine.length then (o, next)
    else
      let inner := next.upTo l
      let ends := match mark with
        | some mark => contains mark (c.rest.take (next.offset - c.offset))
        | none => inner.blankLine?.isSome
      if ends || inner.rest.isEmpty then (o, next) else htmlBlock mark fuel o inner

def tableRows (o : Outline) : Nat → Cursor → Cursor
  | 0, c => c
  | fuel + 1, c =>
    let (n, l) := o.enterAll c.lineStart
    let row := c.upTo l.skipAll
    if n < o.spine.length || endsText true row.rest then c
    else
      let n := (row.rest.takeWhile fun d => !isEol d).length
      tableRows o fuel (row.advance (n + (eol? (row.rest.drop n)).getD 0))

def tableBody? (o : Outline) (c : Cursor) : Option Cursor :=
  let (n, afterLast) := pipes c.rest
  let next := c.advance (lineEnd c.rest)
  let (entered, l) := o.enterAll next.lineStart
  if n = 0 || next.rest.isEmpty || entered < o.spine.length then none
  else
    match delimiterRow? l.rest with
    | none => none
    | some (length, columns) =>
      if columns = cellCount c.rest n afterLast then some ((next.upTo l).advance length) else none
where
  lineEnd (cs : List Char) : Nat :=
    let n := (cs.takeWhile fun d => !isEol d).length
    n + (eol? (cs.drop n)).getD 0

/-- Reads a paragraph, which an underline turns into a heading. `lines` are its lines so far. -/
def paragraph (o : Outline) : Nat → (lines : List Span) → Cursor → Outline × Cursor
  | 0, lines, c => (o.add (.paragraph lines.reverse), c)
  | fuel + 1, lines, c =>
    let next := c.advance (tableBody?.lineEnd c.rest)
    let earlier := lines
    let lines := c.span next :: lines
    let (n, l) := o.enterAll next.lineStart
    let inside : Bool := n = o.spine.length
    let (missing, l) := l.skip 4
    let inner := next.upTo l
    let hollow := earlier.isEmpty && c.rest.head? == some '\\' && (c.rest.drop 1).head?.any isEol && !next.rest.isEmpty
    let text := if hollow then [] else lines.reverse
    match if missing ≠ 0 && inside then setextUnderline? inner.rest else none with
    | some k => (o.add (.heading lines.reverse), inner.advance k)
    | none =>
      if missing ≠ 0 && endsText inside inner.rest then (o.add (.paragraph text), next)
      else
        let l := l.skipAll
        if l.atEol then (o.add (.paragraph text), next)
        else
          let further := next.upTo l
          if o.startsFootnote further.rest then (o.add (.paragraph lines.reverse), further)
          else paragraph o fuel lines further

/-- Reads a paragraph or a table. Where a footnote begins it reads nothing, since the line has to be
entered anew from there. -/
def textBlock (o : Outline) (fuel : Nat) (c : Cursor) : Outline × Cursor :=
  if o.startsFootnote c.rest then (o, c)
  else
    match o.tableBody? c with
    | some body =>
      let next := o.tableRows fuel body
      (o.add (.table (c.span next)), next)
    | none => o.paragraph fuel [] c

/-- Reads a leaf block at the first character that is not white space. `indent` columns come
before it. -/
def leaf (o : Outline) (fuel indent : Nat) (c : Cursor) : Outline × Cursor :=
  match html? c.rest with
  | some mark => htmlBlock mark fuel o c
  | none =>
    match thematicBreak? c.rest with
    | some n => (o, c.advance n)
    | none =>
      match atxLevel? c.rest with
      | some level => heading level
      | none =>
        match definition? o.enterLabel o.enterDefinition c.rest with
        | some n => let c := c.advance n; (o, c.blankLine?.getD c)
        | none =>
          match codeFence? c.rest with
          | some (mark, marks) =>
            o.fencedCode c indent mark marks fuel (c.advance marks).nextLine
          | none => o.textBlock fuel c
where
  html? : List Char → Option (Option (List Char))
    | '<' :: cs =>
      match sectionEnd? cs with
      | some mark => some (some mark)
      | none => if startsBlockTag cs || isLoneTag cs then some none else none
    | _ => none
  heading (level : Nat) : Outline × Cursor :=
    let body := c.advance level
    let next := match eol? body.rest with
      | some n => body.advance n
      | none => (body.advance (spaceRun body.rest)).nextLine
    (o.add (.heading [c.span next]), next)

/-- Opens the containers that begin on a line. The result is the rest of the line, or the place
after it if a list marker stands alone at its end. -/
def openAll : Nat → Outline → (start : Cursor) → LineStart → Outline × (LineStart ⊕ Cursor)
  | 0, o, _, l => (o, .inl l)
  | fuel + 1, o, start, l =>
    let here := (start.upTo l).offset
    match l.listMarker? with
    | some (marker, indent, next) =>
      let o := (o.continueList marker here).open' (.item indent) here
      match (start.upTo next).blankLine? with
      | some c => ({ o with startsItem := true }, .inr c)
      | none =>
        match next.taskBox? with
        | some inner => openAll fuel (o.add .taskBox) start inner
        | none => openAll fuel o start next
    | none =>
      match l.quoteMark? with
      | some next => openAll fuel ((o.finishList start.offset).open' .blockQuote here) start next
      | none => (o, .inl l)

/-- A blank line ends an item that has nothing in it yet. -/
def blankLine (o : Outline) (start : Nat) : Outline :=
  match o.containers with
  | [] | .blockQuote :: _ => o
  | _ => { if o.startsItem then o.close start else o with afterBlank := true }

def closeFootnote (o : Outline) (start : Nat) : Outline :=
  match o.containers with
  | .footnote :: _ => if o.afterBlank then o.close start else o
  | _ => o

def block (fuel : Nat) (o : Outline) (start : Cursor) : Outline × Cursor :=
  let (n, l) := o.enterAll start.lineStart
  let o := (o.closeTo n start.offset).closeFootnote start.offset
  let here := start.upTo l
  let (o, start, l) := match footnoteLabel? o.enterLabel l.rest with
    | some n =>
      let c := here.advance n
      let c := c.blankLine?.getD c
      ((o.finishList here.offset).open' .footnote here.offset, c, c.lineStart)
    | none => (o, start, l)
  match openAll fuel o start l with
  | (o, .inr c) => (o, c)
  | (o, .inl l) =>
    let c := start.upTo l
    match c.blankLine? with
    | some next => (o.blankLine start.offset, next)
    | none =>
      let o := { o with startsItem := false }.finishList start.offset
      let (indent, l) := l.indent 4
      let c := start.upTo l
      if indent = 4 then o.indentedCode c fuel c c false else o.leaf fuel indent c

def readAll : Nat → Outline → Cursor → Outline
  | 0, o, c => o.closeTo 0 c.offset
  | fuel + 1, o, c =>
    if c.rest.isEmpty then o.closeTo 0 c.offset
    else
      let (o, next) := o.block fuel c
      readAll fuel o next

end Outline

/-- The blocks of a document, in order. Reading one of them takes at least one character, or leads to
a footnote that does. -/
def blocks (document : List Char) : List Block :=
  Block.settleAll document.toArray []
    (Outline.readAll (2 * document.length + 1) {} ⟨0, document⟩).blocks.reverse

def events (document : List Char) : List Event := Block.eventsOfAll (blocks document)

end ComponentDocs.Markdown
