import ComponentDocs.Markdown.Scan
/-! The block structure of a document as a stream of events. Ranges are counted in
characters from the start of the document. -/
namespace ComponentDocs.Markdown

/-- The characters from `start` up to, and without, `stop`. -/
structure Span where
  start : Nat
  stop : Nat
deriving DecidableEq, Repr

def Span.isEmpty (s : Span) : Bool := s.stop ≤ s.start

instance : Membership Nat Span := ⟨fun s i => s.start ≤ i ∧ i < s.stop⟩

instance (i : Nat) (s : Span) : Decidable (i ∈ s) :=
  inferInstanceAs (Decidable (s.start ≤ i ∧ i < s.stop))

inductive Tag
  | paragraph | heading | blockQuote | list | item | footnote | table | tableCell
deriving DecidableEq, Repr

/-- A tag that holds running text, in which HTML is a part of a line and no block of its own. -/
def Tag.holdsText : Tag → Bool
  | .paragraph | .heading | .item | .tableCell => true
  | _ => false

/-- `code` covers a block of code as far as it shows, `html` a line of a block of HTML, `text` a line
of a paragraph or heading. -/
inductive Event
  | opened (tag : Tag)
  | closed (tag : Tag)
  | code (span : Span)
  | html (span : Span)
  | text (span : Span)
deriving DecidableEq, Repr

/-! Places in a document. -/

/-- A place in a document: the number of characters before it and the characters from it on. -/
structure Cursor where
  offset : Nat
  rest : List Char

namespace Cursor

def advance (c : Cursor) (n : Nat) : Cursor := ⟨c.offset + n, c.rest.drop n⟩

def lineStart (c : Cursor) : LineStart := { rest := c.rest }

def upTo (c : Cursor) (l : LineStart) : Cursor := ⟨c.offset + l.scanned, l.rest⟩

def blankLine? (c : Cursor) : Option Cursor := (Markdown.blankLine? c.rest).map c.advance

def nextLine (c : Cursor) : Cursor := c.advance (lineLength c.rest)

def span (start stop : Cursor) : Span := ⟨start.offset, stop.offset⟩

end Cursor

/-! The containers of a markdown document, which a line enters from the outside in. -/

inductive Container
  | blockQuote
  /-- A list, by the last character of its markers. -/
  | list (marker : Char)
  /-- A list item, by the columns its content is indented. -/
  | item (indent : Nat)
  | footnote
deriving DecidableEq, Repr

namespace Container

def tag : Container → Tag
  | .blockQuote => .blockQuote
  | .list _ => .list
  | .item _ => .item
  | .footnote => .footnote

def enter? (l : LineStart) : Container → Option LineStart
  | .blockQuote => l.quoteMark?
  | .item indent =>
    let (missing, next) := l.skip indent
    if missing = 0 || next.atEol then some next else none
  | .list _ | .footnote => some l

/-- Enters containers, listed from the innermost, from the outside in as far as the line goes
on in them. -/
def enterAll (l : LineStart) : List Container → Nat × LineStart
  | [] => (0, l)
  | c :: outer =>
    let (n, next) := enterAll l outer
    if n = outer.length then
      match c.enter? next with
      | some inner => (n + 1, inner)
      | none => (n, next)
    else (n, next)

end Container

/-! The blocks of a document as a tree, and the stream of events that a walk through
it gives. -/

inductive Block
  | code (span : Span)
  | html (span : Span)
  | heading (lines : List Span)
  | paragraph (lines : List Span)
  /-- The text of a paragraph in an item of a tight list. -/
  | text (lines : List Span)
  | table (span : Span)
  | taskBox
  /-- A container with the blocks in it. A list is tight if no blank line comes between its items or
  between the blocks of one. -/
  | nested (container : Container) (isTight : Bool) (span : Span) (blocks : List Block)

namespace Block

private def enclosed (tag : Tag) (inner : List Event) : List Event := .opened tag :: inner ++ [.closed tag]

mutual

def events : Block → List Event
  | .code s => [.code s]
  | .html s => [.html s]
  | .heading lines => enclosed .heading (lines.map .text)
  | .paragraph lines => enclosed .paragraph (lines.map .text)
  | .text lines => lines.map .text
  | .table _ => enclosed .table []
  | .taskBox => []
  | .nested c _ _ blocks => enclosed c.tag (eventsOfAll blocks)

def eventsOfAll : List Block → List Event
  | [] => []
  | b :: bs => b.events ++ eventsOfAll bs

end

mutual

def holdsCode : Block → Bool
  | .code _ => true
  | .nested _ _ _ blocks => anyHoldsCode blocks
  | _ => false

def anyHoldsCode : List Block → Bool
  | [] => false
  | b :: bs => b.holdsCode || anyHoldsCode bs

end

def span? : Block → Option Span
  | .code s | .html s | .table s | .nested _ _ s _ => some s
  | .heading lines =>
    match lines.head?, lines.getLast? with
    | some first, some last => some ⟨first.start, last.stop⟩
    | _, _ => none
  | .paragraph _ | .text _ | .taskBox => none

def startingAt (i : Nat) : Block → Block
  | .code s => .code { s with start := max s.start i }
  | b => b

end Block

end ComponentDocs.Markdown
