/-! Scanners for the beginnings of markdown blocks. Each looks at the front of a
list of characters and reports how many of them belong to the construct. -/
namespace ComponentDocs.Markdown

def isSpace (c : Char) : Bool := c == ' ' || c == '\t' || c == '\x0b' || c == '\x0c'

def isEol (c : Char) : Bool := c == '\n' || c == '\r'

def isSpaceOrEol (c : Char) : Bool := isSpace c || isEol c

def isPunctuation (c : Char) : Bool :=
  let n := c.toNat
  (33 ≤ n && n ≤ 47) || (58 ≤ n && n ≤ 64) || (91 ≤ n && n ≤ 96) || (123 ≤ n && n ≤ 126)

def spaceRun (cs : List Char) : Nat := (cs.takeWhile isSpace).length

def run (mark : Char) (cs : List Char) : Nat := (cs.takeWhile (· == mark)).length

/-- The length of the line ending here. The end of the text is an empty line ending. -/
def eol? : List Char → Option Nat
  | [] => some 0
  | '\n' :: _ => some 1
  | '\r' :: '\n' :: _ => some 2
  | '\r' :: _ => some 1
  | _ => none

def blankLine? (cs : List Char) : Option Nat :=
  let n := spaceRun cs
  (eol? (cs.drop n)).map (n + ·)

def lineLength : List Char → Nat
  | [] => 0
  | c :: cs => if c == '\n' then 1 else lineLength cs + 1

/-- Three or more equal marks, with nothing but spaces and tabs around them: the length of the line. -/
def thematicBreak? : List Char → Option Nat
  | [] => none
  | mark :: cs =>
    if mark == '*' || mark == '-' || mark == '_' then go mark 1 1 cs else none
where
  go (mark : Char) (marks length : Nat) : List Char → Option Nat
    | [] => if 3 ≤ marks then some length else none
    | c :: cs =>
      if isEol c then
        if 3 ≤ marks then some (length + (eol? (c :: cs)).getD 0) else none
      else if c == mark then go mark (marks + 1) (length + 1) cs
      else if c == ' ' || c == '\t' then go mark marks (length + 1) cs
      else none

def atxLevel? (cs : List Char) : Option Nat :=
  let level := run '#' cs
  if 1 ≤ level && level ≤ 6 && (cs.drop level).head?.all isSpaceOrEol then some level else none

def setextUnderline? : List Char → Option Nat
  | [] => none
  | mark :: cs =>
    if mark == '=' || mark == '-' then
      let n := run mark cs
      (blankLine? (cs.drop n)).map (1 + n + ·)
    else none

/-- The opening fence of a code block: its mark and its length. What follows a fence of
backticks on its line holds no backtick. -/
def codeFence? : List Char → Option (Char × Nat)
  | [] => none
  | mark :: cs =>
    if mark == '`' || mark == '~' then
      let n := run mark cs
      let info := cs.drop n
      if n < 2 then none
      else if mark == '`' && (info.take (lineLength info)).contains '`' then none
      else some (mark, n + 1)
    else none

def closingFence? (mark : Char) (n : Nat) (cs : List Char) : Option Nat :=
  if cs.isEmpty then some 0
  else
    let marks := run mark cs
    if marks < n then none
    else
      let spaces := run ' ' (cs.drop marks)
      (eol? (cs.drop (marks + spaces))).map fun _ => marks + spaces

/-- A block quote that may cut a paragraph short: its mark has a space after it. -/
def startsQuote : List Char → Bool
  | '>' :: ' ' :: _ => true
  | _ => false

/-- A list marker followed by a space, a tab or the end of the line: its last character, its
number (zero for a bullet) and the characters after it. -/
def listMarker? (cs : List Char) : Option (Char × Nat × List Char) :=
  match cs with
  | [] => none
  | c :: rest =>
    if c == '-' || c == '+' || c == '*' then spaced c 0 rest
    else if c.isDigit then
      let digits := cs.takeWhile Char.isDigit
      let number := digits.foldl (fun n d => 10 * n + (d.toNat - '0'.toNat)) 0
      match cs.drop digits.length with
      | d :: rest => if (d == '.' || d == ')') && number < Nat.pow 2 64 then spaced d number rest else none
      | [] => none
    else none
where
  spaced (mark : Char) (number : Nat) (rest : List Char) : Option (Char × Nat × List Char) :=
    if rest.head?.all (fun c => c == ' ' || c == '\t' || isEol c) then some (mark, number, rest)
    else none

def blankTwice (cs : List Char) : Bool :=
  match blankLine? cs with
  | none => false
  | some n => (blankLine? (cs.drop n)).isSome

/-! The beginning of a line, where white space is counted in columns. A tab reaches
to the next multiple of four and may be used up in parts. -/

structure LineStart where
  rest : List Char
  /-- Characters passed since the line began. -/
  scanned : Nat := 0
  /-- Characters passed since the last tab. -/
  column : Nat := 0
  /-- Columns left of a tab that is passed already. -/
  pending : Nat := 0
deriving DecidableEq, Repr

namespace LineStart

def advance (l : LineStart) : LineStart :=
  { l with rest := l.rest.drop 1, scanned := l.scanned + 1, column := l.column + 1 }

/-- Passes up to `n` columns of white space, and says how many of them are missing. -/
def skip (l : LineStart) (n : Nat) : Nat × LineStart :=
  let used := min l.pending n
  go (n - used) (l.pending - used) l.scanned l.column l.rest
where
  go (n pending scanned column : Nat) : List Char → Nat × LineStart
    | [] => (n, ⟨[], scanned, column, pending⟩)
    | c :: cs =>
      if n = 0 then (0, ⟨c :: cs, scanned, column, pending⟩)
      else if c == ' ' then go (n - 1) pending (scanned + 1) (column + 1) cs
      else if c == '\t' then
        let width := 4 - column % 4
        go (n - width) (width - n) (scanned + 1) 0 cs
      else (n, ⟨c :: cs, scanned, column, pending⟩)

def indent (l : LineStart) (n : Nat) : Nat × LineStart :=
  let (missing, l) := l.skip n
  (n - missing, l)

def skipAll (l : LineStart) : LineStart :=
  let n := (l.rest.takeWhile fun c => c == ' ' || c == '\t').length
  { l with rest := l.rest.drop n, scanned := l.scanned + n, pending := 0 }

def atEol (l : LineStart) : Bool := l.rest.head?.all isEol

def quoteMark? (l : LineStart) : Option LineStart :=
  let inner := (l.skip 3).2
  if inner.rest.head? == some '>' then some (inner.advance.skip 1).2 else none

/-- A marker has one column of white space after it, or ends the line. -/
def afterMarker? (l : LineStart) : Option LineStart :=
  let (missing, next) := l.skip 1
  if missing = 0 || next.atEol then some next else none

/-- The indentation of an item's content: up to three more columns of white space, unless the
item starts with a blank line or with code. -/
def contentIndent (l : LineStart) (indent : Nat) : Nat × LineStart :=
  if (blankLine? l.rest).isSome then (indent, l)
  else
    let (more, next) := l.indent 4
    if more < 4 then (indent + more, next) else (indent, l)

def listMarker? (l : LineStart) : Option (Char × Nat × LineStart) :=
  let (indent, l) := l.indent 4
  if 4 ≤ indent then none
  else
    match l.rest with
    | [] => none
    | c :: _ =>
      if c == '-' || c == '+' || c == '*' then
        if (thematicBreak? l.rest).isSome then none
        else
          (afterMarker? l.advance).map fun next =>
            let (indent, next) := next.contentIndent (indent + 2)
            (c, indent, next)
      else if c.isDigit then
        let digits := (l.rest.takeWhile Char.isDigit).length
        match l.rest.drop digits with
        | d :: rest =>
          if digits ≤ 9 && (d == '.' || d == ')') then
            let width := digits + 1
            let next := { l with rest := rest, scanned := l.scanned + width, column := l.column + width }
            (afterMarker? next).map fun inner =>
              let (indent, last) := inner.contentIndent (indent + width + (inner.scanned - next.scanned))
              (d, indent, last)
          else none
        | [] => none
      else none

def taskBox? (l : LineStart) : Option LineStart :=
  let inner := (l.indent 3).2
  match inner.rest with
  | '[' :: state :: ']' :: c :: _ =>
    if (isSpace state || state == 'x' || state == 'X') && isSpace c then
      some inner.advance.advance.advance
    else none
  | _ => none

end LineStart

/-! Tables: a line with pipes whose number of cells agrees with the columns of a
delimiter row on the next line. -/

def pipes (cs : List Char) : Nat × List Char :=
  go 0 [] cs
where
  go (n : Nat) (last : List Char) : List Char → Nat × List Char
    | [] => (n, last)
    | '\\' :: d :: cs => if isPunctuation d then go n last cs else go n last (d :: cs)
    | c :: cs =>
      if isEol c then (n, last)
      else if c == '|' then go (n + 1) cs cs
      else go n last cs

/-- The number of cells of a line with `n` pipes. A pipe at an end of the line closes no cell. -/
def cellCount (cs : List Char) (n : Nat) (afterLast : List Char) : Nat :=
  let n := if (cs.dropWhile isSpace).head? == some '|' then n - 1 else n
  if (blankLine? afterLast).isSome then n else n + 1

/-- Reads a delimiter row: its length with the line ending, and the number of its columns. `fresh`
tells that no mark came since the last pipe. A row ends without columns at what does not belong
into it. -/
def delimiterRest (columns : Nat) (fresh : Bool) (length : Nat) : List Char → Nat × Nat
  | [] => finish length
  | c :: cs =>
    if isEol c then finish (length + (eol? (c :: cs)).getD 1)
    else if c == ' ' then delimiterRest columns fresh (length + 1) cs
    else if c == ':' || c == '-' then delimiterRest columns false (length + 1) cs
    else if c == '|' then delimiterRest (columns + 1) true (length + 1) cs
    else (length, 0)
where
  finish (length : Nat) : Nat × Nat := (length, if fresh then columns else columns + 1)

/-- The columns in the first three columns of white space, and the offset of the last of them. -/
def delimiterIndent (cs : List Char) : Nat × Nat :=
  go 0 0 0 cs
where
  go (i offset spaces : Nat) : List Char → Nat × Nat
    | [] => (offset, spaces)
    | c :: cs =>
      if c == ' ' then
        if spaces + 1 = 4 then (offset, 4) else go (i + 1) i (spaces + 1) cs
      else if c == '\t' then
        let wider := spaces + 4 - spaces % 4
        if 4 < wider then (offset, spaces) else go (i + 1) i wider cs
      else (offset, spaces)

def delimiterRow? (cs : List Char) : Option (Nat × Nat) :=
  let (i, spaces) := delimiterIndent cs
  match cs.drop i with
  | [] => none
  | c :: rest =>
    if 3 < spaces then none
    else
      let (length, columns) := if c == '|' then delimiterRest 0 true (i + 1) rest else delimiterRest 0 true i (c :: rest)
      if length = 0 then none else some (length, columns)

end ComponentDocs.Markdown
