import ComponentDocs.Text.Basic
import ComponentDocs.Markdown.Outline
/-! Bullets, which are spelled with a hyphen, and the lines that look like them. -/
namespace ComponentDocs.Layout
open Text

def isGap (c : Char) : Bool := c == ' ' || c == '\t'

/-- At least three equal marks and nothing else but blanks. -/
def isThematicBreak (line : Line) : Bool :=
  let marks := line.filter (fun c => !isBlankChar c)
  3 ≤ marks.length &&
    match marks with
    | mark :: rest => (mark == '*' || mark == '-' || mark == '_') && rest.all (· == mark)
    | [] => false

/-- A line whose first mark is a star or a plus with a gap and some text after it: what comes
before the mark and what comes after it. -/
def splitBullet? (line : Line) : Option (Line × Line) :=
  match line.dropWhile isBlankChar with
  | mark :: rest =>
    if (mark == '*' || mark == '+') && rest.head?.any isGap &&
        (rest.dropWhile isGap).head?.any (fun c => !isBlankChar c) then
      some (line.takeWhile isBlankChar, rest)
    else none
  | [] => none

def spellBullet (line : Line) : Line :=
  if isThematicBreak line then line
  else
    match splitBullet? line with
    | some (before, after) => before ++ '-' :: after
    | none => line

/-- A line that starts a list item or a block quote, indented by at most three spaces. -/
def startsBlock (line : Line) : Bool :=
  let indent := (line.takeWhile (· == ' ')).length
  let text := line.drop indent
  indent ≤ 3 &&
    match text with
    | [] => false
    | c :: rest =>
      c == '>' ||
      ((c == '-' || c == '*' || c == '+') && rest.head?.any isGap) ||
      (let digits := text.takeWhile isDecimalDigit
       1 ≤ digits.length && digits.length ≤ 9 &&
         match text.drop digits.length with
         | d :: gap :: _ => (d == '.' || d == ')') && isGap gap
         | _ => false)

/-! Headings that start with number signs, and their one canonical spelling: the
signs, a space and the title without closing signs. -/

/-- A title without the blanks around it and without a closing run of number signs. A run closes
the heading if it is the whole title or follows a blank. -/
def headingTitle (text : List Char) : List Char :=
  let title := trim text
  let open' := (title.reverse.dropWhile (· == '#')).reverse
  if open'.length < title.length && open'.getLast?.all isBlankChar then trimEnd open' else title

def spellHeading (level : Nat) (title : List Char) : Line :=
  List.replicate level '#' ++ if title.isEmpty then [] else ' ' :: title

def heading? (line : Line) : Option Line :=
  let level := (line.takeWhile (· == '#')).length
  let text := line.drop level
  if 1 ≤ level && level ≤ 6 && text.head?.all isBlankChar then
    some (spellHeading level (headingTitle text))
  else none

/-! The lines that formatting leaves alone: those of code blocks, and those of HTML
that is not part of a running text. -/

open Markdown

/-- The ranges of code blocks, and of HTML outside of running text. `depth` counts the open
tags that hold running text. -/
def protectedSpans (depth : Nat) : List Event → List Span
  | [] => []
  | .code s :: es => s :: protectedSpans depth es
  | .html s :: es => if depth = 0 then s :: protectedSpans depth es else protectedSpans depth es
  | .opened t :: es => protectedSpans (if t.holdsText then depth + 1 else depth) es
  | .closed t :: es => protectedSpans (if t.holdsText then depth - 1 else depth) es
  | .text _ :: es => protectedSpans depth es

/-- For each place in a text, the end included, `n` and the number of line feeds before it. -/
def lineNumbers (n : Nat) : List Char → List Nat
  | [] => [n]
  | c :: cs => n :: lineNumbers (if c == '\n' then n + 1 else n) cs

/-- The first and the last of `count` lines that a range touches, by the numbers of the lines at
each place. -/
def touchedLines (numbers : Array Nat) (s : Span) : Option (Nat × Nat) :=
  let number (i : Nat) := (numbers[i]?.or numbers.back?).getD 0
  if s.isEmpty then none else some (number s.start, number (s.stop - 1))

def protectedLines (document : List Char) (count : Nat) (events : List Event) : List Bool :=
  let numbers := (lineNumbers 0 document).toArray
  let touched := (protectedSpans 0 events).filterMap (touchedLines numbers)
  (List.range count).map fun k => touched.any fun (first, last) => first ≤ k && k ≤ last

/-! The canonical layout of a markdown text. Outside of protected lines, blanks at
line ends go, except for two-space hard breaks, blank lines come one at a time and
neither first nor last, headings have one spelling and blank lines around them, and
bullets are hyphens. -/

abbrev MarkedLine := Line × Bool

/-- The lines laid out so far, from the latest, and whether a blank line is due before the next
text. -/
structure Sheet where
  lines : List Line := []
  due : Bool := false

namespace Sheet

/-- Separates what follows by a blank line, unless it comes first or after a blank line. -/
def separate (s : Sheet) : Sheet :=
  match s.lines with
  | [] => s
  | last :: _ => if isBlank last then s else { s with lines := [] :: s.lines }

def add (s : Sheet) (line : Line) : Sheet := { s with lines := line :: s.lines }

def settle (s : Sheet) : Sheet := if s.due then { s.separate with due := false } else s

end Sheet

/-- A hard break counts if the paragraph goes on: the next line is text of no other block. -/
def keepsHardBreak : Option MarkedLine → Bool
  | none => false
  | some (next, isProtected) =>
    !isBlank next && !isProtected && (heading? next).isNone && !startsBlock next

/-- Drops the blanks at the end of a line, or cuts them to the two spaces of a hard break. -/
def trimLine (keep : Bool) (line : Line) : Line :=
  if keep && [' ', ' '].isPrefixOf (blankTail line) && line.getLast? != some '\t' then
    trimEnd line ++ [' ', ' ']
  else trimEnd line

def place (s : Sheet) (line : MarkedLine) (next : Option MarkedLine) : Sheet :=
  if line.2 then (if isBlank line.1 then s else s.settle).add line.1
  else if isBlank line.1 then s.separate
  else
    match heading? line.1 with
    | some heading => { s.separate.add heading with due := true }
    | none => s.settle.add (spellBullet (trimLine (keepsHardBreak next) line.1))

def placeAll (s : Sheet) : List MarkedLine → Sheet
  | [] => s
  | line :: rest => placeAll (place s line rest.head?) rest

/-- The canonical layout of lines: no blank lines at the end, and a line feed after every line. -/
def layOut (lines : List MarkedLine) : List Char :=
  let kept := (placeAll {} lines).lines.dropWhile isBlank
  if kept.isEmpty then [] else joinLines kept.reverse ++ ['\n']

def markLines (text : List Char) : List MarkedLine :=
  let ls := lines text
  ls.zip (protectedLines text ls.length (Markdown.events text))

def canonical (text : List Char) : List Char := layOut (markLines (unixNewlines text))

def canonicalize (text : String) : String := String.ofList (canonical text.toList)

end ComponentDocs.Layout
