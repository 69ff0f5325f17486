import ComponentDocs.Process.Program
/-! Editing a stream line by line, with patterns that have stars and anchors: a stand-in
for the stream editor of the system, which only runs call. -/
namespace ComponentDocs.Program

namespace Edit

inductive Atom
  | any
  | char (c : Char)
  | set (isNegated : Bool) (ranges : List (Char × Char))
deriving DecidableEq, Repr

def Atom.accepts : Atom → Char → Bool
  | .any, _ => true
  | .char b, c => b = c
  | .set isNegated ranges, c => (ranges.any fun (low, high) => low ≤ c && c ≤ high) != isNegated

structure Repeated where
  atom : Atom
  /-- Any number of times, and not exactly once. -/
  star : Bool
deriving DecidableEq, Repr

structure Pattern where
  atStart : Bool
  parts : List Repeated
  atEnd : Bool
deriving DecidableEq, Repr

private def setRanges : List Char → List (Char × Char) → Option (List (Char × Char) × List Char)
  | [], _ => none
  | ']' :: rest, ranges => some (ranges.reverse, rest)
  | low :: '-' :: high :: rest, ranges =>
    if high = ']' then some ((('-', '-') :: (low, low) :: ranges).reverse, rest)
    else setRanges rest ((low, high) :: ranges)
  | b :: rest, ranges => setRanges rest ((b, b) :: ranges)

private def atom? : List Char → Option (Atom × List Char)
  | [] => none
  | '.' :: rest => some (.any, rest)
  | '\\' :: 'n' :: rest => some (.char '\n', rest)
  | '\\' :: 't' :: rest => some (.char '\t', rest)
  | '\\' :: b :: rest => some (.char b, rest)
  | '[' :: '^' :: ']' :: rest => (setRanges rest [(']', ']')]).map fun (r, rest) => (.set true r, rest)
  | '[' :: '^' :: rest => (setRanges rest []).map fun (r, rest) => (.set true r, rest)
  | '[' :: ']' :: rest => (setRanges rest [(']', ']')]).map fun (r, rest) => (.set false r, rest)
  | '[' :: rest => (setRanges rest []).map fun (r, rest) => (.set false r, rest)
  | b :: rest => some (.char b, rest)

private def readParts (isExtended : Bool) : (fuel : Nat) → List Char → Option (List Repeated × Bool)
  | 0, _ => none
  | _, [] => some ([], false)
  | _, ['$'] => some ([], true)
  | fuel + 1, cs => do
    let (a, rest) ← atom? cs
    match rest with
    | '*' :: rest =>
      let (ps, atEnd) ← readParts isExtended fuel rest
      some (⟨a, true⟩ :: ps, atEnd)
    | '+' :: rest' =>
      if isExtended then
        let (ps, atEnd) ← readParts isExtended fuel rest'
        some (⟨a, false⟩ :: ⟨a, true⟩ :: ps, atEnd)
      else
        let (ps, atEnd) ← readParts isExtended fuel rest
        some (⟨a, false⟩ :: ps, atEnd)
    | rest =>
      let (ps, atEnd) ← readParts isExtended fuel rest
      some (⟨a, false⟩ :: ps, atEnd)

def Pattern.ofText? (isExtended : Bool) (cs : List Char) : Option Pattern := do
  let (atStart, cs) := match cs with
    | '^' :: rest => (true, rest)
    | cs => (false, cs)
  let (ps, atEnd) ← readParts isExtended (cs.length + 1) cs
  some ⟨atStart, ps, atEnd⟩

/-- What is left of a text after the parts, with as much taken by each as can be. -/
def restAfter? (atEnd : Bool) : List Repeated → List Char → Option (List Char)
  | [], cs => if atEnd && !cs.isEmpty then none else some cs
  | p :: ps, cs =>
    if p.star then
      let most := (cs.takeWhile p.atom.accepts).length
      (List.range (most + 1)).reverse.findSome? fun n => restAfter? atEnd ps (cs.drop n)
    else
      match cs with
      | b :: rest => if p.atom.accepts b then restAfter? atEnd ps rest else none
      | [] => none

def Pattern.find? (p : Pattern) (atLineStart : Bool) (cs : List Char) : Option (List Char × List Char × List Char) :=
  (List.range (if p.atStart then (if atLineStart then 1 else 0) else cs.length + 1)).findSome? fun n =>
    let here := cs.drop n
    (restAfter? p.atEnd p.parts here).map fun rest =>
      (cs.take n, here.take (here.length - rest.length), rest)

inductive Address
  | all
  | line (n : Nat)
  | last
  | matching (p : Pattern)
deriving Repr

inductive Action
  | substitute (p : Pattern) (new : List Char) (everywhere : Bool)
  | delete
  | print
  | quit
deriving Repr

structure Step where
  address : Address
  action : Action
deriving Repr

/-- The text for a match: `&` stands for the match. -/
private def substitute (found : List Char) : List Char → List Char
  | [] => []
  | '\\' :: 'n' :: rest => '\n' :: substitute found rest
  | '\\' :: b :: rest => b :: substitute found rest
  | '&' :: rest => found ++ substitute found rest
  | b :: rest => b :: substitute found rest

/-- Replaces the first match, or all of them. An empty match right after another one is left out. -/
private def replace (p : Pattern) (new : List Char) (everywhere : Bool) :
    (fuel : Nat) → (atLineStart afterMatch : Bool) → List Char → List Char
  | 0, _, _, cs => cs
  | fuel + 1, atLineStart, afterMatch, cs =>
    match p.find? atLineStart cs with
    | none => cs
    | some (front, found, rest) =>
      let out := if afterMatch && front.isEmpty && found.isEmpty then [] else front ++ substitute found new
      if !everywhere then out ++ rest
      else if !found.isEmpty then
        out ++ replace p new everywhere fuel false true rest
      else
        match rest with
        | [] => out
        | b :: rest => out ++ b :: replace p new everywhere fuel false false rest

private def upTo (delimiter : Char) : List Char → Option (List Char × List Char)
  | [] => none
  | '\\' :: b :: rest => (upTo delimiter rest).map fun (t, r) => (if b = delimiter then b :: t else '\\' :: b :: t, r)
  | b :: rest => if b = delimiter then some ([], rest) else (upTo delimiter rest).map fun (t, r) => (b :: t, r)

private def address (isExtended : Bool) (cs : List Char) : Option (Address × List Char) :=
  match cs with
  | '$' :: rest => some (.last, rest)
  | '/' :: rest => do
    let (p, rest) ← upTo '/' rest
    some (.matching (← Pattern.ofText? isExtended p), rest)
  | cs =>
    let digits := cs.takeWhile Char.isDigit
    if digits.isEmpty then some (.all, cs)
    else some (.line (digits.foldl (fun n d => 10 * n + (d.toNat - '0'.toNat)) 0), cs.dropWhile Char.isDigit)

private def steps (isExtended : Bool) : (fuel : Nat) → List Char → Option (List Step)
  | 0, _ => none
  | fuel + 1, cs =>
    match cs.dropWhile fun b => b = ' ' || b = ';' || b = '\n' with
    | [] => some []
    | cs => do
      let (a, rest) ← address isExtended cs
      let (action, rest) ← match rest.dropWhile (· = ' ') with
        | 's' :: delimiter :: rest => do
          let (p, rest) ← upTo delimiter rest
          let (new, rest) ← upTo delimiter rest
          let p ← Pattern.ofText? isExtended p
          some (.substitute p new (rest.head? = some 'g'), rest.dropWhile (· = 'g'))
        | 'd' :: rest => some (.delete, rest)
        | 'p' :: rest => some (.print, rest)
        | 'q' :: rest => some (.quit, rest)
        | _ => none
      some (⟨a, action⟩ :: (← steps isExtended fuel rest))

/-- What the steps make of a line: the lines printed on the way, the line if it is kept, and
whether more lines are read. -/
private def editLine (number : Nat) (isLast : Bool) : List Step → List Char → List (List Char) × Option (List Char) × Bool
  | [], l => ([], some l, true)
  | s :: rest, l =>
    let applies := match s.address with
      | .all => true
      | .line n => n = number
      | .last => isLast
      | .matching p => (p.find? true l).isSome
    if !applies then editLine number isLast rest l
    else
      match s.action with
      | .substitute p new everywhere =>
        editLine number isLast rest (replace p new everywhere (l.length + 2) true false l)
      | .delete => ([], none, true)
      | .print =>
        let (printed, kept, goesOn) := editLine number isLast rest l
        (l :: printed, kept, goesOn)
      | .quit => ([], some l, false)

private def editLines (program : List Step) (quiet : Bool) : Nat → List (List Char) → List (List Char)
  | _, [] => []
  | number, l :: ls =>
    let (printed, kept, goesOn) := editLine number ls.isEmpty program l
    printed ++ (if quiet then [] else kept.toList) ++ (if goesOn then editLines program quiet (number + 1) ls else [])

private def arguments : List String → List String × List String × List Char
  | [] => ([], [], [])
  | "-e" :: script :: rest =>
    let (scripts, names, options) := arguments rest
    (script :: scripts, names, options)
  | a :: rest =>
    let (scripts, names, options) := arguments rest
    match a.toList with
    | '-' :: c :: cs => (scripts, names, c :: cs ++ options)
    | _ => (scripts, a :: names, options)

end Edit

structure Reading where
  read : Bytes → List Char
  write : List Char → Bytes

/-- Bytes are read as the text they are, or else as the characters with their numbers. -/
def reading (input : Bytes) : Reading :=
  if (Text.decode? input).isSome then
    ⟨fun bytes => (Text.decodeLossy bytes).toList, fun cs => Text.encode (String.ofList cs)⟩
  else ⟨byteChars, charBytes⟩

def sed : Program := fun s args input =>
  let (scripts, names, options) := Edit.arguments args
  let (script, names) := match scripts, names with
    | [], script :: names => (some script, names)
    | [], [] => (none, [])
    | scripts, names => (some ("\n".intercalate scripts), names)
  let steps? (r : Reading) : Option (List Edit.Step) :=
    script.bind fun script =>
      let cs := r.read (Text.encode script)
      Edit.steps (options.contains 'E' || options.contains 'r') (cs.length + 1) cs
  let edit (bytes : Bytes) : Bytes :=
    let r := reading bytes
    let lines (ls : List Bytes) : List Bytes :=
      (Edit.editLines ((steps? r).getD []) (options.contains 'n') 1 (ls.map r.read)).map r.write
    mapLines lines bytes
  if (steps? (reading input)).isNone then fails "sed" "no script that can be read" input
  else ofFilter "sed" edit s names input

end ComponentDocs.Program
