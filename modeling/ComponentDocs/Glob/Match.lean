import ComponentDocs.Path.Basic
/-! The tokens of a glob pattern. A glob is matched against the bytes of a path, so
one character outside of ASCII counts as several units. -/
namespace ComponentDocs.Glob

inductive Token
  | literal (c : Char)
  | one
  /-- `*`: bytes but the slash, as many as there are. -/
  | run
  /-- `**/` at the front: directories, or nothing. -/
  | anyFront
  /-- `/**` at the end: a slash and whatever follows. -/
  | anyBack
  /-- `/**/` in between: a slash, or directories between two slashes. -/
  | anyBetween
  /-- `[…]`: one byte in the ranges, or one that is in none of them. -/
  | oneOf (negated : Bool) (ranges : List (Char × Char))
  | choice (branches : List (List Token))
deriving Repr

inductive Fault
  | unclosedClass
  | invalidRange (first last : Char)
  | unopenedChoice
  | unclosedChoice
  | danglingEscape
deriving DecidableEq, Repr

def Fault.message : Fault → String
  | .unclosedClass => "unclosed character class; missing ']'"
  | .invalidRange first last => s!"invalid range; '{first}' > '{last}'"
  | .unopenedChoice => "unopened alternate group; missing '\x7b' (maybe escape '\x7d' with '[\x7d]'?)"
  | .unclosedChoice => "unclosed alternate group; missing '\x7d' (maybe escape '\x7b' with '[\x7b]'?)"
  | .danglingEscape => "dangling '\\'"

structure Error where
  pattern : String
  fault : Fault
deriving DecidableEq, Repr

def Error.message (e : Error) : String :=
  "error parsing glob '" ++ e.pattern ++ "': " ++ e.fault.message

end Glob

structure Glob where
  text : String
  tokens : List Glob.Token
deriving Repr

end ComponentDocs

/-! Reading a glob pattern from left to right. -/
namespace ComponentDocs.Glob

private structure Group where
  /-- The tokens before the group, the latest first. -/
  before : List Token
  branches : List (List Token) := []

private structure Reader where
  tokens : List Token := []
  groups : List Group := []
  last : Option Char := none

namespace Reader

private def push (r : Reader) (t : Token) : Reader := { r with tokens := t :: r.tokens }

private def openGroup (r : Reader) : Reader :=
  { r with tokens := [], groups := { before := r.tokens } :: r.groups }

private def closeGroup (r : Reader) : Except Fault Reader :=
  match r.groups with
  | [] => .error .unopenedChoice
  | g :: outer =>
    let branches := (r.tokens.reverse :: g.branches).reverse
    .ok { r with tokens := .choice branches :: g.before, groups := outer }

private def comma (r : Reader) : Reader :=
  match r.groups with
  | [] => r.push (.literal ',')
  | g :: outer =>
    { r with tokens := [], groups := { g with branches := r.tokens.reverse :: g.branches } :: outer }

/-- Two stars take the place of the slash before them, and of an equal token. -/
private def pushAny (r : Reader) (atEnd : Bool) : Reader :=
  match r.tokens with
  | .anyFront :: _ | .anyBack :: _ => r
  | ts => { r with tokens := (if atEnd then .anyBack else .anyBetween) :: ts.drop 1 }

/-- Reads two stars, of which the first comes after `before`. They stand for directories only
where they fill the place between two slashes. The result is what follows them. -/
private def twoStars (r : Reader) (before : Option Char) (cs : List Char) : Reader × List Char :=
  let plain := ((r.push .run).push .run, cs)
  if r.tokens.isEmpty then
    match cs with
    | [] => (r.push .anyFront, [])
    | '/' :: cs => ({ r.push .anyFront with last := some '/' }, cs)
    | _ => plain
  else if before != some '/' &&
      (r.groups.isEmpty || (before != some ',' && before != some '{')) then plain
  else
    match cs with
    | [] => (r.pushAny true, [])
    | '/' :: cs => ({ r.pushAny false with last := some '/' }, cs)
    | c :: _ => if (c == ',' || c == '}') && !r.groups.isEmpty then (r.pushAny true, cs) else plain

end Reader

private structure ClassReader where
  ranges : List (Char × Char) := []
  /-- A hyphen was read that may join two characters. -/
  joining : Bool := false

private def ClassReader.extend (r : ClassReader) (c : Char) : Except Fault ClassReader :=
  match r.ranges with
  | [] => .ok { ranges := [(c, c)] }
  | (first, _) :: rest =>
    if c < first then .error (.invalidRange first c) else .ok { ranges := (first, c) :: rest }

/-- Reads a class up to its closing bracket. The first character of a class is always one of
its members. -/
private def readRanges (r : ClassReader) : List Char → Except Fault (List (Char × Char) × List Char)
  | [] => .error .unclosedClass
  | c :: cs =>
    let first := r.ranges.isEmpty
    if c == ']' && !first then
      let ranges := if r.joining then ('-', '-') :: r.ranges else r.ranges
      .ok (ranges.reverse, cs)
    else if c == '-' && !first && !r.joining then readRanges { r with joining := true } cs
    else if r.joining then do readRanges (← r.extend c) cs
    else readRanges { r with ranges := (c, c) :: r.ranges } cs

private def readClass (cs : List Char) : Except Fault (Token × List Char) :=
  let (negated, cs) := match cs with
    | '!' :: rest | '^' :: rest => (true, rest)
    | _ => (false, cs)
  (readRanges {} cs).map fun (ranges, rest) => (.oneOf negated ranges, rest)

private def read : Nat → Reader → List Char → Except Fault (List Token)
  | _, r, [] => if r.groups.isEmpty then .ok r.tokens.reverse else .error .unclosedChoice
  | 0, r, _ => .ok r.tokens.reverse
  | fuel + 1, r, c :: cs =>
    let before := r.last
    let r := { r with last := some c }
    match c with
    | '?' => read fuel (r.push .one) cs
    | '*' =>
      match cs with
      | '*' :: cs =>
        let (r, rest) := r.twoStars before cs
        read fuel r rest
      | _ => read fuel (r.push .run) cs
    | '[' => do
      let (t, rest) ← readClass cs
      read fuel { r.push t with last := some ']' } rest
    | '{' => read fuel r.openGroup cs
    | '}' => do read fuel (← r.closeGroup) cs
    | ',' => read fuel r.comma cs
    | '\\' =>
      match cs with
      | [] => .error .danglingEscape
      | c :: cs => read fuel { r.push (.literal c) with last := some c } cs
    | c => read fuel (r.push (.literal c)) cs

end Glob

def Glob.parse (pattern : String) : Except Glob.Error Glob :=
  match Glob.read (pattern.length + 1) {} pattern.toList with
  | .ok tokens => .ok ⟨pattern, tokens⟩
  | .error fault => .error ⟨pattern, fault⟩

end ComponentDocs

/-! Matching a glob against a path. The places in a text that a match may have
reached are kept as marks: one before each byte and one at the end. A token moves
all marks at once, so that a match takes time linear in the text for each token. -/
namespace ComponentDocs.Glob

abbrev Marks := List Bool

namespace Marks

def start (text : List UInt8) : Marks := true :: text.map fun _ => false

def union (a b : Marks) : Marks := List.zipWith or a b

/-- Moves every mark over a byte that satisfies `p`. The others are lost. -/
def step (p : UInt8 → Bool) (text : List UInt8) (marks : Marks) : Marks :=
  false :: List.zipWith (fun c m => m && p c) text marks

/-- Marks all places that are reached over bytes that satisfy `p`. -/
def spread (p : UInt8 → Bool) (text : List UInt8) (marks : Marks) : Marks :=
  go false text marks
where
  go (reached : Bool) : List UInt8 → Marks → Marks
    | [], marks => marks.map (reached || ·)
    | _ :: _, [] => []
    | c :: cs, m :: ms => (reached || m) :: go ((reached || m) && p c) cs ms

def atEnd (marks : Marks) : Bool := marks.getLast?.getD false

end Marks

def slash : UInt8 := 47

def isNotSlash (b : UInt8) : Bool := b != slash

/-- A range of characters stands for their bytes, with a range from the last byte of the first
character to the first byte of the last. -/
def inRange (range : Char × Char) (b : UInt8) : Bool :=
  let front := String.utf8EncodeChar range.1
  let back := String.utf8EncodeChar range.2
  if range.1 = range.2 then front.contains b
  else
    front.dropLast.contains b || (back.drop 1).contains b ||
      match front.getLast?, back.head? with
      | some low, some high => low ≤ b && b ≤ high
      | _, _ => false

mutual

/-- Tokens without an effect are choices that have no branch but such ones. -/
def Token.isVoid : Token → Bool
  | .choice branches => areVoid branches
  | _ => false

def isVoid : List Token → Bool
  | [] => true
  | t :: ts => t.isVoid && isVoid ts

def areVoid : List (List Token) → Bool
  | [] => true
  | ts :: branches => isVoid ts && areVoid branches

end

mutual

def Token.advance (text : List UInt8) : Token → Marks → Marks
  | .literal c, marks => (String.utf8EncodeChar c).foldl (fun m b => m.step (· == b) text) marks
  | .one, marks => marks.step isNotSlash text
  | .run, marks => marks.spread isNotSlash text
  | .anyFront, marks =>
    (marks.union (marks.step (· == slash) text)).union
      ((marks.spread (fun _ => true) text).step (· == slash) text)
  | .anyBack, marks => (marks.step (· == slash) text).spread (fun _ => true) text
  | .anyBetween, marks =>
    let entered := marks.step (· == slash) text
    entered.union ((entered.spread (fun _ => true) text).step (· == slash) text)
  | .oneOf negated ranges, marks =>
    marks.step (fun b => (ranges.any fun r => inRange r b) != negated) text
  | .choice branches, marks => (advanceAny text branches marks).getD marks

def advanceAll (text : List UInt8) : List Token → Marks → Marks
  | [], marks => marks
  | t :: ts, marks => advanceAll text ts (t.advance text marks)

def advanceAny (text : List UInt8) : List (List Token) → Marks → Option Marks
  | [], _ => none
  | ts :: branches, marks =>
    let others := advanceAny text branches marks
    if isVoid ts then others
    else
      let reached := advanceAll text ts marks
      some (match others with
        | some m => reached.union m
        | none => reached)

end

def matchesBytes (g : Glob) (text : List UInt8) : Bool :=
  match g.tokens with
  | [.anyFront] => true
  | tokens => (advanceAll text tokens (Marks.start text)).atEnd

end Glob

/-- A glob matches a path as it is written, and all of it. -/
def Glob.matchesPath (g : Glob) (p : Path) : Bool :=
  g.matchesBytes (p.chars.flatMap String.utf8EncodeChar)

end ComponentDocs
