import ComponentDocs.Template.Tag
import ComponentDocs.Text.Basic
/-! Dividing the source of a template into texts and tags. -/
namespace ComponentDocs.Template

inductive Mark
  | shown (e : Element)
  | block (c : Call)
  | rawBlock (c : Call)
  | decoratorBlock (c : Call)
  | insertBlock (name : IncludeName) (a : Arguments)
  | close (name : String)
  | closeRaw (name : String)
  | otherwise
  /-- The other case, if it is one of a helper again. -/
  | otherwiseBlock (c : Call)
  | decorator (c : Call)
  | insert (name : IncludeName) (a : Arguments)
  | comment
deriving Inhabited

structure TagToken where
  mark : Mark
  dropsBefore : Bool
  dropsAfter : Bool
  place : Position
  opensLine : Bool
  closesLine : Bool
  blanksBefore : String
deriving Inhabited

inductive Token
  /-- A text without its escapes. `isWhite` tells that it is white space only. -/
  | text (chars : List Char) (isWhite : Bool)
  | rawText (chars : List Char)
  | tag (t : TagToken)

namespace Token
open Tag

def isBlank (c : Char) : Bool := c == ' ' || c == '\t'

def isNewline (c : Char) : Bool := c == '\n' || c == '\r'

private def startsTag (cs : List Char) : Bool := "\x7b\x7b".toList.isPrefixOf cs

private def startsRaw (cs : List Char) : Bool := "\x7b\x7b\x7b\x7b".toList.isPrefixOf cs

/-- The text up to the next tag, without escapes, and the rest. A backslash before two braces
makes a text of them. More backslashes stand for themselves, but for one of them. -/
private def textRun (stops : List Char → Bool) : Nat → List Char → List Char × List Char
  | 0, cs => ([], cs)
  | _, [] => ([], [])
  | fuel + 1, c :: cs =>
    if stops (c :: cs) then ([], c :: cs)
    else if c == '\\' then
      if startsTag cs then
        let n := if startsTag (cs.drop 2) then 4 else 2
        let (more, rest) := textRun stops fuel (cs.drop n)
        (cs.take n ++ more, rest)
      else
        let n := (cs.takeWhile (· == '\\')).length
        if 0 < n && startsTag (cs.drop n) then
          let (more, rest) := textRun stops fuel (cs.drop n)
          (cs.take n ++ more, rest)
        else
          let (more, rest) := textRun stops fuel cs
          (c :: more, rest)
    else
      let (more, rest) := textRun stops fuel cs
      (c :: more, rest)

private structure Read where
  mark : Mark
  dropsBefore : Bool := false
  dropsAfter : Bool := false

private def tilde (cs : List Char) : Bool × List Char :=
  match skipWhite cs with
  | '~' :: rest => (true, skipWhite rest)
  | rest => (false, rest)

private def tag? {α : Type} (opening sign closing : String) (content : Scanner α) (mark : α → Mark) :
    Scanner Read := fun cs => do
  let (dropsBefore, rest) := tilde (← after? opening cs)
  let (a, rest) ← content (skipWhite (← after? sign rest))
  let (dropsAfter, rest) := tilde rest
  some (⟨mark a, dropsBefore, dropsAfter⟩, ← after? closing rest)

private def nothing : Scanner Unit := fun cs => some ((), cs)

private def open2 : String := "\x7b\x7b"

private def close2 : String := "\x7d\x7d"

private def open3 : String := "\x7b\x7b\x7b"

private def close3 : String := "\x7d\x7d\x7d"

private def open4 : String := "\x7b\x7b\x7b\x7b"

private def close4 : String := "\x7d\x7d\x7d\x7d"

private def otherwiseSigns : List String := ["else", "^"]

private def otherwise? : Scanner Read := fun cs =>
  otherwiseSigns.findSome? fun sign => tag? open2 sign close2 nothing (fun _ => .otherwise) cs

private def otherwiseBlock? : Scanner Read := fun cs =>
  otherwiseSigns.findSome? fun sign => tag? open2 sign close2 call? .otherwiseBlock cs

/-- A value in three braces, of which the inner ones may stand apart. -/
private def triple? : Scanner Read := fun cs =>
  tag? open3 "" close3 shown? .shown cs <|>
  tag? open2 "\x7b" close2 inner .shown cs
where
  inner : Scanner Element := fun cs => do
    let (e, rest) ← shown? cs
    some (e, ← after? "\x7d" (skipWhite rest))

private def skipTo? (stop : String) : List Char → Option (List Char)
  | [] => none
  | c :: cs =>
    match after? stop (c :: cs) with
    | some rest => some rest
    | none => skipTo? stop cs

private def comment? : Scanner Read := fun cs => do
  let rest ← after? "\x7b\x7b!" cs
  let long := (after? "--" (skipWhite rest)).bind (skipTo? "--\x7d\x7d")
  some (⟨.comment, false, false⟩, ← long <|> skipTo? close2 rest)

private def closing? : Scanner Read := fun cs =>
  tag? open2 "/" close2 identifier? .close cs <|> tag? open2 "/" close2 plainName? .close cs

private def anyTag? : Scanner Read := fun cs =>
  otherwise? cs <|> otherwiseBlock? cs <|>
  tag? open2 "" close2 shown? .shown cs <|> triple? cs <|> tag? open2 "&" close2 value? .shown cs <|>
  tag? open2 "#" close2 call? .block cs <|> tag? open4 "" close4 call? .rawBlock cs <|> comment? cs <|>
  tag? open2 "*" close2 call? .decorator cs <|> tag? open2 "#" close2 starred .decoratorBlock cs <|>
  tag? open2 ">" close2 include? (fun x => .insert x.1 x.2) cs <|>
  tag? open2 "#" close2 arrowed (fun x => .insertBlock x.1 x.2) cs <|> closing? cs
where
  starred : Scanner Call := fun cs => do call? (skipWhite (← after? "*" cs))
  arrowed : Scanner (IncludeName × Arguments) := fun cs => do include? (skipWhite (← after? ">" cs))

private def closeRaw? : Scanner Read := tag? open4 "/" close4 identifier? .closeRaw

private def positionAfter (front : List Char) : Position where
  line := front.count '\n' + 1
  column := (front.reverse.takeWhile (· != '\n')).length + 1

/-- A tag between the text `front` and the text `rest`. A line that the template ends in is not closed. -/
private def tagToken (front : List Char) (r : Read) (rest : List Char) : TagToken :=
  let blanks := front.reverse.takeWhile isBlank
  { mark := r.mark
    dropsBefore := r.dropsBefore
    dropsAfter := r.dropsAfter
    place := positionAfter front
    opensLine := (front.reverse.drop blanks.length).head?.all isNewline
    closesLine := (rest.dropWhile isBlank).head?.any isNewline
    blanksBefore := String.ofList blanks.reverse }

private def tokens? (source : List Char) : Nat → List Char → Option (List Token)
  | _, [] => some []
  | 0, _ => none
  | fuel + 1, cs =>
    let front (cs : List Char) : List Char := source.take (source.length - cs.length)
    if !startsTag cs then
      let (chars, rest) := textRun startsTag (cs.length + 1) cs
      let isWhite := (cs.take (cs.length - rest.length)).all Tag.isWhite
      (tokens? source fuel rest).map (.text chars isWhite :: ·)
    else do
      let (r, rest) ← anyTag? cs
      let t := Token.tag (tagToken (front cs) r rest)
      match r.mark with
      | .rawBlock _ =>
        let body := skipWhite rest
        let (chars, stop) := textRun startsRaw (body.length + 1) body
        let (close, rest) ← closeRaw? stop
        let more ← tokens? source fuel rest
        some (t :: .rawText chars :: .tag (tagToken (front stop) close rest) :: more)
      | _ => (tokens? source fuel rest).map (t :: ·)

def scan? (source : String) : Option (List Token) :=
  tokens? source.toList (source.length + 1) source.toList

end Token

/-! Reading a template. A tag that stands alone on its line takes the line with it,
unless it only shows a value. -/

inductive ParseError
  | malformed
  | mismatch (isHelper : Bool) (opened closing : String) (line : Nat)
deriving DecidableEq, Repr

def ParseError.message : ParseError → String
  | .malformed => "malformed template"
  | .mismatch isHelper opened closing _ =>
    (if isHelper then "helper " else "decorator ") ++ Text.quoted opened ++ " was opened, but " ++
      Text.quoted closing ++ " is closing"

private inductive Opening
  | helper
  | raw
  | decorator
  | insert (name : IncludeName)

/-- Elements with their places, the latest first. -/
private abbrev Elements := List (Option Position × Element)

private structure OpenBlock where
  opening : Opening
  call : Call
  place : Position
  before : Elements
  /-- The cases that are complete, the latest first. -/
  cases : List (Call × Body) := []
  inLast : Bool := false

private structure Builder where
  elements : Elements := []
  blocks : List OpenBlock := []
  dropsWhite : Bool := false
  /-- The rest of the line is to be dropped from the front of the next text. -/
  dropsLine : Bool := false
  /-- The first block that was closed by another name. -/
  mismatch : Option ParseError := none

namespace Builder

private def body (b : Builder) : Body := .ofList b.elements.reverse

private def add (b : Builder) (place : Option Position) (e : Element) : Builder :=
  { b with elements := (place, e) :: b.elements }

private def mapLastText (b : Builder) (f : List Char → List Char) : Builder :=
  match b.elements with
  | (p, .text s) :: rest => { b with elements := (p, .text (String.ofList (f s.toList))) :: rest }
  | _ => b

private def trimBlanksEnd (cs : List Char) : List Char := (cs.reverse.dropWhile Token.isBlank).reverse

private def dropRestOfLine (cs : List Char) : List Char :=
  match cs.dropWhile Token.isBlank with
  | '\r' :: '\n' :: rest | '\n' :: rest => rest
  | rest => rest

private def text (b : Builder) (chars : List Char) (isWhite : Bool) : Builder :=
  if isWhite && b.dropsWhite then b
  else
    let chars := if b.dropsWhite then Text.trimStart chars else if b.dropsLine then dropRestOfLine chars else chars
    { b.add none (.text (String.ofList chars)) with dropsLine := false }

private def rawText (b : Builder) (chars : List Char) : Builder :=
  let chars := if b.dropsWhite then Text.trimStart chars else if b.dropsLine then dropRestOfLine chars else chars
  b.add none (.text (String.ofList chars))

private def dropWhite (b : Builder) (t : TagToken) : Builder :=
  { (if t.dropsBefore then b.mapLastText Text.trimEnd else b) with dropsWhite := t.dropsAfter }

/-- Takes the line of a tag away if the tag stands alone on it. -/
private def dropLine (b : Builder) (t : TagToken) (keepsIndent : Bool) : Builder :=
  let alone := t.closesLine && t.opensLine
  { (if alone && !keepsIndent then b.mapLastText trimBlanksEnd else b) with dropsLine := alone }

private def openBlock (b : Builder) (t : TagToken) (opening : Opening) (call : Call) : Builder :=
  { b with
    elements := []
    blocks := { opening, call, place := t.place, before := b.elements } :: b.blocks }

private def nextCase (b : Builder) (next : Option Call) : Option Builder :=
  match b.blocks with
  | [] => none
  | o :: outer =>
    match o.opening with
    | .helper =>
      if o.inLast then none
      else
        let cases := (o.call, b.body) :: o.cases
        some { b with
          elements := []
          blocks := { o with cases, call := next.getD o.call, inLast := next.isNone } :: outer }
    | _ => none

/-- The block for a list of cases, the latest first. Each case is the other case of the one
before it. -/
private def chain (inverse : Option Body) : List (Call × Body) → Element
  | [] => .comment
  | [(c, body)] => .block c body inverse
  | (c, body) :: earlier => chain (some (.cons none (.block c body inverse) .nil)) earlier

private def blockElement (o : OpenBlock) (body : Body) : Element :=
  match o.opening with
  | .helper | .raw =>
    if o.inLast then chain (some body) o.cases else chain none ((o.call, body) :: o.cases)
  | .decorator => .decorator o.call (some body)
  | .insert name => .insert name o.call.arguments none (some body)

private def close (b : Builder) (t : TagToken) (name : String) (isRaw : Bool) : Option Builder :=
  match b.blocks with
  | [] => none
  | o :: outer =>
    let fits := match o.opening with
      | .raw => isRaw
      | .helper | .decorator => !isRaw && name.toList.all Tag.isNameChar
      | .insert _ => !isRaw && Tag.isPlainName name
    if !fits then none
    else
      let (opened, isHelper) := match o.opening with
        | .helper | .raw => (helperOf o, true)
        | .decorator | .insert _ => (o.call.helper, false)
      let mismatch :=
        if opened == name then none else some (.mismatch isHelper opened name t.place.line)
      some { b with
        elements := (some o.place, blockElement o b.body) :: o.before
        blocks := outer
        mismatch := b.mismatch <|> mismatch }
where
  helperOf (o : OpenBlock) : String := ((o.cases.getLast?.map (·.1)).getD o.call).helper

private def nameOf : IncludeName → String
  | .literal name => name
  | .computed _ => ""

private def tag (b : Builder) (t : TagToken) : Option Builder :=
  let dropped := b.dropWhite t
  let alone := dropped.dropLine t false
  match t.mark with
  | .shown e => some (dropped.add (some t.place) e)
  | .block c => some (alone.openBlock t .helper c)
  | .rawBlock c => some (alone.openBlock t .raw c)
  | .decoratorBlock c => some (alone.openBlock t .decorator c)
  | .insertBlock name a => some (alone.openBlock t (.insert name) ⟨nameOf name, a, []⟩)
  | .otherwise => alone.nextCase none
  | .otherwiseBlock c => alone.nextCase (some c)
  | .close name => alone.close t name false
  | .closeRaw name => alone.close t name true
  | .decorator c => some (alone.add (some t.place) (.decorator c none))
  | .insert name a =>
    let indent := if t.blanksBefore.isEmpty || t.dropsBefore then none else some t.blanksBefore
    some ((dropped.dropLine t true).add (some t.place) (.insert name a indent none))
  | .comment => some ((b.dropLine t false).add (some t.place) .comment)

private def token (b : Builder) : Token → Option Builder
  | .text chars isWhite => some (b.text chars isWhite)
  | .rawText chars => some (b.rawText chars)
  | .tag t => b.tag t

end Builder

def parse (source : String) : Except ParseError Body :=
  match (Token.scan? source).bind fun ts => ts.foldlM Builder.token {} with
  | none => .error .malformed
  | some b =>
    if !b.blocks.isEmpty then .error .malformed
    else
      match b.mismatch with
      | some e => .error e
      | none => .ok b.body

end ComponentDocs.Template
