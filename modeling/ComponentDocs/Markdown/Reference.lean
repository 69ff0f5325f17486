import ComponentDocs.Markdown.Scan
/-! Link reference definitions, `[label]: destination "title"`, which may run over
several lines. Where a line ends, a function `enter` tells how many characters of
the next line mark the containers the definition lies in; it refuses a line on
which the definition cannot go on. -/
namespace ComponentDocs.Markdown

def utf8Extra (c : Char) : Nat := if c.toNat < 128 then 0 else c.utf8Size

def labelWhite (c : Char) : Bool := isSpaceOrEol c

/-- White space in a label, with at most one line ending: the characters and the weight it
has towards the limit on a label. -/
def labelGap? (enter : List Char → Option Nat) :
    Nat → (ended : Bool) → (length weight : Nat) → List Char → Option (Nat × Nat)
  | 0, _, _, _, _ => none
  | fuel + 1, ended, length, weight, cs =>
    match cs with
    | [] => some (length, weight)
    | c :: rest =>
      if !labelWhite c then some (length, weight)
      else if isEol c then
        if ended then none
        else
          let n := (eol? cs).getD 1
          let next := cs.drop n
          (enter next).bind fun k =>
            labelGap? enter fuel true (length + n + k) (weight + 2) (next.drop k)
      else labelGap? enter fuel ended (length + 1) (weight + if c == ' ' then 1 else 2) rest

/-- The length of a label whose opening bracket is passed, with the closing bracket. A label
holds something that is not white space, and at most a thousand units of white space, escapes
and characters outside of ASCII. -/
def labelRest? (enter : List Char → Option Nat) :
    Nat → (units : Nat) → (blank : Bool) → (length : Nat) → List Char → Option Nat
  | 0, _, _, _, _ => none
  | fuel + 1, units, blank, length, cs =>
    if 1000 ≤ units then none
    else
      match cs with
      | [] => none
      | c :: rest =>
        if c == '[' then none
        else if c == ']' then if blank then none else some (length + 1)
        else if c == '\\' then
          match rest with
          | [] => none
          | d :: rest => labelRest? enter fuel (units + 2 + (utf8Extra d - 1)) false (length + 2) rest
        else if labelWhite c then
          (labelGap? enter (fuel + 1) false 0 0 cs).bind fun (n, weight) =>
            labelRest? enter fuel (units + if weight ≤ 1 then 1 else n) blank (length + n) (cs.drop n)
        else labelRest? enter fuel (units + utf8Extra c) false (length + 1) rest

def label? (enter : List Char → Option Nat) (cs : List Char) : Option Nat :=
  labelRest? enter (cs.length + 1) 0 true 0 cs

def pointedRest? (length : Nat) : List Char → Option Nat
  | [] => none
  | '\\' :: d :: cs => if isPunctuation d then pointedRest? (length + 2) cs else pointedRest? (length + 1) (d :: cs)
  | c :: cs =>
    if isEol c || c == '<' then none
    else if c == '>' then some (length + 1)
    else pointedRest? (length + 1) cs

def bareRest? (most depth length : Nat) : List Char → Option Nat
  | [] => some length
  | '\\' :: d :: cs =>
    if isPunctuation d then bareRest? most depth (length + 2) cs else bareRest? most depth (length + 1) (d :: cs)
  | c :: cs =>
    if c.toNat ≤ 0x20 then some length
    else if c == '(' then if most ≤ depth then none else bareRest? most (depth + 1) (length + 1) cs
    else if c == ')' then if depth = 0 then some length else bareRest? most (depth - 1) (length + 1) cs
    else bareRest? most depth (length + 1) cs

/-- The length of a link destination, in angle brackets or bare with at most `most` levels of
parentheses. -/
def destination? (most : Nat) : List Char → Option Nat
  | '<' :: cs => pointedRest? 1 cs
  | cs => bareRest? most 0 0 cs

/-- The white space characters at the front of a title's line are told by their lowest eight bits. -/
def isTitleIndent (c : Char) : Bool := isSpace (Char.ofNat (c.toNat % 256))

def titleRest? (close : Char) : Nat → (length : Nat) → List Char → Option Nat
  | 0, _, _ => none
  | _, _, [] => none
  | fuel + 1, length, c :: cs =>
    if c == '\n' then
      let n := (cs.takeWhile isTitleIndent).length
      match cs.drop n with
      | [] => none
      | d :: ds => if d == '\n' then none else titleRest? close fuel (length + 1 + n) (d :: ds)
    else if c == '\\' then
      match cs with
      | [] => none
      | _ :: ds => titleRest? close fuel (length + 2) ds
    else if c == close then some (length + 1)
    else titleRest? close fuel (length + 1) cs

def title? : List Char → Option Nat
  | c :: cs =>
    if c == '\'' || c == '"' then titleRest? c (cs.length + 1) 1 cs
    else if c == '(' then titleRest? ')' (cs.length + 1) 1 cs
    else none
  | [] => none

/-- The white space between the parts of a definition, and the line endings in it: one at most. -/
def partGap? (enter : List Char → Option Nat) (cs : List Char) : Option (Nat × Nat) :=
  let before := spaceRun cs
  match eol? (cs.drop before) with
  | none => some (before, 0)
  | some n =>
    let next := cs.drop (before + n)
    (enter next).bind fun k =>
      let after := spaceRun (next.drop k)
      match eol? (next.drop (k + after)) with
      | none => some (before + n + k + after, 1)
      | some _ => none

/-- The length of what follows the colon of a definition. A title that does not end its line
is no part of the definition if it starts a line, and spoils the definition otherwise. -/
def definitionBody? (enter : List Char → Option Nat) (cs : List Char) : Option Nat := do
  let (lead, _) ← partGap? enter cs
  let target := cs.drop lead
  let n ← destination? 2 target
  if n = 0 then none
  else
    let bare := lead + n
    let after := target.drop n
    match partGap? enter after with
    | none => some bare
    | some (gap, ends) =>
      if gap = 0 && ends = 0 && !after.isEmpty then none
      else
        let withoutTitle := if 0 < ends || after.isEmpty then some bare else none
        match title? (after.drop gap) with
        | none => withoutTitle
        | some t =>
          match blankLine? (after.drop (gap + t)) with
          | none => withoutTitle
          | some b => some (bare + gap + t + b)

/-- The length of a link reference definition. `enterLabel` judges the line endings in its
label, `enter` the others. -/
def definition? (enterLabel enter : List Char → Option Nat) : List Char → Option Nat
  | '[' :: cs => do
    let n ← label? enterLabel cs
    match cs.drop n with
    | ':' :: body => (definitionBody? enter body).map (n + 2 + ·)
    | _ => none
  | _ => none

def footnoteLabel? (enterLabel : List Char → Option Nat) : List Char → Option Nat
  | '[' :: '^' :: cs => do
    let n ← label? enterLabel cs
    match cs.drop n with
    | ':' :: _ => some (n + 3)
    | _ => none
  | _ => none

end ComponentDocs.Markdown
