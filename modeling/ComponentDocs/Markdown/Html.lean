import ComponentDocs.Markdown.Reference
/-! The three ways in which a line starts a block of HTML: an element or section
that runs to its own end mark, a tag from a fixed list of block elements, or any
complete tag alone on its line. All scanners start after or at the `<`. -/
namespace ComponentDocs.Markdown

def isAsciiAlpha (c : Char) : Bool := c.isAlpha

def isAsciiAlphanum (c : Char) : Bool := c.isAlphanum

def blockTags : List String :=
  ["address", "article", "aside", "base", "basefont", "blockquote", "body", "caption", "center",
   "col", "colgroup", "dd", "details", "dialog", "dir", "div", "dl", "dt", "fieldset", "figcaption",
   "figure", "footer", "form", "frame", "frameset", "h1", "h2", "h3", "h4", "h5", "h6", "head",
   "header", "hr", "html", "iframe", "legend", "li", "link", "main", "menu", "menuitem", "nav",
   "noframes", "ol", "optgroup", "option", "p", "param", "section", "source", "summary", "table",
   "tbody", "td", "tfoot", "th", "thead", "title", "tr", "track", "ul"]

/-- After `<`: an opening or closing tag of a block element, in any case. What follows the name does
not count, but it starts with a blank or ends the line or the tag. -/
def startsBlockTag (cs : List Char) : Bool :=
  let tag := cs.drop (run '/' (cs.take 1))
  let name := tag.takeWhile isAsciiAlphanum
  blockTags.contains (String.ofList (name.map Char.toLower)) &&
    match tag.drop name.length with
    | [] | '/' :: '>' :: _ => true
    | c :: _ => c == ' ' || c == '\t' || c == '>' || isEol c

/-- After `<`: the mark that ends a section which may hold anything, blank lines too. -/
def sectionEnd? (cs : List Char) : Option (List Char) :=
  match [("pre", "</pre>"), ("style", "</style>"), ("script", "</script>"),
      ("textarea", "</textarea>")].find? (fun p => opens p.1.toList) with
  | some p => some p.2.toList
  | none =>
    match [("!--", "-->"), ("?", "?>"), ("![CDATA[", "]]>")].find?
        (fun p => p.1.toList.isPrefixOf cs) with
    | some p => some p.2.toList
    | none =>
      match cs with
      | '!' :: c :: _ => if c.isUpper then some ['>'] else none
      | _ => none
where
  opens (name : List Char) : Bool :=
    (cs.take name.length).map Char.toLower == name &&
      (cs.drop name.length).head?.all (fun c => isSpaceOrEol c || c == '>')

def interruptsWithHtml (cs : List Char) : Bool := (sectionEnd? cs).isSome || startsBlockTag cs

/-- How a tag goes on on the next line: what is left of the line there. A tag of a block has to end
on its line. -/
abbrev NextLine := Option (List Char → List Char)

/-- Passes white space, and line endings where the tag may go on. -/
def gap? (nextLine : NextLine) : Nat → List Char → Option (List Char)
  | 0, cs => some cs
  | fuel + 1, cs =>
    match cs with
    | [] => some []
    | c :: rest =>
      if isEol c then nextLine.bind fun enter => gap? nextLine fuel (enter (cs.drop ((eol? cs).getD 1)))
      else if isSpace c then gap? nextLine fuel rest
      else some cs

def dropGap? (nextLine : NextLine) (cs : List Char) : Option (List Char) := gap? nextLine (cs.length + 1) cs

def afterAttributeName? : List Char → Option (List Char)
  | c :: cs =>
    if isAsciiAlpha c || c == '_' || c == ':' then
      some (cs.dropWhile fun d => isAsciiAlphanum d || d == '_' || d == '.' || d == ':' || d == '-')
    else none
  | [] => none

def afterQuoted? (nextLine : NextLine) (quote : Char) : Nat → List Char → Option (List Char)
  | 0, _ => none
  | _, [] => none
  | fuel + 1, c :: cs =>
    if c == quote then some cs
    else if isEol c then
      nextLine.bind fun enter => afterQuoted? nextLine quote fuel (enter (cs.drop ((eol? (c :: cs)).getD 1 - 1)))
    else afterQuoted? nextLine quote fuel cs

def isBareValueChar (c : Char) : Bool :=
  !(c == '\'' || c == '"' || c == ' ' || c == '=' || c == '>' || c == '<' || c == '`' || isEol c)

def afterAttributeValue? (nextLine : NextLine) : List Char → Option (List Char)
  | [] => none
  | c :: cs =>
    if c == '"' || c == '\'' then afterQuoted? nextLine c (cs.length + 1) cs
    else if isBareValueChar c then some ((c :: cs).dropWhile isBareValueChar)
    else none

def afterAttribute? (nextLine : NextLine) (cs : List Char) : Option (List Char) := do
  let named ← afterAttributeName? cs
  match ← dropGap? nextLine named with
  | '=' :: value => afterAttributeValue? nextLine (← dropGap? nextLine value)
  | _ => some named

def afterAttributes? (nextLine : NextLine) : Nat → List Char → Option (List Char)
  | 0, _ => none
  | fuel + 1, cs =>
    (dropGap? nextLine cs).bind fun next =>
      match next with
      | [] => none
      | c :: _ =>
        if c == '/' || c == '>' then some next
        else if next.length == cs.length then none
        else (afterAttribute? nextLine next).bind (afterAttributes? nextLine fuel)

def afterTag? (nextLine : NextLine) (cs : List Char) : Option (List Char) :=
  match cs with
  | '/' :: name => do
    let next ← afterName? name
    close? (next.dropWhile isSpace)
  | _ => do
    let next ← afterName? cs
    let next ← afterAttributes? nextLine (next.length + 1) next
    match next with
    | '/' :: next => close? next
    | _ => close? next
where
  afterName? : List Char → Option (List Char)
    | c :: cs => if isAsciiAlpha c then some (cs.dropWhile fun d => isAsciiAlphanum d || d == '-') else none
    | [] => none
  close? : List Char → Option (List Char)
    | '>' :: cs => some cs
    | _ => none

def isLoneTag (cs : List Char) : Bool :=
  match afterTag? none cs with
  | some rest => (blankLine? rest).isSome
  | none => false

/-! Scanners for what stands within running text: links in angle brackets, pieces of
HTML and the tails of links. A scanner that succeeds gives back the rest of the
text. `nextLine` passes the marks of containers at the front of a line. -/

/-- After `<`: the rest behind an address with a scheme of 2 to 32 characters, in angle brackets. -/
private def afterUri? (cs : List Char) : Option (List Char) :=
  let scheme := cs.takeWhile fun c => isAsciiAlphanum c || c == '.' || c == '-' || c == '+'
  if !cs.head?.any isAsciiAlpha || scheme.length < 2 || 32 < scheme.length then none
  else
    match cs.drop scheme.length with
    | ':' :: rest =>
      match rest.dropWhile fun c => c != '>' && c != '<' && 0x20 < c.toNat with
      | '>' :: rest => some rest
      | _ => none
    | _ => none

private def isMailboxChar (c : Char) : Bool :=
  isAsciiAlphanum c || ".!#$%&'*+/=?^_`\x7b|\x7d~-".toList.contains c

/-- The labels of a host, each with at most 63 characters and no hyphen at its ends. -/
private def afterHost? : Nat → List Char → Option (List Char)
  | 0, _ => none
  | fuel + 1, cs =>
    let label := cs.takeWhile fun c => isAsciiAlphanum c || c == '-'
    if label.isEmpty || 63 < label.length || label.head? == some '-' || label.getLast? == some '-' then none
    else
      match cs.drop label.length with
      | '.' :: rest => afterHost? fuel rest
      | rest => some rest

private def afterMail? (cs : List Char) : Option (List Char) :=
  let box := cs.takeWhile isMailboxChar
  match cs.drop box.length with
  | '@' :: rest =>
    if box.isEmpty then none
    else
      match afterHost? (rest.length + 1) rest with
      | some ('>' :: rest) => some rest
      | _ => none
  | _ => none

def afterAutolink? (cs : List Char) : Option (List Char) := afterUri? cs <|> afterMail? cs

private def afterMark? (mark : List Char) : List Char → Option (List Char)
  | [] => none
  | c :: cs => if mark.isPrefixOf (c :: cs) then some ((c :: cs).drop mark.length) else afterMark? mark cs

/-- The rest behind a comment whose opening hyphens are passed. Two hyphens in a row end it. -/
private def afterComment? : List Char → Option (List Char)
  | '-' :: '-' :: '>' :: cs => some cs
  | '-' :: '-' :: _ => none
  | _ :: cs => afterComment? cs
  | [] => none

/-- After `<!`: the rest behind a comment, a section of plain characters or a declaration. -/
private def afterDeclaration? : List Char → Option (List Char)
  | '-' :: cs =>
    let hyphens := run '-' cs
    let text := cs.drop hyphens
    if hyphens = 0 || text.head? == some '>' then none else afterComment? text
  | '[' :: cs =>
    if "CDATA[".toList.isPrefixOf cs then
      let brackets := (cs.drop 6).dropWhile (· != ']')
      match brackets.dropWhile (· == ']') with
      | '>' :: rest => if brackets.head? == some ']' then some rest else none
      | _ => none
    else none
  | c :: cs =>
    if c.isUpper then
      let name := cs.dropWhile Char.isUpper
      if name.head?.any isSpaceOrEol then afterMark? ['>'] name else none
    else none
  | [] => none

def afterInlineHtml? (nextLine : List Char → List Char) : List Char → Option (List Char)
  | '!' :: cs => afterDeclaration? cs
  | '?' :: cs => afterMark? ['?', '>'] cs
  | cs => afterTag? (some nextLine) cs

/-- White space with at most one line ending. -/
private def dropSeparator (nextLine : List Char → List Char) (cs : List Char) : List Char :=
  let cs := cs.dropWhile isSpace
  let cs := match eol? cs with
    | some n => nextLine (cs.drop n)
    | none => cs
  cs.dropWhile isSpace

private def linkTitleRest? (opening closing : Char) : List Char → Option (List Char)
  | [] => none
  | '\\' :: d :: cs => if isPunctuation d then linkTitleRest? opening closing cs else linkTitleRest? opening closing (d :: cs)
  | c :: cs => if c == closing then some cs else if c == opening then none else linkTitleRest? opening closing cs

private def afterTitle? : List Char → Option (List Char)
  | c :: cs =>
    if c == '\'' || c == '"' then linkTitleRest? c c cs
    else if c == '(' then linkTitleRest? '(' ')' cs
    else none
  | [] => none

/-- After the closing bracket of a link text: the rest behind a destination and a title in
parentheses. -/
def afterLinkTarget? (nextLine : List Char → List Char) : List Char → Option (List Char)
  | '(' :: cs => do
    let cs := dropSeparator nextLine cs
    let n ← destination? 6 cs
    let cs := dropSeparator nextLine (cs.drop n)
    let cs := ((afterTitle? cs).map (dropSeparator nextLine)).getD cs
    match cs with
    | ')' :: rest => some rest
    | _ => none
  | _ => none

end ComponentDocs.Markdown
