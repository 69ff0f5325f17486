import ComponentDocs.Toml.Value
/-! Scanners for the lexemes of TOML. A scanner takes what it stands for from the
front of a text, and gives back the rest. -/
namespace ComponentDocs.Toml

def isBlank (c : Char) : Bool := c == ' ' || c == '\t'

def skipBlank (cs : List Char) : List Char := cs.dropWhile isBlank

/-- A character that may stand in a text: no control character but the tab. -/
def isPlain (c : Char) : Bool := c == '\t' || (0x20 ≤ c.toNat && c.toNat != 0x7f)

def newline? : List Char → Option (List Char)
  | '\n' :: cs | '\r' :: '\n' :: cs => some cs
  | _ => none

def lineEnd? : List Char → Option (List Char)
  | [] => some []
  | cs => newline? cs

def skipComment : List Char → List Char
  | '#' :: cs => cs.dropWhile isPlain
  | cs => cs

def trailing? (cs : List Char) : Option (List Char) := lineEnd? (skipComment (skipBlank cs))

/-- Skips blanks, line endings and comments. A comment has to end with its line. -/
def skipLines? (inComment : Bool) : List Char → Option (List Char)
  | [] => if inComment then none else some []
  | '\n' :: cs | '\r' :: '\n' :: cs => skipLines? false cs
  | c :: cs =>
    if inComment then if isPlain c then skipLines? true cs else none
    else if isBlank c then skipLines? false cs
    else if c == '#' then skipLines? true cs
    else some (c :: cs)

def hexValue? (c : Char) : Option Nat :=
  if c.isDigit then some (c.toNat - '0'.toNat)
  else if 'a' ≤ c && c ≤ 'f' then some (c.toNat - 'a'.toNat + 10)
  else if 'A' ≤ c && c ≤ 'F' then some (c.toNat - 'A'.toNat + 10)
  else none

private def scalar? (hex : List Char) : Option Char :=
  (hex.foldl (fun n c => do some (16 * (← n) + (← hexValue? c))) (some 0)).bind fun n =>
    if n.isValidChar then some (Char.ofNat n) else none

def escape? : List Char → Option (Char × List Char)
  | 'b' :: cs => some ('\x08', cs)
  | 't' :: cs => some ('\t', cs)
  | 'n' :: cs => some ('\n', cs)
  | 'f' :: cs => some ('\x0c', cs)
  | 'r' :: cs => some ('\r', cs)
  | '"' :: cs => some ('"', cs)
  | '\\' :: cs => some ('\\', cs)
  | 'u' :: cs => long 4 cs
  | 'U' :: cs => long 8 cs
  | _ => none
where
  long (n : Nat) (cs : List Char) : Option (Char × List Char) :=
    if cs.length < n then none else (scalar? (cs.take n)).map fun c => (c, cs.drop n)

/-- After a backslash: the end of a line, with all white space at the front of what follows. -/
private def lineJoin? (cs : List Char) : Option (List Char) :=
  (newline? (skipBlank cs)).map blank
where
  blank : List Char → List Char
    | '\n' :: cs | '\r' :: '\n' :: cs => blank cs
    | c :: cs => if isBlank c then blank cs else c :: cs
    | [] => []

private def quotes (quote : Char) (cs : List Char) : Nat := (cs.takeWhile (· == quote)).length

/-- The rest of a text on one line, up to its closing quote. `taken` holds its characters so far,
the latest first. -/
private def singleRest? (quote : Char) : Nat → (taken : List Char) → List Char → Option (List Char × List Char)
  | 0, _, _ => none
  | _, _, [] => none
  | fuel + 1, taken, c :: cs =>
    if c == quote then some (taken.reverse, cs)
    else if c == '\\' && quote == '"' then do
      let (d, rest) ← escape? cs
      singleRest? quote fuel (d :: taken) rest
    else if isPlain c then singleRest? quote fuel (c :: taken) cs
    else none

/-- The rest of a text of several lines. It ends at three quotes, but up to two more belong to it. -/
private def longRest? (quote : Char) : Nat → (taken : List Char) → List Char → Option (List Char × List Char)
  | 0, _, _ => none
  | _, _, [] => none
  | fuel + 1, taken, c :: cs =>
    if c == quote then
      let n := min 5 (quotes quote (c :: cs))
      if 3 ≤ n then some ((List.replicate (n - 3) quote ++ taken).reverse, cs.drop (n - 1))
      else longRest? quote fuel (c :: taken) cs
    else if c == '\\' && quote == '"' then
      match lineJoin? cs with
      | some rest => longRest? quote fuel taken rest
      | none => do
        let (d, rest) ← escape? cs
        longRest? quote fuel (d :: taken) rest
    else
      match newline? (c :: cs) with
      | some rest => longRest? quote fuel ('\n' :: taken) rest
      | none => if isPlain c then longRest? quote fuel (c :: taken) cs else none

def singleLine? : List Char → Option (String × List Char)
  | q :: cs =>
    if q == '"' || q == '\'' then
      (singleRest? q (cs.length + 1) [] cs).map fun (t, rest) => (String.ofList t, rest)
    else none
  | [] => none

def text? (cs : List Char) : Option (String × List Char) :=
  match cs with
  | q :: _ =>
    if (q == '"' || q == '\'') && 3 ≤ quotes q cs then
      let body := cs.drop 3
      let body := (newline? body).getD body
      (longRest? q (body.length + 1) [] body).map fun (t, rest) => (String.ofList t, rest)
    else singleLine? cs
  | [] => none

def isBareKeyChar (c : Char) : Bool := c.isAlphanum || c == '-' || c == '_'

private def simpleKey? (cs : List Char) : Option (String × List Char) :=
  match cs with
  | '"' :: _ | '\'' :: _ => singleLine? cs
  | _ =>
    let name := cs.takeWhile isBareKeyChar
    if name.isEmpty then none else some (String.ofList name, cs.drop name.length)

private def keyParts? : Nat → List Char → Option (List String × List Char)
  | 0, _ => none
  | fuel + 1, cs => do
    let (k, rest) ← simpleKey? (skipBlank cs)
    match skipBlank rest with
    | '.' :: rest => do
      let (ks, rest) ← keyParts? fuel rest
      some (k :: ks, rest)
    | rest => some ([k], rest)

def maxDepth : Nat := 79

def key? (cs : List Char) : Option (List String × List Char) := keyParts? maxDepth cs

/-! Numbers, dates and times. -/

private def digitsRest? (isDigit : Char → Bool) (taken : List Char) : List Char → Option (List Char × List Char)
  | '_' :: d :: cs => if isDigit d then digitsRest? isDigit (d :: taken) cs else none
  | '_' :: [] => none
  | c :: cs => if isDigit c then digitsRest? isDigit (c :: taken) cs else some (taken.reverse, c :: cs)
  | [] => some (taken.reverse, [])

private def digits? (isDigit : Char → Bool) : List Char → Option (List Char × List Char)
  | c :: cs => if isDigit c then digitsRest? isDigit [c] cs else none
  | [] => none

private def natOf (base : Nat) (ds : List Char) : Nat :=
  ds.foldl (fun n d => base * n + (hexValue? d).getD 0) 0

private def sign? : List Char → Option Bool × List Char
  | '+' :: cs => (some false, cs)
  | '-' :: cs => (some true, cs)
  | cs => (none, cs)

private def wholePart? : List Char → Option (List Char × List Char)
  | '0' :: cs => some (['0'], cs)
  | cs => digits? Char.isDigit cs

private def asInteger? (n : Int) : Option Value :=
  if -Int.pow 2 63 ≤ n && n < Int.pow 2 63 then some (.integer n) else none

private def integer? (cs : List Char) : Option (Value × List Char) :=
  match cs with
  | '0' :: 'x' :: cs => based 16 (fun c => (hexValue? c).isSome) cs
  | '0' :: 'o' :: cs => based 8 (fun c => '0' ≤ c && c ≤ '7') cs
  | '0' :: 'b' :: cs => based 2 (fun c => c == '0' || c == '1') cs
  | cs => do
    let (sign, cs) := sign? cs
    let (ds, rest) ← wholePart? cs
    let n : Int := natOf 10 ds
    some (← asInteger? (if sign = some true then -n else n), rest)
where
  based (base : Nat) (isDigit : Char → Bool) (cs : List Char) : Option (Value × List Char) := do
    let (ds, rest) ← digits? isDigit cs
    some (← asInteger? (natOf base ds), rest)

private def exponent? : List Char → Option (Int × List Char)
  | c :: cs =>
    if c == 'e' || c == 'E' then do
      let (sign, cs) := sign? cs
      let (ds, rest) ← digits? Char.isDigit cs
      let n : Int := natOf 10 ds
      some (if sign = some true then -n else n, rest)
    else none
  | [] => none

/-- A number with a fraction, an exponent or both. One too great for a double is refused if it
is positive. -/
private def decimal? (cs : List Char) : Option (Value × List Char) := do
  let (sign, cs) := sign? cs
  let negative := sign = some true
  let (whole, cs) ← wholePart? cs
  let (fraction, cs, hasFraction) ← match cs with
    | '.' :: cs => (digits? Char.isDigit cs).map fun (ds, rest) => (ds, rest, true)
    | _ => some ([], cs, false)
  let (e, rest) ← match exponent? cs with
    | some r => some r
    | none => if hasFraction then some (0, cs) else none
  let x := Double.ofDecimal negative (natOf 10 (whole ++ fraction)) (e - fraction.length)
  if x = .infinite false then none else some (.float x, rest)

private def special? (cs : List Char) : Option (Value × List Char) :=
  let (sign, cs) := sign? cs
  match cs with
  | 'i' :: 'n' :: 'f' :: rest => some (.float (.infinite (sign = some true)), rest)
  | 'n' :: 'a' :: 'n' :: rest => some (.float .nan, rest)
  | _ => none

private def twoDigits? (low high : Nat) : List Char → Option (Nat × List Char)
  | c :: d :: cs =>
    let n := natOf 10 [c, d]
    if c.isDigit && d.isDigit && low ≤ n && n ≤ high then some (n, cs) else none
  | _ => none

private def mark? (mark : Char) : List Char → Option (List Char)
  | c :: cs => if c == mark then some cs else none
  | [] => none

private def time? (cs : List Char) : Option (List Char) := do
  let (_, cs) ← twoDigits? 0 23 cs
  let (_, cs) ← twoDigits? 0 59 (← mark? ':' cs)
  let (_, cs) ← twoDigits? 0 60 (← mark? ':' cs)
  match cs with
  | '.' :: d :: rest => if d.isDigit then some (rest.dropWhile Char.isDigit) else some cs
  | _ => some cs

private def offset? : List Char → Option (List Char)
  | 'Z' :: cs | 'z' :: cs => some cs
  | '+' :: cs | '-' :: cs => do
    let (_, cs) ← twoDigits? 0 23 cs
    let (_, cs) ← twoDigits? 0 59 (← mark? ':' cs)
    some cs
  | _ => none

private def daysIn (year month : Nat) : Nat :=
  if month = 2 then if year % 4 = 0 && (year % 100 ≠ 0 || year % 400 = 0) then 29 else 28
  else if [4, 6, 9, 11].contains month then 30
  else 31

private def date? (cs : List Char) : Option (List Char) := do
  let year := cs.take 4
  if year.length < 4 || !year.all Char.isDigit then none
  else
    let (month, cs) ← twoDigits? 1 12 (← mark? '-' (cs.drop 4))
    let (_, cs) ← twoDigits? 1 (daysIn (natOf 10 year) month) (← mark? '-' cs)
    some cs

private def moment? (cs : List Char) : Option (Value × List Char) :=
  match date? cs with
  | none => (time? cs).map (.moment, ·)
  | some rest =>
    match rest with
    | c :: after =>
      if c == 'T' || c == 't' || c == ' ' then
        match time? after with
        | some after => some (.moment, (offset? after).getD after)
        | none => some (.moment, rest)
      else some (.moment, rest)
    | [] => some (.moment, [])

def number? (cs : List Char) : Option (Value × List Char) :=
  moment? cs <|> decimal? cs <|> special? cs <|> integer? cs

/-! Reading a TOML document line by line. -/

private def items? (item : List Char → Option (Value × List Char)) :
    Nat → (taken : List Value) → List Char → Option (List Value × List Char)
  | 0, _, _ => none
  | fuel + 1, taken, cs => do
    match ← skipLines? false cs with
    | ']' :: rest => some (taken.reverse, rest)
    | cs =>
      let (v, rest) ← item cs
      match ← skipLines? false rest with
      | ',' :: rest => items? item fuel (v :: taken) rest
      | ']' :: rest => some ((v :: taken).reverse, rest)
      | _ => none

private def pair? (value : List Char → Option (Value × List Char)) (cs : List Char) :
    Option (List String × Value × List Char) := do
  let (key, rest) ← key? cs
  match rest with
  | '=' :: rest =>
    let (v, rest) ← value (skipBlank rest)
    some (key, v, rest)
  | _ => none

private def addPair (es : Entries) (key : List String) (v : Value) : Option Entries :=
  match key.getLast? with
  | some last => es.insert last v key.dropLast
  | none => none

private def pairs? (value : List Char → Option (Value × List Char)) :
    Nat → Entries → List Char → Option (Entries × List Char)
  | 0, _, _ => none
  | fuel + 1, es, cs => do
    let (key, v, rest) ← pair? value cs
    let es ← addPair es key v
    match skipBlank rest with
    | ',' :: rest => pairs? value fuel es rest
    | '}' :: rest => some (es, rest)
    | _ => none

def value? : (depth : Nat) → List Char → Option (Value × List Char)
  | depth, cs =>
    match cs with
    | '"' :: _ | '\'' :: _ => (text? cs).map fun (t, rest) => (.string t, rest)
    | 't' :: 'r' :: 'u' :: 'e' :: rest => some (.boolean true, rest)
    | 'f' :: 'a' :: 'l' :: 's' :: 'e' :: rest => some (.boolean false, rest)
    | '[' :: rest =>
      match depth with
      | 0 => none
      | d + 1 => (items? (value? d) (rest.length + 1) [] rest).map fun (vs, rest) => (.array vs, rest)
    | '{' :: rest =>
      match depth with
      | 0 => none
      | d + 1 =>
        match skipBlank rest with
        | '}' :: rest => some (.table .closed [], rest)
        | rest => (pairs? (value? d) (rest.length + 1) [] rest).map fun (es, rest) => (.table .closed es, rest)
    | _ => number? cs

private structure Header where
  path : List String
  key : String
  isItem : Bool

private structure Document where
  root : Entries := []
  header : Option Header := none
  /-- The entries under the header, or at the top of the document. -/
  current : Entries := []

namespace Document

private def finish (d : Document) : Option Entries :=
  match d.header with
  | none => some d.current
  | some h =>
    (Entries.under (if h.isItem then Entries.endItem h.key d.current else Entries.endTable h.key d.current)
      h.path d.root).map (·.1)

private def enter (d : Document) (path : List String) (key : String) (isItem : Bool) : Option Document := do
  let root ← d.finish
  let (root, current) ← Entries.under (if isItem then Entries.beginItem key else Entries.beginTable key) path root
  some { root, header := some ⟨path, key, isItem⟩, current }

end Document

private def header? (cs : List Char) : Option (List String × Bool × List Char) :=
  match cs with
  | '[' :: '[' :: rest => do
    match ← key? rest with
    | (key, ']' :: ']' :: rest) => some (key, true, ← trailing? rest)
    | _ => none
  | '[' :: rest => do
    match ← key? rest with
    | (key, ']' :: rest) => some (key, false, ← trailing? rest)
    | _ => none
  | _ => none

private def expressions? : Nat → Document → List Char → Option Entries
  | 0, _, _ => none
  | fuel + 1, d, cs =>
    match skipBlank cs with
    | [] => d.finish
    | '#' :: rest => do expressions? fuel d (← lineEnd? (skipComment ('#' :: rest)))
    | '[' :: rest => do
      let (key, isItem, rest) ← header? ('[' :: rest)
      expressions? fuel (← d.enter key.dropLast (key.getLast?.getD "") isItem) rest
    | cs =>
      match newline? cs with
      | some rest => expressions? fuel d rest
      | none => do
        let (key, v, rest) ← pair? (value? maxDepth) cs
        let current ← addPair d.current key v
        expressions? fuel { d with current } (← trailing? rest)

/-- The entries of a document, or nothing if it is malformed. A mark of the byte order may come
first. Every line has at least one character. -/
def parse (document : String) : Option Entries :=
  let cs := match document.toList with
    | '\uFEFF' :: cs => cs
    | cs => cs
  expressions? (cs.length + 2) {} cs

end ComponentDocs.Toml
