import ComponentDocs.Template.Scope
/-! Scanners for what stands between the braces of a tag. White space is free between
the parts of a tag, but not within a reference. A scanner that succeeds gives back the
rest of the text. -/
namespace ComponentDocs.Template.Tag

abbrev Scanner (α : Type) := List Char → Option (α × List Char)

def isWhite : Char → Bool := Json.isWhite

def skipWhite (cs : List Char) : List Char := cs.dropWhile isWhite

def isNameChar (c : Char) : Bool := c.isAlphanum || c == '_' || c == '-' || c == '$' || 128 ≤ c.toNat

def isIncludeChar (c : Char) : Bool := (isNameChar c && c != '$') || c == '/' || c == '.'

def after? (word : String) (cs : List Char) : Option (List Char) :=
  if word.toList.isPrefixOf cs then some (cs.drop word.length) else none

private def someChars? (test : Char → Bool) : Scanner String := fun cs =>
  let name := cs.takeWhile test
  if name.isEmpty then none else some (String.ofList name, cs.drop name.length)

def identifier? : Scanner String := someChars? isNameChar

private def isSeparator (c : Char) : Bool := c == '.' || c == '/'

private def separator? : List Char → Option (List Char)
  | c :: cs => if isSeparator c then some cs else none
  | [] => none

/-- A field by its name, or by any text in brackets. `this` names no field. -/
private def item? : Scanner (List Step) := fun cs =>
  let named (name : String) : List Step := if name == "this" then [] else [.field name]
  match cs with
  | '[' :: cs =>
    let name := cs.takeWhile (· != ']')
    if name.length = cs.length then none else some (named (String.ofList name), cs.drop (name.length + 1))
  | cs => (identifier? cs).map fun (name, rest) => (named name, rest)

private def moreItems : Nat → List Char → List Step × List Char
  | 0, cs => ([], cs)
  | fuel + 1, cs =>
    match (separator? cs).bind item? with
    | none => ([], cs)
    | some (steps, rest) =>
      let (more, rest) := moreItems fuel rest
      (steps ++ more, rest)

private def ups : Nat → List Char → List Step × List Char
  | 0, cs => ([], cs)
  | fuel + 1, cs =>
    match (after? ".." cs).bind separator? with
    | none => ([], cs)
    | some rest =>
      let (more, rest) := ups fuel rest
      (.up :: more, rest)

def reference? : Scanner Reference := fun cs => do
  let start := match (after? "this" cs).bind separator? with
    | some rest => rest
    | none => (after? "./" cs).getD cs
  let (root, start) := match (after? "@root" start).bind separator? with
    | some rest => ([Step.root], rest)
    | none => ([], start)
  let (local_, start) := match start with
    | '@' :: rest => ([Step.variable_], rest)
    | _ => ([], start)
  let (up, start) := ups start.length start
  let (first, rest) ← item? start
  let (more, rest) := moreItems rest.length rest
  some (⟨String.ofList (cs.take (cs.length - rest.length)), root ++ local_ ++ up ++ first ++ more⟩, rest)

/-- A text in quotes, in which a backslash comes before certain characters only. -/
private def quoted? (quote : Char) : Nat → List Char → Option (List Char)
  | 0, _ => none
  | _, [] => none
  | fuel + 1, c :: cs =>
    if c == quote then some cs
    else if c == '\\' then
      match cs with
      | 'u' :: cs =>
        if 4 ≤ cs.length && (cs.take 4).all isHex then quoted? quote fuel (cs.drop 4) else none
      | d :: cs => if d == quote || "\\/bfnrt".toList.contains d then quoted? quote fuel cs else none
      | [] => none
    else quoted? quote fuel cs
where
  isHex (c : Char) : Bool := c.isDigit || ('a' ≤ c && c ≤ 'f') || ('A' ≤ c && c ≤ 'F')

private def stringEnd? : List Char → Option (List Char)
  | c :: cs => if c == '"' || c == '\'' then quoted? c (cs.length + 1) cs else none
  | [] => none

private def nameEnds (cs : List Char) : Option (List Char) :=
  if cs.head?.any isNameChar then none else some cs

private def numberEnd? (cs : List Char) : Option (List Char) :=
  let cs := (after? "-" cs).getD cs
  if !cs.head?.any Char.isDigit then none
  else
    let rest := cs.dropWhile Char.isDigit
    let rest := match rest with
      | '.' :: rest => rest.dropWhile Char.isDigit
      | _ => rest
    let rest := match rest with
      | 'E' :: power =>
        let power := (after? "-" power).getD power
        if power.head?.any Char.isDigit then power.dropWhile Char.isDigit else rest
      | _ => rest
    nameEnds rest

mutual

private def literalEnd? : Nat → List Char → Option (List Char)
  | 0, _ => none
  | fuel + 1, cs =>
    stringEnd? cs <|>
    (match cs with
      | '[' :: rest => itemsEnd? fuel (skipWhite rest) true
      | '{' :: rest => fieldsEnd? fuel (skipWhite rest) true
      | _ => none) <|>
    numberEnd? cs <|>
    (((after? "true" cs) <|> (after? "false" cs) <|> (after? "null" cs)).bind nameEnds)

private def itemsEnd? : Nat → List Char → (first : Bool) → Option (List Char)
  | 0, _, _ => none
  | fuel + 1, cs, first =>
    let start := if first then some ((literalEnd? fuel cs).getD cs) else literalEnd? fuel cs
    start.bind fun rest =>
      match skipWhite rest with
      | ',' :: rest => itemsEnd? fuel (skipWhite rest) false
      | ']' :: rest => some rest
      | _ => none

private def fieldsEnd? : Nat → List Char → (first : Bool) → Option (List Char)
  | 0, _, _ => none
  | fuel + 1, cs, first =>
    let field := (stringEnd? cs).bind fun rest =>
      (after? ":" (skipWhite rest)).bind fun rest => literalEnd? fuel (skipWhite rest)
    let start := if first then some (field.getD cs) else field
    start.bind fun rest =>
      match skipWhite rest with
      | ',' :: rest => fieldsEnd? fuel (skipWhite rest) false
      | '}' :: rest => some rest
      | _ => none

end

/-- The value of a literal. A text in single quotes is read like one in double quotes. -/
private def literalValue? (text : List Char) : Option Value :=
  match text with
  | '\'' :: rest => Json.parse ('"' :: requote rest.dropLast ++ ['"'])
  | _ => Json.parse text
where
  requote : List Char → List Char
    | '\\' :: '\'' :: cs => '\'' :: requote cs
    | '"' :: cs => '\\' :: '"' :: requote cs
    | c :: cs => c :: requote cs
    | [] => []

private def literal? : Scanner Value := fun cs => do
  let rest ← literalEnd? (2 * (cs.length + 1)) cs
  some (← literalValue? (cs.take (cs.length - rest.length)), rest)

private def isKeyword (cs : List Char) : Bool :=
  match after? "as" cs <|> after? "else" cs with
  | some rest => !(skipWhite rest).head?.any isNameChar
  | none => false

private inductive Parameter
  | plain (p : Param)
  | named (key : String) (p : Param)

/-- Adds a parameter. Of several with one name the last one counts. -/
private def addParameter (a : Arguments) : Parameter → Arguments
  | .plain p => { a with params := a.params ++ [p] }
  | .named key p =>
    let given := (a.keys.zip a.values).filter (·.1 != key) ++ [(key, p)]
    { a with keys := given.map (·.1), values := given.map (·.2) }

mutual

private def param? : Nat → Scanner Param
  | 0, _ => none
  | fuel + 1, cs =>
    if isKeyword cs then none
    else if (literalEnd? (2 * (cs.length + 1)) cs).isSome then (literal? cs).map fun (v, rest) => (.literal v, rest)
    else
      ((reference? cs).map fun (r, rest) => (Param.data r, rest)) <|> nested? fuel cs

private def nested? : Nat → Scanner Param
  | 0, _ => none
  | fuel + 1, cs => do
    let cs := skipWhite (← after? "(" cs)
    let (p, rest) ← withArguments? fuel cs <|>
      (reference? cs).map fun (r, rest) => (Param.call r.text [] [] [], rest)
    some (p, ← after? ")" (skipWhite rest))

private def withArguments? : Nat → Scanner Param
  | 0, _ => none
  | fuel + 1, cs => do
    let (name, rest) ← identifier? cs
    let (a, rest) := arguments fuel {} rest
    if a.isEmpty then none else some (.call name a.params a.keys a.values, rest)

private def parameter? : Nat → Scanner Parameter
  | 0, _ => none
  | fuel + 1, cs =>
    let named : Option (Parameter × List Char) := do
      let (key, rest) ← identifier? cs
      let rest ← after? "=" (skipWhite rest)
      let (p, rest) ← param? fuel (skipWhite rest)
      some (.named key p, rest)
    named <|> (param? fuel cs).map fun (p, rest) => (.plain p, rest)

private def arguments : Nat → Arguments → List Char → Arguments × List Char
  | 0, a, cs => (a, cs)
  | fuel + 1, a, cs =>
    match parameter? fuel (skipWhite cs) with
    | none => (a, cs)
    | some (p, rest) => arguments fuel (addParameter a p) rest

end

/-- Every step takes a character or leads to a scanner that does. -/
private def fuelFor (cs : List Char) : Nat := 4 * (cs.length + 4)

def allArguments (cs : List Char) : Arguments × List Char := arguments (fuelFor cs) {} cs

/-- Names for what a block hands to its body: `as |item|` or `as |item key|`. -/
private def binds? : Scanner (List String) := fun cs => do
  let rest ← after? "|" (skipWhite (← after? "as" (skipWhite cs)))
  let (first, rest) ← identifier? (skipWhite rest)
  match identifier? (skipWhite rest) with
  | some (second, rest) => some ([first, second], ← after? "|" (skipWhite rest))
  | none => some ([first], ← after? "|" (skipWhite rest))

def call? : Scanner Call := fun cs => do
  let (helper, rest) ← identifier? cs
  let (a, rest) := allArguments rest
  match binds? rest with
  | some (binds, rest) => some (⟨helper, a, binds⟩, rest)
  | none => some (⟨helper, a, []⟩, rest)

def value? : Scanner Element := fun cs =>
  ((nested? (fuelFor cs) cs).map fun (p, rest) => (.value p, rest)) <|>
  (reference? cs).map fun (r, rest) => (.value (.data r), rest)

def shown? : Scanner Element := fun cs =>
  let called : Option (Element × List Char) := do
    let (helper, rest) ← identifier? cs
    let (a, rest) := allArguments rest
    if a.isEmpty then none else some (.call ⟨helper, a, []⟩, rest)
  called <|> value? cs

private def quotedRest : List Char → List Char
  | '\\' :: '\'' :: cs => quotedRest cs
  | '\'' :: cs => '\'' :: cs
  | _ :: cs => quotedRest cs
  | [] => []

private def quotedName? : Scanner String
  | '\'' :: cs =>
    match quotedRest cs with
    | '\'' :: rest =>
      if rest.length + 1 = cs.length then none
      else some (String.ofList ('\'' :: cs.take (cs.length - rest.length)), rest)
    | _ => none
  | _ => none

def plainName? : Scanner String := fun cs => someChars? isIncludeChar cs <|> quotedName? cs

def isPlainName (name : String) : Bool := name.toList.all isIncludeChar || name.toList.head? == some '\''

private def includeName? : Scanner IncludeName := fun cs =>
  ((plainName? cs).map fun (name, rest) => (.literal name, rest)) <|>
  ((nested? (fuelFor cs) cs).map fun (p, rest) => (.computed p, rest)) <|>
  (reference? cs).map fun (r, rest) => (.literal r.text, rest)

def include? : Scanner (IncludeName × Arguments) := fun cs => do
  let (name, rest) ← includeName? cs
  let (a, rest) := allArguments rest
  some ((name, a), rest)

end ComponentDocs.Template.Tag
