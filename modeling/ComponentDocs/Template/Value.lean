import ComponentDocs.Number.Double
/-! The values that templates work with. -/
namespace ComponentDocs.Template

/-- A number: a whole one between `-2 ^ 63` and `2 ^ 64 - 1`, or a double. -/
inductive Number
  | whole (n : Int)
  | double (x : Double)
deriving Repr

inductive Value
  | null
  | boolean (b : Bool)
  | number (n : Number)
  | string (s : String)
  | array (items : List Value)
  /-- An object. Its keys are in ascending order. -/
  | object (fields : List (String × Value))
deriving Repr, Inhabited

namespace Number

/-- Equal numbers of one kind. Zeros of either sign are equal. -/
def same : Number → Number → Bool
  | .whole m, .whole n => m == n
  | .double (.finite s m e), .double (.finite t n f) =>
    (m == 0 && n == 0) || (s == t && m == n && e == f)
  | .double (.infinite s), .double (.infinite t) => s == t
  | _, _ => false

protected def toString : Number → String
  | .whole n => toString n
  | .double x => x.compact

/-- Whether a number counts as true. Zero and numbers near to it do not, unless they are
included. -/
def isTruthy (includeZero : Bool) : Number → Bool
  | .whole n => includeZero || n != 0
  | .double (.finite _ m _) => includeZero || Nat.pow 2 52 ≤ m
  | .double _ => false

end Number

namespace Value

def ofNat (n : Nat) : Value := .number (.whole n)

mutual

def render : Value → String
  | .null => ""
  | .boolean b => toString b
  | .number n => n.toString
  | .string s => s
  | .array items => "[" ++ renderItems items ++ "]"
  | .object _ => "[object]"

def renderItems : List Value → String
  | [] => ""
  | [v] => v.render
  | v :: vs => v.render ++ ", " ++ renderItems vs

end

def isTruthy (includeZero : Bool) : Value → Bool
  | .null => false
  | .boolean b => b
  | .number n => n.isTruthy includeZero
  | .string s => s != ""
  | .array items => !items.isEmpty
  | .object fields => !fields.isEmpty

mutual

def same : Value → Value → Bool
  | .null, .null => true
  | .boolean a, .boolean b => a == b
  | .number a, .number b => a.same b
  | .string a, .string b => a == b
  | .array a, .array b => sameItems a b
  | .object a, .object b => sameFields a b
  | _, _ => false

def sameItems : List Value → List Value → Bool
  | [], [] => true
  | a :: as, b :: bs => same a b && sameItems as bs
  | _, _ => false

def sameFields : List (String × Value) → List (String × Value) → Bool
  | [], [] => true
  | (k, a) :: as, (l, b) :: bs => k == l && same a b && sameFields as bs
  | _, _ => false

end

def insertField (key : String) (v : Value) : List (String × Value) → List (String × Value)
  | [] => [(key, v)]
  | (k, w) :: fields =>
    if key == k then (key, v) :: fields
    else if key < k then (key, v) :: (k, w) :: fields
    else (k, w) :: insertField key v fields

def ofFields (fields : List (String × Value)) : Value :=
  .object (fields.foldl (fun fs (k, v) => insertField k v fs) [])

end Value

end ComponentDocs.Template

/-! Reading a value that is written as JSON. -/
namespace ComponentDocs.Template.Json

def isWhite (c : Char) : Bool := c == ' ' || c == '\t' || c == '\n' || c == '\r'

private def skipWhite (cs : List Char) : List Char := cs.dropWhile isWhite

private def hexDigit? (c : Char) : Option Nat :=
  if c.isDigit then some (c.toNat - '0'.toNat)
  else if 'a' ≤ c && c ≤ 'f' then some (c.toNat - 'a'.toNat + 10)
  else if 'A' ≤ c && c ≤ 'F' then some (c.toNat - 'A'.toNat + 10)
  else none

private def unit? : List Char → Option (Nat × List Char)
  | a :: b :: c :: d :: cs => do
    let n := 4096 * (← hexDigit? a) + 256 * (← hexDigit? b) + 16 * (← hexDigit? c) + (← hexDigit? d)
    some (n, cs)
  | _ => none

/-- After a backslash and a `u`: a character, which may take two units. -/
private def codePoint? (cs : List Char) : Option (Char × List Char) := do
  let (n, rest) ← unit? cs
  if 0xdc00 ≤ n && n ≤ 0xdfff then none
  else if 0xd800 ≤ n && n ≤ 0xdbff then
    match rest with
    | '\\' :: 'u' :: rest => do
      let (low, rest) ← unit? rest
      if 0xdc00 ≤ low && low ≤ 0xdfff then
        some (Char.ofNat (0x10000 + 1024 * (n - 0xd800) + (low - 0xdc00)), rest)
      else none
    | _ => none
  else some (Char.ofNat n, rest)

private def escaped? : List Char → Option (Char × List Char)
  | '"' :: cs => some ('"', cs)
  | '\\' :: cs => some ('\\', cs)
  | '/' :: cs => some ('/', cs)
  | 'b' :: cs => some ('\x08', cs)
  | 'f' :: cs => some ('\x0c', cs)
  | 'n' :: cs => some ('\n', cs)
  | 'r' :: cs => some ('\r', cs)
  | 't' :: cs => some ('\t', cs)
  | 'u' :: cs => codePoint? cs
  | _ => none

private def stringRest? : Nat → (taken : List Char) → List Char → Option (String × List Char)
  | 0, _, _ => none
  | _, _, [] => none
  | fuel + 1, taken, c :: cs =>
    if c == '"' then some (String.ofList taken.reverse, cs)
    else if c == '\\' then do
      let (d, rest) ← escaped? cs
      stringRest? fuel (d :: taken) rest
    else if c.toNat < 0x20 then none
    else stringRest? fuel (c :: taken) cs

private def string? : List Char → Option (String × List Char)
  | '"' :: cs => stringRest? (cs.length + 1) [] cs
  | _ => none

private def natOf (ds : List Char) : Nat := ds.foldl (fun n d => 10 * n + (d.toNat - '0'.toNat)) 0

private def digitRun (cs : List Char) : List Char × List Char := (cs.takeWhile Char.isDigit, cs.dropWhile Char.isDigit)

private def exponent? : List Char → Option (Int × List Char)
  | c :: cs =>
    if c == 'e' || c == 'E' then
      let (negative, cs) := match cs with
        | '-' :: cs => (true, cs)
        | '+' :: cs => (false, cs)
        | _ => (false, cs)
      let (ds, rest) := digitRun cs
      let n : Int := natOf ds
      if ds.isEmpty then none else some (if negative then -n else n, rest)
    else some (0, c :: cs)
  | [] => some (0, [])

/-- Reads digits behind those of `n` for as long as the number takes 64 bits: the number, how many
digits were read, and the rest of them. -/
private def absorb (n : Nat) : List Char → Nat × Nat × List Char
  | [] => (n, 0, [])
  | d :: ds =>
    let next := 10 * n + (d.toNat - '0'.toNat)
    if next < Nat.pow 2 64 then
      let (m, taken, rest) := absorb next ds
      (m, taken + 1, rest)
    else (n, 0, d :: ds)

private def maxPower : Nat := 308

private def tenTo (n : Nat) : Double := .ofDecimal false 1 n

/-- `x * 10 ^ e`, rounded after each step. A number that is too great has no value. -/
private def scaled (x : Double) (e : Int) : Option Double :=
  if e.natAbs ≤ maxPower then
    if 0 ≤ e then
      match x.mul (tenTo e.natAbs) with
      | .infinite _ => none
      | y => some y
    else some (x.div (tenTo e.natAbs))
  else if x.isZero then some x
  else if 0 ≤ e then none
  else scaled (x.div (tenTo maxPower)) (e + maxPower)
termination_by e.natAbs
decreasing_by simp only [maxPower] at *; omega

/-- A double by its digits before and after the point. Digits that do not fit 64 bits count as
zeros before the point, and are dropped after it. -/
private def double? (negative : Bool) (whole fraction : List Char) (e : Int) : Option Double :=
  let (n, _, beyond) := absorb 0 whole
  let (n, places, _) := absorb n fraction
  scaled (.ofDecimal negative n 0) (e + beyond.length - places)

private def number? (cs : List Char) : Option (Value × List Char) := do
  let (negative, cs) := match cs with
    | '-' :: cs => (true, cs)
    | _ => (false, cs)
  let (whole, cs) := digitRun cs
  if whole.isEmpty || (whole.head? == some '0' && 1 < whole.length) then none
  else
    let (fraction, rest) := match cs with
      | '.' :: cs => digitRun cs
      | _ => ([], cs)
    if cs.head? == some '.' && fraction.isEmpty then none
    else
      let (e, after) ← exponent? rest
      let n : Int := natOf whole
      let n := if negative then -n else n
      let isWhole := cs.head? != some '.' && after.length == rest.length
      if isWhole && !(negative && n = 0) && -Int.pow 2 63 ≤ n && n < Int.pow 2 64 then
        some (.number (.whole n), after)
      else (double? negative whole fraction e).map fun x => (.number (.double x), after)

private def items? (item : List Char → Option (Value × List Char)) :
    Nat → (taken : List Value) → List Char → Option (List Value × List Char)
  | 0, _, _ => none
  | fuel + 1, taken, cs => do
    let (v, rest) ← item (skipWhite cs)
    match skipWhite rest with
    | ',' :: rest => items? item fuel (v :: taken) rest
    | ']' :: rest => some ((v :: taken).reverse, rest)
    | _ => none

private def fields? (item : List Char → Option (Value × List Char)) :
    Nat → (taken : List (String × Value)) → List Char → Option (List (String × Value) × List Char)
  | 0, _, _ => none
  | fuel + 1, taken, cs => do
    let (k, rest) ← string? (skipWhite cs)
    match skipWhite rest with
    | ':' :: rest => do
      let (v, rest) ← item (skipWhite rest)
      match skipWhite rest with
      | ',' :: rest => fields? item fuel ((k, v) :: taken) rest
      | '}' :: rest => some (((k, v) :: taken).reverse, rest)
      | _ => none
    | _ => none

private def value? (depth : Nat) (cs : List Char) : Option (Value × List Char) :=
  match cs with
  | '"' :: _ => (string? cs).map fun (s, rest) => (.string s, rest)
  | 't' :: 'r' :: 'u' :: 'e' :: rest => some (.boolean true, rest)
  | 'f' :: 'a' :: 'l' :: 's' :: 'e' :: rest => some (.boolean false, rest)
  | 'n' :: 'u' :: 'l' :: 'l' :: rest => some (.null, rest)
  | '[' :: rest =>
    match depth with
    | 0 => none
    | d + 1 =>
      match skipWhite rest with
      | ']' :: rest => some (.array [], rest)
      | rest => (items? (value? d) (rest.length + 1) [] rest).map fun (vs, rest) => (.array vs, rest)
  | '{' :: rest =>
    match depth with
    | 0 => none
    | d + 1 =>
      match skipWhite rest with
      | '}' :: rest => some (.object [], rest)
      | rest => (fields? (value? d) (rest.length + 1) [] rest).map fun (fs, rest) => (.ofFields fs, rest)
  | _ => number? cs

def maxDepth : Nat := 127

def parse (text : List Char) : Option Value :=
  match value? maxDepth (skipWhite text) with
  | some (v, rest) => if (skipWhite rest).isEmpty then some v else none
  | none => none

end ComponentDocs.Template.Json
