import ComponentDocs.Process.Basic
/-! Programs seen from inside: functions of their arguments and their input that may
read files. Those defined here and in the modules on editing and on scripts stand in for
programs of the system, so that a run has some to call. What is proved of commands is
proved of any runner, and so of any programs. -/
namespace ComponentDocs

structure Surroundings where
  tree : FileTree
  cwd : Location

structure Run extends Execution where
  rest : Bytes := []

abbrev Program := Surroundings → (args : List String) → (input : Bytes) → Run

namespace Program

def fails (name complaint : String) (input : Bytes) : Run :=
  { errors := Text.encode s!"{name}: {complaint}\n", status := .code 1, rest := input }

def filter (f : Bytes → Bytes) (input : Bytes) : Run := { output := f input }

def newline : UInt8 := 0x0A

def byteLines (bytes : Bytes) : List Bytes :=
  bytes.foldr (fun b lines =>
    if b = newline then [] :: lines
    else
      match lines with
      | [] => [[b]]
      | l :: ls => (b :: l) :: ls) []

def unlines (lines : List Bytes) : Bytes := lines.flatMap fun l => l ++ [newline]

/-- Writes lines, with a line feed after the last one only if the input had it there. -/
def mapLines (f : List Bytes → List Bytes) (input : Bytes) : Bytes :=
  let out := unlines (f (byteLines input))
  if input.getLast?.all (· = newline) then out else out.dropLast

def byteChars (bytes : Bytes) : List Char := bytes.map fun b => Char.ofNat b.toNat

def charBytes (cs : List Char) : Bytes := cs.map fun c => UInt8.ofNat c.toNat

def readFile (s : Surroundings) (name : String) : Except FileError Bytes :=
  (s.tree.read s.cwd (.ofString name)).map fun
    | .text t => Text.encode t
    | .binary bytes => bytes

/-- Reads the named files one after the other, or the input if none is named or by `-`. -/
def gather (program : String) (s : Surroundings) (names : List String) (input : Bytes) : Run :=
  if names.isEmpty then { output := input }
  else
    names.foldl (fun (r : Run) name =>
      if name = "-" then { r with output := r.output ++ r.rest, rest := [] }
      else
        match readFile s name with
        | .ok bytes => { r with output := r.output ++ bytes }
        | .error e =>
          { r with errors := r.errors ++ Text.encode s!"{program}: {name}: {e.reason}\n", status := .code 1 })
      { rest := input }

def ofFilter (program : String) (f : Bytes → Bytes) : Program := fun s names input =>
  let r := gather program s names input
  { r with output := f r.output }

end Program

end ComponentDocs

/-! Escapes that stand for bytes. -/
namespace ComponentDocs.Escape

def octalDigit? (c : Char) : Option Nat :=
  if '0' ≤ c ∧ c ≤ '7' then some (c.toNat - '0'.toNat) else none

def octal : Nat → (value : Nat) → List Char → Nat × List Char
  | 0, value, cs => (value, cs)
  | _, value, [] => (value, [])
  | n + 1, value, c :: cs =>
    match octalDigit? c with
    | some d => octal n (8 * value + d) cs
    | none => (value, c :: cs)

theorem octal_length (n value : Nat) (cs : List Char) : (octal n value cs).2.length ≤ cs.length := by
  fun_induction octal n value cs with
  | case1 | case2 | case4 => simp
  | case3 n value c cs d h ih => simp only [List.length_cons]; omega

def controls : List (Char × Nat) :=
  [('a', 7), ('b', 8), ('f', 12), ('n', 10), ('r', 13), ('t', 9), ('v', 11), ('\\', 92)]

inductive OctalStyle
  | digits
  | zero
deriving DecidableEq, Repr

def number? : OctalStyle → List Char → Option (Nat × List Char)
  | .digits, [] => none
  | .digits, c :: cs => if (octalDigit? c).isSome then some (octal 3 0 (c :: cs)) else none
  | .zero, '0' :: cs => some (octal 3 0 cs)
  | .zero, _ => none

theorem number?_length {style : OctalStyle} {cs rest : List Char} {n : Nat}
    (h : number? style cs = some (n, rest)) : rest.length ≤ cs.length := by
  unfold number? at h
  split at h
  · exact nomatch h
  · next c cs =>
    split at h
    · have hl := octal_length 3 0 (c :: cs)
      rw [Option.some.inj h] at hl
      exact hl
    · exact nomatch h
  · next cs =>
    have hl := octal_length 3 0 cs
    rw [Option.some.inj h] at hl
    exact Nat.le_succ_of_le hl
  · exact nomatch h

def escape? (style : OctalStyle) (cs : List Char) : Option (UInt8 × List Char) :=
  match number? style cs, cs with
  | some (n, rest), _ => some (UInt8.ofNat n, rest)
  | none, [] => none
  | none, c :: cs => (controls.lookup c).map fun n => (UInt8.ofNat n, cs)

theorem escape?_length {style : OctalStyle} {cs rest : List Char} {b : UInt8}
    (h : escape? style cs = some (b, rest)) : rest.length ≤ cs.length := by
  unfold escape? at h
  split at h
  · next hn =>
    simp only [Option.some.injEq, Prod.mk.injEq] at h
    exact h.2 ▸ number?_length hn
  · exact nomatch h
  · simp only [Option.map_eq_some_iff, Prod.mk.injEq] at h
    obtain ⟨_, _, _, rfl⟩ := h
    simp

def charBytes (c : Char) : Bytes := Text.encode (String.singleton c)

def bytes (style : OctalStyle) : List Char → Bytes
  | [] => []
  | c :: cs =>
    if c = '\\' then
      match h : escape? style cs with
      | some (b, rest) =>
        have := escape?_length h
        b :: bytes style rest
      | none => charBytes c ++ bytes style cs
    else charBytes c ++ bytes style cs
termination_by cs => cs.length
decreasing_by all_goals simp; try omega

end ComponentDocs.Escape

/-! Programs that write their arguments. -/
namespace ComponentDocs.Program

/-- Writes arguments with spaces between them. `escapes` tells whether escapes are carried out
without being asked for. -/
def echo (escapes : Bool) : Program := fun _ args input =>
  let isOption (a : String) : Bool :=
    match a.toList with
    | '-' :: c :: cs => (c :: cs).all fun x => x = 'n' || (!escapes && (x = 'e' || x = 'E'))
    | _ => false
  let options := (args.takeWhile isOption).flatMap fun a => a.toList.drop 1
  let text := " ".intercalate (args.dropWhile isOption)
  let bytes :=
    if escapes || options.contains 'e' then Escape.bytes .zero text.toList else Text.encode text
  { output := if options.contains 'n' then bytes else bytes ++ [newline], rest := input }

/-- Fills a format with arguments, from the first. Gives back those that are left. -/
private def fill : List Char → List String → Bytes × List String
  | [], args => ([], args)
  | '%' :: '%' :: cs, args => (0x25 :: (fill cs args).1, (fill cs args).2)
  | '%' :: 's' :: cs, args =>
    let (out, left) := fill cs (args.drop 1)
    (Text.encode (args.head?.getD "") ++ out, left)
  | '%' :: 'b' :: cs, args =>
    let (out, left) := fill cs (args.drop 1)
    (Escape.bytes .zero (args.head?.getD "").toList ++ out, left)
  | '%' :: 'c' :: cs, args =>
    let (out, left) := fill cs (args.drop 1)
    ((Text.encode (args.head?.getD "")).take 1 ++ out, left)
  | '%' :: 'd' :: cs, args =>
    let (out, left) := fill cs (args.drop 1)
    (Text.encode (toString (((args.head?.bind String.toInt?).getD 0))) ++ out, left)
  | '\\' :: cs, args =>
    match h : Escape.escape? .digits cs with
    | some (b, rest) =>
      have := Escape.escape?_length h
      let (out, left) := fill rest args
      (b :: out, left)
    | none =>
      let (out, left) := fill cs args
      (Escape.charBytes '\\' ++ out, left)
  | c :: cs, args =>
    let (out, left) := fill cs args
    (Escape.charBytes c ++ out, left)
termination_by cs => cs.length
decreasing_by all_goals simp; try omega

private def fillAll (format : List Char) : Nat → List String → Bytes
  | 0, _ => []
  | fuel + 1, args =>
    let (out, left) := fill format args
    if left.isEmpty || left.length = args.length then out else out ++ fillAll format fuel left

def printf : Program := fun _ args input =>
  match args with
  | [] => fails "printf" "missing operand" input
  | format :: args => { output := fillAll format.toList (args.length + 1) args, rest := input }

/-! Common text filters. -/

def splitOptions (args : List String) : List Char × List String :=
  let isOption (a : String) : Bool := a.length > 1 && a.startsWith "-"
  ((args.takeWhile isOption).flatMap fun a => a.toList.drop 1, args.dropWhile isOption)

private def numbered (l : Bytes) (n : Nat) : Bytes :=
  let digits := toString n
  Text.encode (String.ofList (List.replicate (6 - digits.length) ' ') ++ digits ++ "\t") ++ l

def cat : Program := fun s args input =>
  let (options, names) := splitOptions args
  if options.contains 'n' then
    ofFilter "cat" (mapLines fun ls => ls.zipIdx.map fun (l, i) => numbered l (i + 1)) s names input
  else gather "cat" s names input

inductive Amount
  | bytes (n : Nat)
  | lines (n : Nat)

def amount? : List String → Option (Amount × List String)
  | [] => some (.lines 10, [])
  | a :: rest =>
    let sized (unit : Nat → Amount) (digits : List Char) : Option (Amount × List String) :=
      match digits, rest with
      | [], n :: names => n.toNat?.map fun n => (unit n, names)
      | digits, names => (String.ofList digits).toNat?.map fun n => (unit n, names)
    match a.toList with
    | '-' :: 'c' :: digits => sized .bytes digits
    | '-' :: 'n' :: digits => sized .lines digits
    | '-' :: d :: digits => if d.isDigit then sized .lines (d :: digits) else none
    | _ => some (.lines 10, a :: rest)

def head : Program := fun s args input =>
  match amount? args with
  | none => fails "head" "invalid option" input
  | some (.bytes n, []) => { output := input.take n, rest := input.drop n }
  | some (.bytes n, names) => ofFilter "head" (·.take n) s names input
  | some (.lines n, names) => ofFilter "head" (mapLines (·.take n)) s names input

def tail : Program := fun s args input =>
  match amount? args with
  | none => fails "tail" "invalid option" input
  | some (.bytes n, names) => ofFilter "tail" (fun bs => bs.drop (bs.length - n)) s names input
  | some (.lines n, names) => ofFilter "tail" (mapLines fun ls => ls.drop (ls.length - n)) s names input

private def bytesBetween (low high : Char) : Bytes :=
  (List.range (high.toNat + 1 - low.toNat)).map fun i => UInt8.ofNat (low.toNat + i)

def classes : List (String × Bytes) :=
  let upper := bytesBetween 'A' 'Z'
  let lower := bytesBetween 'a' 'z'
  let digit := bytesBetween '0' '9'
  [("[:upper:]", upper), ("[:lower:]", lower), ("[:digit:]", digit), ("[:alpha:]", upper ++ lower),
    ("[:alnum:]", digit ++ upper ++ lower), ("[:space:]", bytesBetween '\t' '\r' ++ [0x20]),
    ("[:blank:]", [0x09, 0x20])]

def members : List Char → Bytes
  | [] => []
  | '\\' :: cs =>
    match h : Escape.escape? .digits cs with
    | some (b, rest) =>
      have := Escape.escape?_length h
      b :: members rest
    | none => members cs
  | a :: '-' :: b :: cs => bytesBetween a b ++ members cs
  | c :: cs =>
    match classes.find? fun x => x.1.toList.isPrefixOf (c :: cs) with
    | some (name, bytes) => bytes ++ members (cs.drop (name.length - 1))
    | none => Escape.charBytes c ++ members cs
termination_by cs => cs.length
decreasing_by all_goals simp; try omega

def squeeze (test : UInt8 → Bool) (bytes : Bytes) : Bytes :=
  bytes.foldr (fun b kept => if test b && kept.head? == some b then kept else b :: kept) []

/-- Gives each member of a set its partner. The last member of the partners stands for all that
are missing. -/
def exchange (set partners : Bytes) (bytes : Bytes) : Bytes :=
  let missing := List.replicate (set.length - partners.length) (partners.getLast?.getD 0)
  let table := (set.zip (partners ++ missing)).reverse
  bytes.map fun b => (table.lookup b).getD b

def tr : Program := fun _ args input =>
  let (options, sets) := splitOptions args
  let set (text : String) : Bytes :=
    let named := members text.toList
    if options.contains 'c' || options.contains 'C' then
      ((List.range 256).map UInt8.ofNat).filter fun b => !named.contains b
    else named
  let deletes := options.contains 'd'
  let squeezes := options.contains 's'
  match sets with
  | [a] =>
    if deletes then filter (·.filter fun b => !(set a).contains b) input
    else if squeezes then filter (squeeze (set a).contains) input
    else fails "tr" s!"missing operand after '{a}'" input
  | [a, b] =>
    let partners := members b.toList
    if deletes then filter (fun bs => squeeze partners.contains (bs.filter fun x => !(set a).contains x)) input
    else
      let out := exchange (set a) partners input
      { output := if squeezes then squeeze partners.contains out else out }
  | _ => fails "tr" "missing operand" input

def sort : Program := fun s args input =>
  let (options, names) := splitOptions args
  let ordered (bs : Bytes) : Bytes :=
    let ls := (byteLines bs).mergeSort fun a b => decide (a ≤ b)
    let ls := if options.contains 'u' then ls.eraseReps else ls
    unlines (if options.contains 'r' then ls.reverse else ls)
  ofFilter "sort" ordered s names input

def uniq : Program := ofFilter "uniq" fun bs => unlines (byteLines bs).eraseReps

def tac : Program := ofFilter "tac" fun bs => unlines (byteLines bs).reverse

def rev : Program :=
  ofFilter "rev" (mapLines (·.map fun l =>
    Text.encode (String.ofList (Text.decodeLossy l).toList.reverse)))

private def wordCount (bytes : Bytes) : Nat :=
  (bytes.foldl (fun (n, inWord) b => if b ≤ 0x20 then (n, false) else (if inWord then n else n + 1, true))
    (0, false)).1

def wc : Program := fun s args input =>
  let (options, names) := splitOptions args
  let count (bs : Bytes) : Nat :=
    match options with
    | ['l'] => bs.count newline
    | ['w'] => wordCount bs
    | _ => bs.length
  ofFilter "wc" (fun bs => Text.encode s!"{count bs}\n") s names input

end ComponentDocs.Program
