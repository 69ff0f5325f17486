import ComponentDocs.Process.Edit
/-! Scripts of commands: what they are, and how they are read. They and the programs by
name are stand-ins for those of the system, which only runs call. -/
namespace ComponentDocs.Script

inductive Part
  | text (cs : List Char)
  | status
  | process
deriving DecidableEq, Repr

abbrev Word := List Part

inductive Stream
  | output
  | errors
  | nowhere
deriving DecidableEq, Repr

inductive Redirect
  | output (goal : Stream)
  | errors (goal : Stream)
  | noInput
deriving DecidableEq, Repr

structure Call where
  words : List Word := []
  redirects : List Redirect := []
deriving DecidableEq, Repr

inductive Condition
  | always
  | onSuccess
  | onFailure
deriving DecidableEq, Repr

abbrev Pipeline := List Call

end Script

abbrev Script := List (Script.Condition × Script.Pipeline)

namespace Script

inductive Token
  | word (w : Word)
  | redirect (r : Redirect)
  | pipe
  | next (condition : Condition)
deriving DecidableEq, Repr

/-- Redirections by their spelling, none of which begins another one that stands after it. -/
def redirects : List (String × Redirect) :=
  [("1>&2", .output .errors), (">&2", .output .errors), ("2>&1", .errors .output), (">&1", .output .output),
    ("2>/dev/null", .errors .nowhere), ("2> /dev/null", .errors .nowhere),
    ("1>/dev/null", .output .nowhere), (">/dev/null", .output .nowhere), ("> /dev/null", .output .nowhere),
    ("1>/dev/stderr", .output .errors), (">/dev/stderr", .output .errors), ("> /dev/stderr", .output .errors),
    ("</dev/null", .noInput), ("< /dev/null", .noInput)]

def operators : List (String × Token) :=
  [("&&", .next .onSuccess), ("||", .next .onFailure), ("|", .pipe), (";", .next .always), ("\n", .next .always)]

def operator? (cs : List Char) : Option (Token × Nat) :=
  let spelled := (redirects.map fun x => (x.1, Token.redirect x.2)) ++ operators
  spelled.findSome? fun x => if x.1.toList.isPrefixOf cs then some (x.2, x.1.length) else none

private abbrev Open := Option (List Part)

private def Open.add (w : Open) (c : Char) : Open :=
  match w with
  | some (.text cs :: ps) => some (.text (cs ++ [c]) :: ps)
  | some ps => some (.text [c] :: ps)
  | none => some [.text [c]]

private def Open.close (w : Open) : List Token :=
  match w with
  | some ps => [.word ps.reverse]
  | none => []

private inductive Quote
  | none
  | single
  | double
deriving DecidableEq

private def tokens : (fuel : Nat) → Quote → Open → List Char → Option (List Token)
  | 0, _, _, _ => none
  | _, .none, w, [] => some w.close
  | _, _, _, [] => none
  | fuel + 1, .single, w, c :: cs =>
    if c = '\'' then tokens fuel .none w cs else tokens fuel .single (w.add c) cs
  | fuel + 1, q, w, '$' :: '$' :: cs => tokens fuel q (some (.process :: w.getD [])) cs
  | fuel + 1, q, w, '$' :: '?' :: cs => tokens fuel q (some (.status :: w.getD [])) cs
  | fuel + 1, .double, w, '\\' :: c :: cs =>
    if ['$', '"', '\\', '\u0060'].contains c then tokens fuel .double (w.add c) cs
    else tokens fuel .double ((w.add '\\').add c) cs
  | fuel + 1, .double, w, c :: cs =>
    if c = '"' then tokens fuel .none w cs else tokens fuel .double (w.add c) cs
  | fuel + 1, .none, w, '\\' :: '\n' :: cs => tokens fuel .none w cs
  | fuel + 1, .none, w, '\\' :: c :: cs => tokens fuel .none (w.add c) cs
  | fuel + 1, .none, w, c :: cs =>
    if c = '\'' then tokens fuel .single (some (w.getD [])) cs
    else if c = '"' then tokens fuel .double (some (w.getD [])) cs
    else if c = ' ' || c = '\t' then (tokens fuel .none Option.none cs).map (w.close ++ ·)
    else if c = '#' && w.isNone then tokens fuel .none Option.none (cs.dropWhile (· ≠ '\n'))
    else
      match operator? (c :: cs) with
      | some (.redirect r, n) =>
        if c.isDigit && w.isSome then tokens fuel .none (w.add c) cs
        else (tokens fuel .none Option.none (cs.drop (n - 1))).map (w.close ++ .redirect r :: ·)
      | some (t, n) => (tokens fuel .none Option.none (cs.drop (n - 1))).map (w.close ++ t :: ·)
      | none => tokens fuel .none (w.add c) cs

private def Call.add (c : Call) : Token → Call
  | .word w => { c with words := c.words ++ [w] }
  | .redirect r => { c with redirects := c.redirects ++ [r] }
  | _ => c

/-- Puts tokens together. `before` holds the calls of the pipeline that is being read. -/
private def assemble (condition : Condition) (before : Pipeline) (call : Call) : List Token → Script
  | [] => [(condition, before ++ [call])]
  | .pipe :: ts => assemble condition (before ++ [call]) {} ts
  | .next c :: ts => (condition, before ++ [call]) :: assemble c [] {} ts
  | t :: ts => assemble condition before (call.add t) ts

def ofString? (text : String) : Option Script :=
  let cs := text.toList
  (tokens (2 * cs.length + 1) .none none cs).map fun ts =>
    (assemble .always [] {} ts).filter fun (_, p) => p ≠ [{}]

end Script

end ComponentDocs

/-! Programs by name, and the program that carries out scripts. -/
namespace ComponentDocs

namespace Program

def idle (code : Nat) : Program := fun _ _ input => { status := .code code, rest := input }

def named : List (String × Program) :=
  [("cat", cat), ("head", head), ("tail", tail), ("tr", tr), ("sed", sed), ("sort", sort), ("uniq", uniq),
    ("tac", tac), ("rev", rev), ("wc", wc), ("echo", echo false), ("printf", printf), ("true", idle 0),
    ("false", idle 1), ("sleep", idle 0)]

end Program

namespace Shell

/-- The number that stands for the process of a script. -/
def processNumber : String := "1"

private structure State where
  written : Bytes := []
  complaints : Bytes := []
  input : Bytes
  status : ExitStatus := .code 0
  ended : Bool := false

def statusNumber : ExitStatus → Nat
  | .code n => n
  | .signal n => 128 + n

private def expand (status : ExitStatus) (w : Script.Word) : String :=
  String.join (w.map fun
    | .text cs => String.ofList cs
    | .status => toString (statusNumber status)
    | .process => processNumber)

def signal? (name : String) : Option Nat :=
  match name.toNat? with
  | some n => some n
  | none =>
    let name := if name.startsWith "SIG" then String.ofList (name.toList.drop 3) else name
    (ExitStatus.signalNames.idxOf? name).map (· + 1)

def terminate : Nat := 15

def kill? : List String → Option (Nat × List String)
  | "-s" :: name :: targets => (signal? name).map (·, targets)
  | a :: targets =>
    match a.toList with
    | '-' :: name => (signal? (String.ofList name)).map (·, targets)
    | _ => some (terminate, a :: targets)
  | [] => none

def harmless : List Nat := [0, 17, 18, 23, 28]

/-- The end of the process of the script, if a call brings it about. -/
private def ending? (status : ExitStatus) : List String → Option ExitStatus
  | ["exit"] => some status
  | "exit" :: n :: _ => some (match n.toNat? with
    | some n => .code (n % 256)
    | none => .code 2)
  | "kill" :: args =>
    match kill? args with
    | some (n, targets) =>
      if targets.contains processNumber && !harmless.contains n then some (.signal n) else none
    | none => none
  | _ => none

private def call (find : String → Option Program) (s : Surroundings) (words : List String) (input : Bytes) : Run :=
  match words with
  | [] | ":" :: _ | "kill" :: _ => { rest := input }
  | name :: args =>
    let program? := if name = "echo" then some (Program.echo true) else find name
    match program? with
    | some program => program s args input
    | none =>
      { errors := Text.encode s!"sh: 1: {name}: not found\n", status := .code 127, rest := input }

private def streams (redirects : List Script.Redirect) : Script.Stream × Script.Stream :=
  let follow (now : Script.Stream × Script.Stream) : Script.Stream → Script.Stream
    | .output => now.1
    | .errors => now.2
    | .nowhere => .nowhere
  redirects.foldl (fun now r =>
    match r with
    | .output goal => (follow now goal, now.2)
    | .errors goal => (now.1, follow now goal)
    | .noInput => now) (.output, .errors)

private def sent (goal : Script.Stream) (r : Run) (goals : Script.Stream × Script.Stream) : Bytes :=
  (if goals.1 = goal then r.output else []) ++ (if goals.2 = goal then r.errors else [])

private def runCall (find : String → Option Program) (s : Surroundings) (status : ExitStatus) (c : Script.Call)
    (input : Bytes) : Run :=
  let words := c.words.map (expand status)
  let words := if words.head? = some "exec" then words.drop 1 else words
  let noInput := c.redirects.contains .noInput
  let r := call find s words (if noInput then [] else input)
  let goals := streams c.redirects
  { output := sent .output r goals
    errors := sent .errors r goals
    status := r.status
    rest := if noInput then input else r.rest }

private def runPipeline (find : String → Option Program) (s : Surroundings) (status : ExitStatus) :
    Script.Pipeline → Bytes → Run
  | [], input => { rest := input }
  | [c], input => runCall find s status c input
  | c :: cs, input =>
    let first := runCall find s status c input
    let others := runPipeline find s status cs first.output
    { others with errors := first.errors ++ others.errors, rest := first.rest }

private def replaces : Script.Pipeline → Bool
  | [c] => c.words.head? = some [.text "exec".toList] && c.words.length > 1
  | _ => false

private def step (find : String → Option Program) (s : Surroundings) (st : State)
    (part : Script.Condition × Script.Pipeline) : State :=
  let runs := !st.ended && (match part.1 with
    | .always => true
    | .onSuccess => st.status.isSuccess
    | .onFailure => !st.status.isSuccess)
  if !runs then st
  else
    let ending := match part.2 with
      | [c] => ending? st.status (c.words.map (expand st.status))
      | _ => none
    match ending with
    | some status => { st with status, ended := true }
    | none =>
      let r := runPipeline find s st.status part.2 st.input
      { written := st.written ++ r.output
        complaints := st.complaints ++ r.errors
        input := r.rest
        status := if replaces part.2 then r.status else .code (statusNumber r.status)
        ended := replaces part.2 }

def runScript (find : String → Option Program) (text : String) : Program := fun s _ input =>
  match Script.ofString? text with
  | none =>
    { errors := Text.encode "sh: 1: Syntax error: Unterminated quoted string\n", status := .code 2, rest := input }
  | some script =>
    let st := script.foldl (step find s) { input }
    { output := st.written, errors := st.complaints, status := st.status, rest := st.input }

def names : List String := ["sh", "bash", "dash"]

/-- The program for scripts. Scripts may call it again so many times. -/
def shell : (depth : Nat) → Program
  | 0 => Program.idle 2
  | depth + 1 =>
    let find (name : String) : Option Program :=
      if names.contains name then some (shell depth) else Program.named.lookup name
    fun s args input =>
      match args with
      | [] => runScript find (Text.decodeLossy input) s [] []
      | "-c" :: text :: _ => runScript find text s [] input
      | ["-c"] => { errors := Text.encode "sh: 0: -c requires an argument\n", status := .code 2, rest := input }
      | name :: _ =>
        match Program.readFile s name with
        | .ok bytes => runScript find (Text.decodeLossy bytes) s [] input
        | .error _ =>
          { errors := Text.encode s!"sh: 0: cannot open {name}: No such file\n", status := .code 2, rest := input }

def maxDepth : Nat := 16

end Shell

end ComponentDocs

/-! The programs that commands may name. -/
namespace ComponentDocs.Host

def directories : List String := ["/usr/local/bin/", "/usr/bin/", "/bin/"]

def installed? (name : String) : Option Program :=
  if Shell.names.contains name then some (Shell.shell Shell.maxDepth) else Program.named.lookup name

private def atPath (s : Surroundings) (path : String) : Except FileError Program :=
  let inDirectory := directories.findSome? fun d =>
    if d.toList.isPrefixOf path.toList then installed? (String.ofList (path.toList.drop d.length)) else none
  match inDirectory with
  | some program => .ok program
  | none =>
    match s.tree.find s.cwd (.ofString path) with
    | .error e => .error e
    | .ok _ => .error .permissionDenied

private def find (s : Surroundings) (name : String) : Except FileError Program :=
  if name.contains '/' then atPath s name
  else if name = "." || name = ".." then .error .permissionDenied
  else if FileTree.maxNameBytes < name.utf8ByteSize then .error .nameTooLong
  else
    match installed? name with
    | some program => .ok program
    | none => .error .notFound

def run (s : Surroundings) : Runner := fun c input =>
  if (c.program :: c.args).any (·.contains '\x00') then .error .nulByte
  else
    match find s c.program with
    | .error e => .error (.file e)
    | .ok program => .ok (program s c.args input).toExecution

end ComponentDocs.Host
