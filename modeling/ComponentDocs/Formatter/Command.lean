import ComponentDocs.Layout.Canonical
import ComponentDocs.Process.Basic
/-! Formatters of Markdown. -/
namespace ComponentDocs

inductive FormatError
  | notStarted (program : String) (cause : StartError)
  | failed (program : String) (status : ExitStatus) (errors : String)
  | notText (program : String)
  | other (message : String)
deriving DecidableEq, Repr

def FormatError.message : FormatError → String
  | .notStarted program cause => s!"failed to run formatter '{program}': {cause.message}"
  | .failed program status errors => s!"formatter '{program}' exited with {status.message}: {errors}"
  | .notText program => s!"formatter '{program}' produced non UTF-8 output"
  | .other message => message

abbrev Formatter := String → Except FormatError String

def Formatter.canonical : Formatter := fun text => .ok (Layout.canonicalize text)

/-! Formatters that are programs. -/

namespace Command

def ofLine? (line : String) : Option Command :=
  match (Text.words line.toList).map String.ofList with
  | [] => none
  | program :: args => some ⟨program, args⟩

/-- Stands in arguments for the language to format. -/
def languageMark : String := "\x7bparser\x7d"

def language : String := "markdown"

def prettier : Command := ⟨"prettier", ["--parser", languageMark]⟩

def forMarkdown (c : Command) : Command :=
  { c with args := c.args.map fun arg =>
      String.ofList (Text.replaceAll languageMark.toList language.toList arg.toList) }

end Command

/-- The formatter that gives a text to a program and takes what the program writes. -/
def Formatter.ofCommand (run : Runner) (c : Command) : Formatter := fun text =>
  match run c.forMarkdown (Text.encode text) with
  | .error cause => .error (.notStarted c.program cause)
  | .ok e =>
    if e.status.isSuccess then
      match Text.decode? e.output with
      | some out => .ok out
      | none => .error (.notText c.program)
    else
      let errors := Text.trim (Text.decodeLossy e.errors).toList
      .error (.failed c.program e.status (String.ofList errors))

/-! A text that a program formats goes to it through a pipe, and what the program writes comes back through two others.
The text is sent and both outputs are taken side by side. -/

structure Pipe where
  capacity : Nat
  capacity_pos : 0 < capacity
  bytes : Bytes
  fits : bytes.length ≤ capacity
  isWritten : Bool
  isRead : Bool

namespace Pipe

def empty (capacity : Nat) (h : 0 < capacity) : Pipe :=
  { capacity, capacity_pos := h, bytes := [], fits := Nat.zero_le _, isWritten := true, isRead := true }

def put (p : Pipe) (chunk : Bytes) (h : p.bytes.length + chunk.length ≤ p.capacity) : Pipe :=
  { p with bytes := p.bytes ++ chunk, fits := by rwa [List.length_append] }

def drop (p : Pipe) (n : Nat) : Pipe :=
  { p with bytes := p.bytes.drop n, fits := by rw [List.length_drop]; exact Nat.le_trans (Nat.sub_le _ _) p.fits }

def closeWrite (p : Pipe) : Pipe := { p with isWritten := false }

def closeRead (p : Pipe) : Pipe := { p with isRead := false }

end Pipe

inductive Sink
  | output
  | errors
deriving DecidableEq

/-- What a program writes to a sink: all of it, the pipe it goes through, what was taken from there, and whether the
end was seen. -/
structure Stream where
  pipe : Pipe
  written : Bytes := []
  taken : Bytes := []
  ended : Bool := false

namespace Stream

def put (s : Stream) (chunk : Bytes) (h : s.pipe.bytes.length + chunk.length ≤ s.pipe.capacity) : Stream :=
  { s with pipe := s.pipe.put chunk h, written := s.written ++ chunk }

def take (s : Stream) (n : Nat) : Stream :=
  { s with pipe := s.pipe.drop n, taken := s.taken ++ s.pipe.bytes.take n }

def close (s : Stream) : Stream := { s with pipe := s.pipe.closeWrite }

end Stream

inductive Sender
  | sending (rest : Bytes)
  | finished
  | broken (rest : Bytes)

namespace Sender

def rest : Sender → Bytes
  | sending rest => rest
  | finished => []
  | broken rest => rest

def isSending : Sender → Bool
  | sending _ => true
  | _ => false

end Sender

inductive Child (σ : Type)
  | running (state : σ)
  | ended (status : ExitStatus)

/-- The party that called the program: it takes what the program writes until both sinks end and the program does,
then waits for the sender, and then has a result. -/
inductive Caller
  | taking
  | joining (status : ExitStatus)
  | done (result : Except FormatError String)

/-- What a program may do next. It asks for a number of bytes and goes on with those that it gets, none of them at the
end of its input. It goes on with those of the bytes to write that did not fit. -/
inductive Action (σ : Type)
  | compute (next : σ)
  | read (count : Nat) (next : Bytes → σ)
  | write (sink : Sink) (bytes : Bytes) (next : Bytes → σ)
  | closeInput (next : σ)
  | closeSink (sink : Sink) (next : σ)
  | exit (status : ExitStatus)

structure Exchange (σ : Type) where
  sender : Sender
  child : Child σ
  caller : Caller
  input : Pipe
  received : Bytes
  streams : Sink → Stream

namespace Exchange
variable {σ : Type}

def start (text : String) (input : Pipe) (pipes : Sink → Pipe) (state : σ) : Exchange σ :=
  { sender := .sending (Text.encode text), child := .running state, caller := .taking, input, received := [],
    streams := fun k => { pipe := pipes k } }

def setStream (x : Exchange σ) (k : Sink) (s : Stream) : Exchange σ :=
  { x with streams := fun j => if j = k then s else x.streams j }

def exit (x : Exchange σ) (status : ExitStatus) : Exchange σ :=
  { x with
    child := .ended status, input := x.input.closeRead, streams := fun k => (x.streams k).close }

def result (x : Exchange σ) (c : Command) (text : String) (status : ExitStatus) : Except FormatError String :=
  Formatter.ofCommand (fun _ _ => .ok ⟨(x.streams .output).taken, (x.streams .errors).taken, status⟩) c text

inductive Advance (c : Command) (text : String) (x : Exchange σ) : Exchange σ → Prop
  | send (rest : Bytes) (n : Nat) : x.sender = .sending rest → x.input.isRead = true → 0 < n → n ≤ rest.length →
      (h : x.input.bytes.length + (rest.take n).length ≤ x.input.capacity) →
      Advance c text x { x with sender := .sending (rest.drop n), input := x.input.put (rest.take n) h }
  | finishSending : x.sender = .sending [] →
      Advance c text x { x with sender := .finished, input := x.input.closeWrite }
  | breakOff (rest : Bytes) : x.sender = .sending rest → rest ≠ [] → x.input.isRead = false →
      Advance c text x { x with sender := .broken rest, input := x.input.closeWrite }
  | take (k : Sink) (n : Nat) : x.caller = .taking → 0 < n → n ≤ (x.streams k).pipe.bytes.length →
      Advance c text x (x.setStream k ((x.streams k).take n))
  | seeEnd (k : Sink) : x.caller = .taking → (x.streams k).ended = false → (x.streams k).pipe.bytes = [] →
      (x.streams k).pipe.isWritten = false → Advance c text x (x.setStream k { x.streams k with ended := true })
  | wait (status : ExitStatus) : x.caller = .taking → (∀ k, (x.streams k).ended = true) →
      x.child = .ended status → Advance c text x { x with caller := .joining status }
  | join (status : ExitStatus) : x.caller = .joining status → x.sender.isSending = false →
      Advance c text x { x with caller := .done (x.result c text status) }

/-- A step of the program, which may be killed at any time. -/
inductive Act (acts : σ → Action σ → Prop) (x : Exchange σ) : Exchange σ → Prop
  | compute (p q : σ) : x.child = .running p → acts p (.compute q) → Act acts x { x with child := .running q }
  | read (p : σ) (count n : Nat) (next : Bytes → σ) : x.child = .running p → acts p (.read count next) →
      x.input.isRead = true → 0 < n → n ≤ count → n ≤ x.input.bytes.length →
      Act acts x { x with
        child := .running (next (x.input.bytes.take n)), input := x.input.drop n,
        received := x.received ++ x.input.bytes.take n }
  | readNothing (p : σ) (count : Nat) (next : Bytes → σ) : x.child = .running p → acts p (.read count next) →
      count = 0 ∨ x.input.isRead = false ∨ x.input.bytes = [] ∧ x.input.isWritten = false →
      Act acts x { x with child := .running (next []) }
  | write (p : σ) (k : Sink) (bytes : Bytes) (n : Nat) (next : Bytes → σ) : x.child = .running p →
      acts p (.write k bytes next) → (x.streams k).pipe.isWritten = true → 0 < n → n ≤ bytes.length →
      (h : (x.streams k).pipe.bytes.length + (bytes.take n).length ≤ (x.streams k).pipe.capacity) →
      Act acts x { x.setStream k ((x.streams k).put (bytes.take n) h) with child := .running (next (bytes.drop n)) }
  | writeNothing (p : σ) (k : Sink) (bytes : Bytes) (next : Bytes → σ) : x.child = .running p →
      acts p (.write k bytes next) → bytes = [] ∨ (x.streams k).pipe.isWritten = false →
      Act acts x { x with child := .running (next bytes) }
  | closeInput (p q : σ) : x.child = .running p → acts p (.closeInput q) →
      Act acts x { x with child := .running q, input := x.input.closeRead }
  | closeSink (p q : σ) (k : Sink) : x.child = .running p → acts p (.closeSink k q) →
      Act acts x { x.setStream k (x.streams k).close with child := .running q }
  | exit (p : σ) (status : ExitStatus) : x.child = .running p → acts p (.exit status) → Act acts x (x.exit status)
  | killed (p : σ) (n : Nat) : x.child = .running p → Act acts x (x.exit (.signal n))

end Exchange

end ComponentDocs
