import ComponentDocs.FileTree.Basic
import ComponentDocs.Text.Basic
/-! Programs that read bytes and write bytes, seen from outside: how one is called,
how it ends, and why it may not start. -/
namespace ComponentDocs

inductive ExitStatus
  | code (n : Nat)
  | signal (n : Nat)
deriving DecidableEq, Repr

namespace ExitStatus

def isSuccess (s : ExitStatus) : Bool := s = .code 0

def signalNames : List String :=
  ["HUP", "INT", "QUIT", "ILL", "TRAP", "ABRT", "BUS", "FPE", "KILL", "USR1", "SEGV", "USR2", "PIPE",
   "ALRM", "TERM", "STKFLT", "CHLD", "CONT", "STOP", "TSTP", "TTIN", "TTOU", "URG", "XCPU", "XFSZ",
   "VTALRM", "PROF", "WINCH", "IO", "PWR", "SYS"]

def signalName? (n : Nat) : Option String := if n = 0 then none else signalNames[n - 1]?

def message : ExitStatus → String
  | .code n => s!"exit status: {n}"
  | .signal n => s!"signal: {n}" ++ ((signalName? n).map fun name => s!" (SIG{name})").getD ""

end ExitStatus

structure Command where
  program : String
  args : List String
deriving DecidableEq, Repr

structure Execution where
  output : Bytes := []
  errors : Bytes := []
  status : ExitStatus := .code 0
deriving DecidableEq, Repr

inductive StartError
  | nulByte
  | file (cause : FileError)
deriving DecidableEq, Repr

def StartError.message : StartError → String
  | .nulByte => "nul byte found in provided data"
  | .file cause => cause.message

/-- A way to run commands on an input. -/
abbrev Runner := Command → Bytes → Except StartError Execution

end ComponentDocs
