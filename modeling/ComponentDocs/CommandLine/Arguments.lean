/-! The flags of the command line. -/
namespace ComponentDocs.CommandLine

inductive Flag
  | config
  | cwd
  | components
  | outDir
  | outFile
  | watch
  | formatterCommand
  | prettier
  | verbose
  | help
  | version
deriving DecidableEq, Repr

namespace Flag

def all : List Flag :=
  [config, cwd, components, outDir, outFile, watch, formatterCommand, prettier, verbose, help, version]

def long : Flag → String
  | config => "config"
  | cwd => "cwd"
  | components => "components"
  | outDir => "out-dir"
  | outFile => "out-file"
  | watch => "watch"
  | formatterCommand => "formatter-command"
  | prettier => "prettier"
  | verbose => "verbose"
  | help => "help"
  | version => "version"

def short? : Flag → Option Char
  | verbose => some 'v'
  | help => some 'h'
  | version => some 'V'
  | _ => none

def ofLong? (name : String) : Option Flag := all.find? fun f => f.long = name

def ofShort? (c : Char) : Option Flag := all.find? fun f => f.short? = some c

def valueName? : Flag → Option String
  | config => some "PATH"
  | cwd | outDir => some "DIR"
  | components => some "GLOB"
  | outFile => some "FILE"
  | formatterCommand => some "CMD"
  | watch | prettier | verbose | help | version => none

def takesValue (f : Flag) : Bool := f.valueName?.isSome

def isPath : Flag → Bool
  | config | cwd | outDir | outFile => true
  | _ => false

def isRepeatable : Flag → Bool
  | components | verbose => true
  | _ => false

def label (f : Flag) : String :=
  match f, f.valueName? with
  | _, some value => s!"--{f.long} <{value}>"
  | verbose, none => s!"--{f.long}..."
  | _, none => s!"--{f.long}"

end Flag

/-! Reading the arguments of the command line. The value of a flag is looked at when the
next flag is, or at the end. -/

inductive UsageError
  | unexpectedArgument (argument : String)
  | unexpectedValue (value : String) (flag : Flag)
  | missingValue (flag : Flag)
  | repeated (flag : Flag)
  | conflict (flag other : Flag)
deriving DecidableEq, Repr

def UsageError.message : UsageError → String
  | .unexpectedArgument argument => s!"unexpected argument '{argument}' found"
  | .unexpectedValue value flag => s!"unexpected value '{value}' for '{flag.label}' found; no more were expected"
  | .missingValue flag => s!"a value is required for '{flag.label}' but none was supplied"
  | .repeated flag => s!"the argument '{flag.label}' cannot be used multiple times"
  | .conflict flag other => s!"the argument '{flag.label}' cannot be used with '{other.label}'"

/-- Flags with their values, from the first. Flags without a value have an empty one. -/
abbrev Given := List (Flag × String)

namespace Given

def has (g : Given) (f : Flag) : Bool := g.any fun x => x.1 = f

def values (g : Given) (f : Flag) : List String := g.filterMap fun x => if x.1 = f then some x.2 else none

def value? (g : Given) (f : Flag) : Option String := (g.values f).head?

def accept (g : Given) (f : Flag) (value : String) : Except UsageError Given :=
  if !f.isRepeatable && g.has f then .error (.repeated f)
  else if f.isPath && value.isEmpty then .error (.missingValue f)
  else .ok (g ++ [(f, value)])

end Given

inductive Demand
  | run (given : Given)
  | help
  | version
deriving DecidableEq, Repr

abbrev Pending := Option (Flag × Option String)

def settle (g : Given) : Pending → Except UsageError Given
  | none => .ok g
  | some (f, none) => .error (.missingValue f)
  | some (f, some value) => g.accept f value

def take (g : Given) : Flag → Except UsageError (Demand ⊕ Given)
  | .help => .ok (.inl .help)
  | .version => .ok (.inl .version)
  | f => (g.accept f "").map .inr

def takeShort : List Char → Given → Pending → Except UsageError (Demand ⊕ (Given × Pending))
  | [], g, pending => .ok (.inr (g, pending))
  | c :: cs, g, pending =>
    match Flag.ofShort? c with
    | none => .error (.unexpectedArgument (String.ofList ['-', c]))
    | some f => do
      match ← take (← settle g pending) f with
      | .inl d => .ok (.inl d)
      | .inr g => takeShort cs g none

def splitValue (cs : List Char) : String × Option String :=
  let name := cs.takeWhile (· ≠ '=')
  (String.ofList name,
    match cs.drop name.length with
    | [] => none
    | _ :: value => some (String.ofList value))

/-- The end of the arguments. Of two flags that exclude each other, the first is named first. -/
def finish (g : Given) : Except UsageError Demand :=
  match g.find? fun x => x.1 = .prettier || x.1 = .formatterCommand with
  | some (.prettier, _) =>
    if g.has .formatterCommand then .error (.conflict .prettier .formatterCommand) else .ok (.run g)
  | some (f, _) => if g.has .prettier then .error (.conflict f .prettier) else .ok (.run g)
  | none => .ok (.run g)

def read : List String → Given → Pending → Except UsageError Demand
  | [], g, pending => do finish (← settle g pending)
  | a :: rest, g, pending =>
    match a.toList with
    | ['-', '-'] =>
      match rest with
      | [] => do finish (← settle g pending)
      | x :: _ => .error (.unexpectedArgument x)
    | '-' :: '-' :: cs =>
      let (name, value?) := splitValue cs
      match Flag.ofLong? name with
      | none => .error (.unexpectedArgument ("--" ++ name))
      | some f =>
        match f.takesValue, value? with
        | true, some value => do read rest (← (← settle g pending).accept f value) none
        | true, none => do read rest (← settle g pending) (some (f, none))
        | false, some value => .error (.unexpectedValue value f)
        | false, none => do
          match ← take (← settle g pending) f with
          | .inl d => .ok d
          | .inr g => read rest g none
    | '-' :: c :: cs => do
      match ← takeShort (c :: cs) g pending with
      | .inl d => .ok d
      | .inr (g, pending) => read rest g pending
    | _ =>
      match pending with
      | some (f, none) => read rest g (some (f, some a))
      | _ => .error (.unexpectedArgument a)

def Demand.ofArguments (args : List String) : Except UsageError Demand := read args [] none

end ComponentDocs.CommandLine
