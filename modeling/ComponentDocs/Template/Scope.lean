import ComponentDocs.Template.Value
/-! Templates as trees: texts, values to show, and calls of helpers with what they
enclose. -/
namespace ComponentDocs.Template

structure Position where
  line : Nat
  column : Nat
deriving DecidableEq, Repr, Inhabited

inductive Step
  | root
  /-- `@`: a variable of the enclosing block. -/
  | variable_
  | up
  | field (name : String)
deriving DecidableEq, Repr

structure Reference where
  text : String
  steps : List Step
deriving DecidableEq, Repr, Inhabited

inductive Param
  | literal (v : Value)
  | data (r : Reference)
  /-- A call in parentheses. The named parameters are given by their names and values. -/
  | call (helper : String) (params : List Param) (keys : List String) (values : List Param)
deriving Repr, Inhabited

structure Arguments where
  params : List Param := []
  keys : List String := []
  values : List Param := []
deriving Repr

def Arguments.isEmpty (a : Arguments) : Bool := a.params.isEmpty && a.keys.isEmpty

structure Call where
  helper : String
  arguments : Arguments := {}
  binds : List String := []
deriving Repr

inductive IncludeName
  | literal (name : String)
  | computed (p : Param)
deriving Repr

mutual

inductive Element
  | text (s : String)
  /-- A value to show. A reference by the name of a helper calls it. -/
  | value (p : Param)
  | call (c : Call)
  | block (c : Call) (body inverse : Option Body)
  | decorator (c : Call) (body : Option Body)
  /-- Another template. Its lines are indented like the first. -/
  | insert (name : IncludeName) (arguments : Arguments) (indent : Option String) (body : Option Body)
  | comment

inductive Body
  | nil
  | cons (place : Option Position) (e : Element) (rest : Body)

end

instance : Inhabited Body := ⟨.nil⟩

instance : Inhabited Element := ⟨.comment⟩

namespace Body

def ofList : List (Option Position × Element) → Body
  | [] => .nil
  | (p, e) :: rest => .cons p e (ofList rest)

end Body

/-! What a reference stands for at a place of a template. -/

inductive Reason
  | helperNotFound (name : String)
  | missingParam (helper : String) (index : Nat)
  | missingNamedParam (helper name : String)
  | wrongType (helper name type : String)
  | decoratorNotFound (name : String)
  | notAString
  | needsBody
  | insertNotFound (name : String)
  | insertsItself
  | badLevel (level : String)
  | badIndex (key : String)
  | tooDeep
deriving DecidableEq, Repr

def Reason.message : Reason → String
  | .helperNotFound name => "Helper not found " ++ name
  | .missingParam helper index => s!"Helper/Decorator {helper} param at index {index} required but not found"
  | .missingNamedParam helper name => s!"Helper/Decorator {helper} param with name {name} required but not found"
  | .wrongType helper name type => s!"Helper/Decorator {helper} param with name {name} type mismatch for {type}"
  | .decoratorNotFound name => "Decorator not found " ++ name
  | .notAString => "Invalid param type, String expected"
  | .needsBody => "Block content required"
  | .insertNotFound name => "Partial not found " ++ name
  | .insertsItself => "Can not include current template in partial"
  | .badLevel level => "Invalid logging level: " ++ level
  | .badIndex key => "Cannot access array/vector with string index, " ++ key
  | .tooDeep => "Template nesting too deep"

inductive Found
  | missing
  /-- A part of the data, by the keys that lead there. -/
  | inData (path : List String) (v : Value)
  | free (v : Value)
deriving Inhabited

def Found.value : Found → Value
  | .missing => .null
  | .inData _ v => v
  | .free v => v

inductive Bound
  | value (v : Value)
  | here

structure Scope where
  /-- Where the body stands in the data, unless it stands at a value on its own. -/
  path : List String := []
  value : Option Value := none
  bound : List (String × Bound) := []
  assigned : List (String × Value) := []

abbrev Scopes := List Scope

/-- An index of 64 bits, in decimal. -/
private def index? (key : String) : Option Nat :=
  let digits := match key.toList with
    | '+' :: rest => rest
    | cs => cs
  if digits.isEmpty || !digits.all Char.isDigit then none
  else
    let n := digits.foldl (fun n d => 10 * n + (d.toNat - '0'.toNat)) 0
    if n < Nat.pow 2 64 then some n else none

private def child (key : String) : Value → Except Reason (Option Value)
  | .array items =>
    match index? key with
    | some i => .ok items[i]?
    | none => .error (.badIndex key)
  | .object fields => .ok (fields.lookup key)
  | _ => .ok none

def descend (v : Value) : List String → Except Reason (Option Value)
  | [] => .ok (some v)
  | k :: ks => do
    match ← child k v with
    | some w => descend w ks
    | none => .ok none

private def fieldsOf (steps : List Step) : List String :=
  steps.filterMap fun
    | .field name => some name
    | _ => none

private def inValue (v : Value) (keys : List String) : Except Reason Found :=
  (descend v keys).map fun r => (r.map Found.free).getD .missing

private def inData (data : Value) (keys : List String) : Except Reason Found :=
  (descend data keys).map fun r => (r.map (Found.inData keys)).getD .missing

private def inScope (data : Value) (scope : Scope) (keys : List String) : Except Reason Found :=
  match scope.value with
  | some v => inValue v keys
  | none => inData data (scope.path ++ keys)

private def bound? (name : String) : Scopes → Option (Bound × List String)
  | [] => none
  | s :: outer =>
    match s.bound.lookup name with
    | some b => some (b, s.path)
    | none => bound? name outer

/-- The first step of a reference that says where it starts, after `ups` steps up. What a block
hands over takes the place of the first step of all, so that after a step up its name is looked up
in it. -/
private def start (data : Value) (scopes : Scopes) (steps : List Step) (ups : Nat) : List Step → Except Reason Found
  | .up :: rest => start data scopes steps (ups + 1) rest
  | .field name :: _ =>
    match bound? name scopes with
    | some (.value v, _) => inValue v (fieldsOf (steps.drop 1))
    | some (.here, path) => inData data (path ++ fieldsOf (steps.drop 1))
    | none => relative
  | .root :: _ => if ups = 0 then inData data (fieldsOf steps) else relative
  | _ => relative
where
  relative : Except Reason Found :=
    let scope := if ups = 0 then scopes.head? else scopes[ups]? <|> scopes.head?
    inScope data (scope.getD {}) (fieldsOf (steps.drop ups))

private def variableAt (scopes : Scopes) (level : Nat) : List Step → Option Found
  | .up :: rest => variableAt scopes (level + 1) rest
  | .field name :: _ =>
    some (((scopes[level]?.bind fun s => s.assigned.lookup name).map Found.free).getD .missing)
  | _ => none

def resolve (data : Value) (scopes : Scopes) (steps : List Step) : Except Reason Found :=
  let asVariable := match steps with
    | .variable_ :: rest => variableAt scopes 0 rest
    | _ => none
  match asVariable with
  | some found => .ok found
  | none => start data scopes steps 0 steps

/-! The helpers that templates can call. -/

inductive Helper
  | if_
  | unless_
  | each
  | with_
  | raw
  | log
  | lookup
  | eq
  | ne
  | gt
  | gte
  | lt
  | lte
  | and
  | or
  | not
  | len
deriving DecidableEq, Repr

structure Given where
  params : List Found := []
  named : List (String × Value) := []

def Given.get? (g : Given) (name : String) : Option Value := g.named.reverse.lookup name

namespace Helper

def names : List (String × Helper) :=
  [("if", if_), ("unless", unless_), ("each", each), ("with", with_), ("raw", raw), ("log", log),
    ("lookup", lookup), ("eq", eq), ("ne", ne), ("gt", gt), ("gte", gte), ("lt", lt), ("lte", lte),
    ("and", and), ("or", or), ("not", not), ("len", len)]

def ofName? (name : String) : Option Helper := names.lookup name

def param (g : Given) (helper : String) (index : Nat) : Except Reason Found :=
  match g.params[index]? with
  | some p => .ok p
  | none => .error (.missingParam helper index)

private def value (g : Given) (helper name : String) (index : Nat) : Except Reason Value :=
  match g.params[index]? with
  | some p => .ok p.value
  | none => .error (.missingNamedParam helper name)

private def integer (g : Given) (helper name : String) (index : Nat) : Except Reason Int := do
  match ← value g helper name index with
  | .number (.whole n) => if n < Int.pow 2 63 then .ok n else .error (.wrongType helper name "i64")
  | _ => .error (.wrongType helper name "i64")

private def onValues (g : Given) (helper : String) (f : Value → Value → Bool) : Except Reason Found := do
  let x ← value g helper "x" 0
  let y ← value g helper "y" 1
  .ok (.free (.boolean (f x y)))

private def onIntegers (g : Given) (helper : String) (f : Int → Int → Bool) : Except Reason Found := do
  let x ← integer g helper "x" 0
  let y ← integer g helper "y" 1
  .ok (.free (.boolean (f x y)))

private def lookupIn (collection index : Value) : Found :=
  match collection, index with
  | .array items, .number (.whole n) =>
    if n < 0 then .missing else ((items[n.toNat]?).map Found.free).getD .missing
  | .object fields, .string key => ((fields.lookup key).map Found.free).getD .missing
  | _, _ => .missing

private def size : Value → Nat
  | .array items => items.length
  | .object fields => fields.length
  | .string s => s.utf8ByteSize
  | _ => 0

def compute? (h : Helper) (g : Given) : Option (Except Reason Found) :=
  match h with
  | lookup => some do
    let collection ← param g "lookup" 0
    let index ← param g "lookup" 1
    .ok (lookupIn collection.value index.value)
  | eq => some (onValues g "eq" Value.same)
  | ne => some (onValues g "ne" fun x y => !x.same y)
  | gt => some (onIntegers g "gt" fun x y => y < x)
  | gte => some (onIntegers g "gte" fun x y => y ≤ x)
  | lt => some (onIntegers g "lt" fun x y => x < y)
  | lte => some (onIntegers g "lte" fun x y => x ≤ y)
  | and => some (onValues g "and" fun x y => x.isTruthy false && y.isTruthy false)
  | or => some (onValues g "or" fun x y => x.isTruthy false || y.isTruthy false)
  | not => some do .ok (.free (.boolean (!(← value g "not" "x" 0).isTruthy false)))
  | len => some do .ok (.free (.ofNat (size (← value g "len" "x" 0))))
  | if_ | unless_ | each | with_ | raw | log => none

private def levels : List String := ["error", "warn", "info", "debug", "trace"]

/-- A message to the log needs one of the levels, in any case of letters. -/
def checkLevel (g : Given) : Except Reason Unit :=
  match g.get? "level" with
  | some (.string level) =>
    if levels.contains (level.map Char.toLower) then .ok () else .error (.badLevel level)
  | _ => .ok ()

end Helper

end ComponentDocs.Template
