import ComponentDocs.Path.Basic
import ComponentDocs.Template.Parse
/-! Rendering a template with data. -/
namespace ComponentDocs.Template

structure RenderError where
  reason : Reason
  place : Option Position := none
deriving DecidableEq, Repr

def fail {α : Type} (r : Reason) : Except RenderError α := .error ⟨r, none⟩

def lift {α : Type} : Except Reason α → Except RenderError α
  | .ok a => .ok a
  | .error r => fail r

def locate {α : Type} (place : Option Position) : Except RenderError α → Except RenderError α
  | .ok a => .ok a
  | .error e => .error { e with place := e.place <|> place }

structure Source where
  name : String
  body : Body
  data : Value

structure State where
  out : String := ""
  scopes : Scopes := [{}]
  inserts : List (String × Body) := []
  /-- The bodies of the insertions around, from the innermost. -/
  bodies : List Body := []
  /-- The number of those that are in use. -/
  depth : Nat := 0
  atTop : Bool := true
  indent : Option String := none

namespace State

/-- Puts `indent` after each line feed that is not the last character. -/
def indentLines (indent : List Char) : List Char → List Char
  | [] => []
  | c :: cs => if c == '\n' && !cs.isEmpty then c :: indent ++ indentLines indent cs else c :: indentLines indent cs

def put (s : State) (text : String) : State := { s with out := s.out ++ text }

def write (s : State) (text : String) : State :=
  s.put (match s.indent with
    | none => text
    | some indent => String.ofList (indentLines indent.toList text.toList))

end State

mutual

def eval (data : Value) (scopes : Scopes) : Param → Except Reason Found
  | .literal v => .ok (.free v)
  | .data r => resolve data scopes r.steps
  | .call helper params keys values => do
    let given : Given := ⟨← evalAll data scopes params, keys.zip ((← evalAll data scopes values).map Found.value)⟩
    match Helper.ofName? helper with
    | none => .error (.helperNotFound helper)
    | some h =>
      match h.compute? given with
      | some found => found
      | none => do
        match h with
        | .if_ | .unless_ => discard (Helper.param given "if" 0)
        | .each => discard (Helper.param given "each" 0)
        | .with_ => discard (Helper.param given "with" 0)
        | .log => Helper.checkLevel given
        | _ => pure ()
        .ok (.free (.string ""))

def evalAll (data : Value) (scopes : Scopes) : List Param → Except Reason (List Found)
  | [] => .ok []
  | p :: ps => do
    let found ← eval data scopes p
    .ok (found :: (← evalAll data scopes ps))

end

def evalArguments (data : Value) (scopes : Scopes) (a : Arguments) : Except Reason Given := do
  let params ← evalAll data scopes a.params
  .ok ⟨params, a.keys.zip ((← evalAll data scopes a.values).map Found.value)⟩

def renderBody (element : Element → State → Except RenderError State) : Body → State → Except RenderError State
  | .nil, s => .ok s
  | .cons place e rest, s => do renderBody element rest (← locate place (element e s))

abbrev Renderer := Body → State → Except RenderError State

/-- Renders a body that is not the top of the template, if there is one. -/
def inner (render : Renderer) (body : Option Body) (s : State) : Except RenderError State :=
  match body with
  | some b => render b { s with atTop := false }
  | none => .ok s

def within (render : Renderer) (scope : Scope) (body : Option Body) (s : State) : Except RenderError State := do
  let t ← inner render body { s with scopes := scope :: s.scopes }
  .ok { t with scopes := s.scopes }

def isTruthy (v : Value) (g : Given) : Bool :=
  v.isTruthy (match g.get? "includeZero" with
    | some (.boolean b) => b
    | _ => false)

def scopeOf : Found → Scope
  | .inData path _ => { path }
  | found => { value := some found.value }

def partScope (whole : Found) (key : String) (v : Value) : Scope :=
  match whole with
  | .inData path _ => { path := path ++ [key] }
  | _ => { value := some v }

def boundIn (scope : Scope) (v : Value) : Bound :=
  match scope.value with
  | some _ => .value v
  | none => .here

def bindItem (binds : List String) (scope : Scope) (key v : Value) : Scope :=
  match binds with
  | [name] => { scope with bound := [(name, boundIn scope v)] }
  | [name, keyName] => { scope with bound := [(keyName, .value key), (name, boundIn scope v)] }
  | _ => scope

/-- Renders a body for each of some items, which come with their keys. `counter` names the
variable for the key. -/
def renderEach (render : Renderer) (whole : Found) (binds : List String) (body : Body) (counter : String)
    (last : Nat) : Nat → List (String × Value × Value) → State → Except RenderError State
  | _, [], s => .ok s
  | i, (key, keyValue, v) :: items, s => do
    let scope := bindItem binds (partScope whole key v) keyValue v
    let scope := { scope with
      assigned := [("first", .boolean (i == 0)), ("last", .boolean (i == last)), (counter, keyValue)] }
    renderEach render whole binds body counter last (i + 1) items (← within render scope (some body) s)

def numbered (vs : List Value) : List (String × Value × Value) :=
  vs.zipIdx.map fun (v, i) => (toString i, .ofNat i, v)

def callBlock (render : Renderer) (h : Helper) (g : Given) (binds : List String) (body inverse : Option Body)
    (s : State) : Except RenderError State := do
  match h with
  | .if_ | .unless_ =>
    let p ← lift (Helper.param g "if" 0)
    inner render (if isTruthy p.value g == (h == .if_) then body else inverse) s
  | .each =>
    let p ← lift (Helper.param g "each" 0)
    match body with
    | none => .ok s
    | some b =>
      let all (counter : String) (items : List (String × Value × Value)) : Except RenderError State :=
        if items.isEmpty then inner render inverse s
        else renderEach render p binds b counter (items.length - 1) 0 items s
      match p.value with
      | .array vs => all "index" (numbered vs)
      | .object fs => all "key" (fs.map fun (k, v) => (k, .string k, v))
      | _ => inner render inverse s
  | .with_ =>
    let p ← lift (Helper.param g "with" 0)
    if p.value.isTruthy false then
      let scope := scopeOf p
      let scope := match binds with
        | [name] => { scope with bound := [(name, boundIn scope p.value)] }
        | _ => scope
      within render scope body s
    else inner render inverse s
  | .raw => inner render body s
  | .log => do
    lift (Helper.checkLevel g)
    .ok s
  | _ => .ok s

def callHelper (render : Renderer) (name : String) (g : Given) (binds : List String) (body inverse : Option Body)
    (s : State) : Except RenderError State :=
  match Helper.ofName? name with
  | none => fail (.helperNotFound name)
  | some h =>
    match h.compute? g with
    | some found => (lift found).map fun f => s.put f.value.render
    | none => callBlock render h g binds body inverse s

/-- Carries a decorator out. The only one there is defines a template to insert. -/
def decorate (data : Value) (c : Call) (body : Option Body) (s : State) : Except RenderError State := do
  let g ← lift (evalArguments data s.scopes c.arguments)
  if c.helper != "inline" then fail (.decoratorNotFound c.helper)
  else
    match (← lift (Helper.param g "inline" 0)).value, body with
    | .string name, some b => .ok { s with inserts := (name, b) :: s.inserts }
    | .string _, none => fail .needsBody
    | _, _ => fail .notAString

def decorateAll (data : Value) : Body → State → Except RenderError State
  | .nil, s => .ok s
  | .cons place e rest, s => do
    match e with
    | .decorator c body => decorateAll data rest (← locate place (decorate data c body s))
    | _ => decorateAll data rest s

def bodyName : String := "@partial-block"

def findInsert (source : Source) (name : String) (body : Option Body) (s : State) : Option (Body × Bool) :=
  let defined := if name == bodyName then s.bodies[s.depth]? else s.inserts.lookup name
  match defined with
  | some b => some (b, false)
  | none => if name == source.name then some (source.body, true) else body.map (·, false)

def merged (v : Value) (fields : List (String × Value)) : Value :=
  let own := match v with
    | .object fs => fs
    | _ => []
  .ofFields (own ++ fields)

/-- The scopes of an inserted template: those around, or one scope for what it is given. -/
def insertScopes (data : Value) (g : Given) (scopes : Scopes) : Except Reason Scopes := do
  let scopes := match g.params.head? with
    | some (.inData path _) => [{ path }]
    | _ => scopes
  if g.named.isEmpty then .ok scopes
  else
    let current ← resolve data scopes []
    .ok [{ (scopes.head?.getD {}) with value := some (merged current.value g.named) }]

def renderInsert (source : Source) (render : Renderer) (name : String) (g : Given) (indent : Option String)
    (body : Option Body) (s : State) : Except RenderError State := do
  let s ← match body with
    | some b => decorateAll source.data b s
    | none => .ok s
  if s.atTop && name == source.name then fail .insertsItself
  else
    match findInsert source name body s with
    | none => fail (.insertNotFound name)
    | some (found, isTop) =>
      let t ← render found { s with
        scopes := ← lift (insertScopes source.data g s.scopes)
        depth := if name == bodyName then s.depth + 1 else s.depth - 1
        bodies := body.toList ++ s.bodies
        atTop := isTop
        indent }
      .ok { s with out := t.out }

def nameOf (data : Value) (scopes : Scopes) : Param → Except Reason String
  | .data r => .ok r.text
  | p => (eval data scopes p).map fun found => found.value.render

def renderElement (source : Source) : Nat → Element → State → Except RenderError State
  | 0, _, _ => fail .tooDeep
  | depth + 1, e, s => do
    let render : Renderer := renderBody (renderElement source depth)
    let given (a : Arguments) : Except RenderError Given := lift (evalArguments source.data s.scopes a)
    match e with
    | .text text => .ok (s.write text)
    | .comment => .ok s
    | .value p =>
      let name ← lift (nameOf source.data s.scopes p)
      if (Helper.ofName? name).isSome then callHelper render name {} [] none none s
      else .ok (s.write (← lift (eval source.data s.scopes p)).value.render)
    | .call c => callHelper render c.helper (← given c.arguments) [] none none s
    | .block c body inverse => callHelper render c.helper (← given c.arguments) c.binds body inverse s
    | .decorator c body => decorate source.data c body s
    | .insert name a indent body =>
      let name ← match name with
        | .literal name => pure name
        | .computed p => lift (nameOf source.data s.scopes p)
      renderInsert source render name (← given a) indent body s

def maxDepth : Nat := 4000

def render (source : Source) : Except RenderError String :=
  (renderBody (renderElement source maxDepth) source.body {}).map State.out

end ComponentDocs.Template

/-! The document of a component: a template, rendered with what is known about it. -/
namespace ComponentDocs

namespace Template

def componentName : String := "component"

def builtIn : String :=
  "# \x7b\x7bdisplay_name\x7d\x7d\n\nSource: `\x7b\x7bcomponent_path\x7d\x7d`\n" ++
  "\x7b\x7b#if extra_content\x7d\x7d\n\n\x7b\x7bextra_content\x7d\x7d\n\x7b\x7b/if\x7d\x7d\n"

/-- The stem of a file, or for an index file the name of its directory. -/
def displayName (component : String) : String :=
  let path := Path.ofString component
  let stem := path.fileStem?.getD []
  if stem.map Char.toLower == "index".toList then
    match path.parent?.bind Path.fileName? with
    | some directory => String.ofList directory
    | none => String.ofList stem
  else String.ofList stem

def componentData (sourcePath : Path) (component : String) (extra : Option String) : Value :=
  .ofFields
    [("display_name", .string (displayName component)), ("component_path", .string component),
      ("source_path", .string sourcePath.toString),
      ("extra_content", (extra.map Value.string).getD .null)]

def renderComponent (template : Body) (sourcePath : Path) (component : String) (extra : Option String) :
    Except RenderError String :=
  render ⟨componentName, template, componentData sourcePath component extra⟩

def RenderError.message (e : RenderError) : String :=
  match e.place with
  | some p => s!"Error rendering \"{componentName}\" line {p.line}, col {p.column}: {e.reason.message}"
  | none => e.reason.message

end Template

end ComponentDocs
