import ComponentDocs.FileTree.Update
import ComponentDocs.Project.Basic
/-! The document of one component, and the file for it. -/
namespace ComponentDocs

/-- What an engine is asked for, with the supplementary file if that can be read. -/
def Config.request (c : Config) (t : FileTree) (here : Location) (component : String) : Engine.Request :=
  let path := Path.ofString component
  { source := (c.componentsRoot.join path).normalize
    cwd := c.cwd
    component
    extra := (c.supplement (c.cwd.join path).normalize).bind fun file => (t.readText here file).toOption }

namespace Project

def compile (p : Project) (c : Config) (t : FileTree) (component : String) : Outcome String :=
  let request := c.request t p.here component
  { tree := t, result := (p.engine request).mapError (.engine component), requests := [request] }

def render (p : Project) (t : FileTree) (component : String) : Outcome String := p.compile p.config t component

def makeParent (here : Location) (t : FileTree) (path : Path) : FileTree × Except Error Unit :=
  match path.parent? with
  | none => (t, .ok ())
  | some parent =>
    if parent.isEmpty then (t, .ok ())
    else
      match t.makeDirectories here parent with
      | (t, .ok ()) => (t, .ok ())
      | (t, .error e) => (t, .error (.output parent e))

def writeFile (here : Location) (t : FileTree) (text : String) (path : Path) : FileTree × Except Error Unit :=
  match makeParent here t path with
  | (t, .error e) => (t, .error e)
  | (t, .ok ()) =>
    match t.write here path (.text text) with
    | .ok t => (t, .ok ())
    | .error e => (t, .error (.output path e))

def format (p : Project) (t : FileTree) (text : String) : Outcome String :=
  { tree := t, result := (p.formatter text).mapError .format, drafts := [text] }

/-- Formats a text and writes it to a file. If it cannot be formatted, nothing is written. -/
def write (p : Project) (t : FileTree) (text : String) (path : Path) : Outcome Unit :=
  (p.format t text).bind fun t formatted =>
    let (tree, result) := writeFile p.here t formatted path
    { tree, result }

theorem write_eq (p : Project) (t : FileTree) (text : String) (path : Path) :
    p.write t text path =
      match p.formatter text with
      | .error e => { tree := t, result := .error (.format e), drafts := [text] }
      | .ok formatted =>
        let (tree, result) := writeFile p.here t formatted path
        { tree, result, drafts := [text] } := by
  unfold write format Outcome.bind
  cases p.formatter text <;> rfl

def destination (p : Project) (component : String) : Path := p.config.destFile (.ofString component)

def generate (p : Project) (t : FileTree) (component : String) : Outcome Path :=
  let rendered := p.render t component
  match rendered.result with
  | .error e => { tree := t, result := .error e, requests := rendered.requests }
  | .ok text =>
    let o := (p.write t text (p.destination component)).map fun _ => p.destination component
    { o with requests := rendered.requests }

/-! The documents of all components. They are rendered from the files as they are
before the first of them is written. -/

abbrev Renderings := List (String × Except Error String)

namespace Renderings

def failures (rs : Renderings) : List (String × Error) :=
  rs.filterMap fun (component, r) =>
    match r with
    | .ok _ => none
    | .error e => some (component, e)

def texts (rs : Renderings) : List String := rs.filterMap fun r => r.2.toOption

end Renderings

def renderings (p : Project) (t : FileTree) (components : List String) : Renderings :=
  components.map fun component => (component, (p.render t component).result)

def requests (p : Project) (t : FileTree) (components : List String) : List Engine.Request :=
  components.flatMap fun component => (p.render t component).requests

namespace Report

def withFile (r : Report) (path : Path) : Report := { r with written := path :: r.written }

def withFailure (r : Report) (component : String) (e : Error) : Report :=
  { r with failures := (component, e) :: r.failures }

end Report

def writeEach (p : Project) : Renderings → FileTree → FileTree × Report
  | [], t => (t, {})
  | (component, .error e) :: rest, t =>
    let (t, report) := writeEach p rest t
    (t, report.withFailure component e)
  | (component, .ok text) :: rest, t =>
    let path := p.destination component
    let o := p.write t text path
    let (t, report) := writeEach p rest o.tree
    match o.result with
    | .ok () => (t, report.withFile path)
    | .error e => (t, report.withFailure component e)

/-- What the formatter is given on the way. -/
def draftsEach (p : Project) : Renderings → FileTree → List String
  | [], _ => []
  | (_, .error _) :: rest, t => draftsEach p rest t
  | (component, .ok text) :: rest, t =>
    let o := p.write t text (p.destination component)
    o.drafts ++ draftsEach p rest o.tree

def generateEach (p : Project) (t : FileTree) (components : List String) : Outcome Report :=
  let rs := p.renderings t components
  let (tree, report) := p.writeEach rs t
  { tree, result := .ok report, requests := p.requests t components, drafts := p.draftsEach rs t }

/-- One file for all components. If no document was rendered, nothing is written. -/
def generateTogether (p : Project) (t : FileTree) (components : List String) (file : Path) : Outcome Report :=
  let rs := p.renderings t components
  if rs.texts.isEmpty then
    { tree := t, result := .ok { failures := rs.failures }, requests := p.requests t components }
  else
    let o := (p.write t ("\n\n".intercalate rs.texts) file).map fun _ =>
      { written := [file], failures := rs.failures }
    { o with requests := p.requests t components }

def generateAll (p : Project) (t : FileTree) : Outcome Report :=
  match p.discover t with
  | .error e => { tree := t, result := .error e }
  | .ok components =>
    match p.config.outFile with
    | some file => p.generateTogether t components file
    | none => p.generateEach t components

/-! What a change of a file means for the documents. -/

/-- Whether a path is one that documents are written to. -/
def isOutput (p : Project) (path : Path) : Bool :=
  match p.config.outFile with
  | some file => path.same file
  | none => path.startsWith p.config.outDir

def isSupplementOf (p : Project) (path : Path) (component : String) : Bool :=
  (p.config.supplement (p.config.cwd.join (.ofString component)).normalize).any path.same

/-- The component that a path names, by the settings alone. -/
def namedComponent? (p : Project) (path : Path) : Option String :=
  match path.stripPrefix? p.config.componentsDir with
  | some relative => if p.config.isComponent relative then some relative.key else none
  | none => none

def componentFor (p : Project) (t : FileTree) (path : Path) : Except Error (Option String) :=
  if p.isOutput path then .ok none
  else
    match p.namedComponent? path with
    | some component => .ok (some component)
    | none => do .ok ((← p.discover t).find? (p.isSupplementOf path.normalize))

def regenerateFor (p : Project) (t : FileTree) (path : Path) : Outcome Report :=
  match p.componentFor t path with
  | .error e => { tree := t, result := .error e }
  | .ok none => { tree := t, result := .ok {} }
  | .ok (some component) =>
    if p.config.outFile.isSome then p.generateAll t
    else
      let o := p.generate t component
      { o with result := match o.result with
          | .ok path => .ok { written := [path] }
          | .error e => .ok { failures := [(component, e)] } }

end Project

end ComponentDocs
