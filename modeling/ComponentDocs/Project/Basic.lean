import ComponentDocs.Template.Component
import ComponentDocs.Formatter.Command
import ComponentDocs.Settings.Load
import ComponentDocs.FileTree.Walk
import ComponentDocs.Path.Normal
/-! What makes the documents of components. -/
namespace ComponentDocs

namespace Engine

structure Request where
  source : Path
  /-- The directory that component paths start from. -/
  cwd : Path
  component : String
  extra : Option String
deriving DecidableEq, Repr

inductive Error
  | unparsable (cause : Template.ParseError)
  | unrendered (cause : Template.RenderError)
  | unreadable (template : Path) (cause : FileError)
  | other (message : String)
deriving DecidableEq, Repr

def Error.message : Error → String
  | .unparsable cause => s!"invalid template: {cause.message}"
  | .unrendered cause => s!"render failed: {cause.message}"
  | .unreadable template cause => s!"failed to read template {template}: {cause.message}"
  | .other message => message

end Engine

abbrev Engine := Engine.Request → Except Engine.Error String

namespace Engine

def ofTemplate (body : Template.Body) : Engine := fun r =>
  (Template.renderComponent body r.source r.component r.extra).mapError .unrendered

def ofText (text : String) : Except Error Engine :=
  match Template.parse text with
  | .ok body => .ok (ofTemplate body)
  | .error e => .error (.unparsable e)

def templateText (t : FileTree) (here : Location) : Option Path → Except Error String
  | none => .ok Template.builtIn
  | some path => (t.readText here path).mapError (.unreadable path)

def load (t : FileTree) (here : Location) (template : Option Path) : Except Error Engine :=
  match templateText t here template with
  | .ok text => ofText text
  | .error e => .error e

theorem load_none (t : FileTree) (here : Location) : load t here none = ofText Template.builtIn := rfl

end Engine

/-! Projects: settings with an engine and a formatter. -/

structure Project where
  /-- The settings, rooted at the components. -/
  config : Config
  engine : Engine
  formatter : Formatter
  here : Location

namespace Project

inductive Error
  | settings (cause : Settings.LoadError)
  | engine (component : String) (cause : Engine.Error)
  | template (cause : Engine.Error)
  | format (cause : FormatError)
  | search (path : Path) (cause : FileError)
  | output (path : Path) (cause : FileError)
  | watch (path : Path)
deriving DecidableEq, Repr

def Error.message : Error → String
  | .settings cause => cause.message
  | .engine component cause => s!"failed to compile documentation for '{component}': {cause.message}"
  | .template cause => s!"failed to load component template: {cause.message}"
  | .format cause => s!"failed to format markdown: {cause.message}"
  | .search path cause => s!"i/o error at {path}: IO error for operation on {path}: {cause.message}"
  | .output path cause => s!"i/o error at {path}: {cause.message}"
  | .watch path => s!"file watcher error: No path was found. about [{Text.quoted path.toString}]"

/-- The code that the program exits with. Zero and one are for runs without an error. -/
def Error.exitCode : Error → Nat
  | .settings _ => 2
  | .engine _ _ | .template _ => 3
  | .format _ => 4
  | .search _ _ | .output _ _ => 5
  | .watch _ => 6

structure Report where
  written : List Path := []
  failures : List (String × Error) := []
deriving DecidableEq, Repr

def Report.isSuccess (r : Report) : Bool := r.failures.isEmpty

/-- An operation on a project that has ended: its result, and what it did on the way. -/
structure Outcome (α : Type) where
  tree : FileTree
  result : Except Error α
  requests : List Engine.Request := []
  /-- The texts that the formatter was given. -/
  drafts : List String := []

def Outcome.map {α β : Type} (f : α → β) (o : Outcome α) : Outcome β := { o with result := o.result.map f }

def Outcome.bind {α β : Type} (o : Outcome α) (next : FileTree → α → Outcome β) : Outcome β :=
  match o.result with
  | .error e => { o with result := .error e }
  | .ok a =>
    let o' := next o.tree a
    { o' with requests := o.requests ++ o'.requests, drafts := o.drafts ++ o'.drafts }

def ofConfig (t : FileTree) (here : Location) (c : Config) : Except Error Project :=
  match Engine.load t here c.template with
  | .ok engine => .ok { config := c.rootedAtComponents, engine, formatter := .canonical, here }
  | .error e => .error (.template e)

/-! The components of a project. -/

def isSkipped (name : List Char) : Bool := name.head? == some '.' || name == "node_modules".toList

def discover (p : Project) (t : FileTree) : Except Error (List String) :=
  match t.filesBelow p.here p.config.componentsDir isSkipped with
  | .error e => .error (.search p.config.componentsDir e)
  | .ok files =>
    let components := (files.map fun names => Path.mk (Path.glue names)).filter p.config.isComponent
    .ok ((components.map Path.key).mergeSort fun a b => decide (a ≤ b))

end Project

end ComponentDocs
