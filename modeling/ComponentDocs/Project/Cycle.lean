import ComponentDocs.Project.Generation
/-! Components whose documents are generated side by side. Each goes through its own steps, and those of others may
come between them. A run over all components is one order of the steps. -/
namespace ComponentDocs.Project

inductive Stage
  | waiting
  /-- The supplementary file is read. -/
  | asked (request : Engine.Request)
  | formatted (text : String)
  /-- The directory for the file is there. -/
  | housed (text : String)
  | ended (result : Except Error Path)

def Stage.result? : Stage → Option (Except Error Path)
  | .ended result => some result
  | _ => none

def prepare (p : Project) (component : String) (request : Engine.Request) : Stage :=
  match p.engine request with
  | .error e => .ended (.error (.engine component e))
  | .ok text =>
    match p.formatter text with
    | .error e => .ended (.error (.format e))
    | .ok formatted => .formatted formatted

def Stage.afterParent (text : String) : Except Error Unit → Stage
  | .ok () => .housed text
  | .error e => .ended (.error e)

def advance (p : Project) (component : String) : FileTree × Stage → FileTree × Stage
  | (t, .waiting) => (t, .asked (p.config.request t p.here component))
  | (t, .asked request) => (t, p.prepare component request)
  | (t, .formatted text) =>
    let made := makeParent p.here t (p.destination component)
    (made.1, .afterParent text made.2)
  | (t, .housed text) =>
    match t.write p.here (p.destination component) (.text text) with
    | .ok t => (t, .ended (.ok (p.destination component)))
    | .error e => (t, .ended (.error (.output (p.destination component) e)))
  | (t, .ended result) => (t, .ended result)

structure Cycles where
  tree : FileTree
  stage : String → Stage

def Cycles.start (t : FileTree) : Cycles := ⟨t, fun _ => .waiting⟩

def step (p : Project) (s : Cycles) (component : String) : Cycles :=
  let (tree, stage) := p.advance component (s.tree, s.stage component)
  ⟨tree, fun other => if other = component then stage else s.stage other⟩

def interleave (p : Project) (t : FileTree) (schedule : List String) : Cycles :=
  schedule.foldl p.step (.start t)

def Report.ofResults (results : List (String × Except Error Path)) : Report where
  written := results.filterMap fun r => r.2.toOption
  failures := results.filterMap fun (component, r) =>
    match r with
    | .ok _ => none
    | .error e => some (component, e)

namespace Cycles

def results (s : Cycles) (components : List String) : List (String × Except Error Path) :=
  components.filterMap fun component => (s.stage component).result?.map (component, ·)

def report (s : Cycles) (components : List String) : Report := .ofResults (s.results components)

end Cycles

/-- An order of the steps: all components are read, then all are formatted, then one after the other is written. -/
def inOrder (components : List String) : List String :=
  components ++ components ++ components.flatMap fun c => [c, c]

/-- All steps of some components. Those that a schedule names come first, as it has them. -/
def allSteps (schedule components : List String) : List String :=
  schedule.filter components.contains ++ inOrder components

/-- Writes the documents of all components, by a schedule where each has a file of its own. -/
def generateBy (p : Project) (schedule : List String) (t : FileTree) : FileTree × Except Error Report :=
  match p.discover t with
  | .error e => (t, .error e)
  | .ok components =>
    match p.config.outFile with
    | some file =>
      let o := p.generateTogether t components file
      (o.tree, o.result)
    | none =>
      let s := p.interleave t (allSteps schedule components)
      (s.tree, .ok (s.report components))

end ComponentDocs.Project
