import ComponentDocs.Project.Cycle
/-! What is logged while documents are generated, and what a console shows of it. A console shows records of the
program and of the libraries that it calls. What those log on their own is taken as given, and so is how a line is
written, with the time in it. -/
namespace ComponentDocs

namespace Log

inductive Level
  | error
  | warn
  | info
  | debug
  | trace
deriving DecidableEq, Repr

def Level.rank : Level → Nat
  | error => 0
  | warn => 1
  | info => 2
  | debug => 3
  | trace => 4

structure Record where
  level : Level
  target : String
  message : String
  fields : List (String × String)
deriving DecidableEq, Repr

inductive Call
  | compile (patterns : List String)
  | parse (template : String)
  | render (template : String) (request : Engine.Request)
deriving DecidableEq, Repr

inductive Item
  | record (r : Record)
  | call (c : Call)
deriving DecidableEq, Repr

structure Console where
  /-- The records that the environment asks for, if it does. -/
  asked? : Option (Record → Bool)
  ofCall : Call → List Record
  /-- A record as a line, by how many are shown before it and whether its target is shown. -/
  line : Nat → Bool → Record → String

namespace Console

def records (c : Console) : Item → List Record
  | .record r => [r]
  | .call call => c.ofCall call

def shows (c : Console) (verbosity : Nat) (r : Record) : Bool :=
  match verbosity, c.asked? with
  | 0, some asked => asked r
  | 0, none => r.level.rank ≤ Level.warn.rank
  | 1, _ => r.level.rank ≤ Level.info.rank
  | _, _ => r.level.rank ≤ Level.debug.rank

def write (c : Console) (verbosity : Nat) (log : List Item) : String :=
  String.join (((log.flatMap c.records).filter (c.shows verbosity)).mapIdx fun n r => c.line n (2 ≤ verbosity) r)

end Console

/-- What several components log, by whose turn it is. At its turn a component logs the next that it has; what is
left follows in the order that it has. -/
def inTurn : List String → List (String × Item) → List (String × Item)
  | [], log => log
  | component :: turns, log =>
    match log.find? fun x => x.1 = component with
    | some x => x :: inTurn turns (log.eraseP fun x => x.1 = component)
    | none => inTurn turns log

end Log

namespace Project
open Log

/-- Whose turn it is where components are dealt with side by side: in their steps, and in what they log. -/
structure Turns where
  steps : List String := []
  log : List String := []

private def record (level : Level) (target message : String) (fields : List (String × String)) : Item :=
  .record ⟨level, target, message, fields⟩

def searchLog (p : Project) (t : FileTree) : List Item :=
  (t.passedOver p.here p.config.componentsDir isSkipped).map fun e =>
    record .warn "docgen_core::discover" "skipping unreadable entry" [("error", e.message)]

def discoveredItem (components : List String) : Item :=
  record .debug "docgen_core::docgen" "discovered components" [("count", toString components.length)]

def supplementLog (p : Project) (t : FileTree) (component : String) : List Item :=
  match p.config.supplement (p.config.cwd.join (.ofString component)).normalize with
  | none => []
  | some file =>
    match t.readText p.here file with
    | .ok _ => []
    | .error e =>
      [record .debug "docgen_core::compile" "no supplementary documentation"
        [("path", file.toString), ("error", e.message)]]

def writtenItem (component : String) (path : Path) : Item :=
  record .info "docgen_core::docgen" "wrote documentation"
    [("component", Text.quoted component), ("destination", path.toString)]

def failureItem (component : String) (e : Error) : Item :=
  record .warn "docgen_core::docgen" "failed to generate documentation"
    [("component", Text.quoted component), ("error", e.message)]

def combinedItem (file : Path) (sections : Nat) : Item :=
  record .info "docgen_core::docgen" "wrote combined documentation"
    [("destination", file.toString), ("components", toString sections)]

def watchingItem (r : Report) : Item :=
  record .info "docgen_core::docgen" "initial generation complete, watching for changes"
    [("written", toString r.written.length), ("failed", toString r.failures.length)]

def stepLog (p : Project) (ofRequest : Engine.Request → List Item) (s : Cycles) (component : String) : List Item :=
  match s.stage component, (p.step s component).stage component with
  | .waiting, _ => p.supplementLog s.tree component
  | .asked request, _ => ofRequest request
  | .housed _, .ended (.ok path) => [writtenItem component path]
  | _, _ => []

def stepsLog (p : Project) (ofRequest : Engine.Request → List Item) : Cycles → List String → List (String × Item)
  | _, [] => []
  | s, component :: rest =>
    (p.stepLog ofRequest s component).map (component, ·) ++ p.stepsLog ofRequest (p.step s component) rest

def renderLog (p : Project) (ofRequest : Engine.Request → List Item) (t : FileTree) (component : String) :
    List Item :=
  p.supplementLog t component ++ ofRequest (p.config.request t p.here component)

def generationLog (p : Project) (ofRequest : Engine.Request → List Item) (turns : Turns) (t : FileTree) :
    List Item :=
  p.searchLog t ++
    match p.discover t with
    | .error _ => []
    | .ok components =>
      discoveredItem components ::
        match p.config.outFile with
        | none =>
          let schedule := allSteps turns.steps components
          (inTurn turns.log (p.stepsLog ofRequest (.start t) schedule)).map Prod.snd ++
            ((p.interleave t schedule).report components).failures.map fun (component, e) => failureItem component e
        | some file =>
          let rs := p.renderings t components
          let logged := components.flatMap fun component => (p.renderLog ofRequest t component).map (component, ·)
          (inTurn turns.log logged).map Prod.snd ++ rs.failures.map (fun (component, e) => failureItem component e) ++
            match (p.generateTogether t components file).result with
            | .ok r => r.written.map fun path => combinedItem path rs.texts.length
            | .error _ => []

end Project

end ComponentDocs
