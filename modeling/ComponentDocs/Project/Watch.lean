import ComponentDocs.FileTree.Changes
import ComponentDocs.Project.Generation
/-! Keeping documents up to date while files change. -/
namespace ComponentDocs

inductive Event
  | changed (path : Path)
  | removed (path : Path)
deriving DecidableEq, Repr

inductive Notice
  | created
  | modified
  | removed
  | other
deriving DecidableEq, Repr

/-- The events of a notice. Directories have none. -/
def Notice.events (n : Notice) (t : FileTree) (here : Location) (paths : List Path) : List Event :=
  let files := paths.filter fun path => !t.isDirectory here path
  match n with
  | .created | .modified => files.map .changed
  | .removed => files.map .removed
  | .other => []

namespace Project

/-- Does what an event calls for. Errors end here. -/
def handle (p : Project) (t : FileTree) : Event → Outcome Report
  | .removed _ => { tree := t, result := .ok {} }
  | .changed path =>
    let o := p.regenerateFor t path
    match o.result with
    | .ok _ => o
    | .error _ => { o with result := .ok {} }

def checkWatch (here : Location) (t : FileTree) (path : Path) : Except Error Unit :=
  match t.find here (here.path.join path) with
  | .ok _ => .ok ()
  | .error _ => .error (.watch path)

def startWatch (p : Project) (t : FileTree) : Outcome Unit :=
  let o := p.generateAll t
  { o with result := o.result.bind fun _ => checkWatch p.here o.tree p.config.componentsDir }

inductive Action
  | put (path : Path) (entry : Entry)
  | remove (path : Path)
  | move (source goal : Path)
deriving DecidableEq, Repr

namespace Action

def apply (here : Location) (t : FileTree) : Action → FileTree
  | put path entry => t.put here path entry
  | remove path => (t.remove here path).toOption.getD t
  | move source goal => (t.move here source goal).toOption.getD t

def notices : Action → List (Notice × Path)
  | put path _ => [(.modified, path)]
  | remove path => [(.removed, path)]
  | move source goal => [(.modified, source), (.modified, goal)]

end Action

/-- A path in the spelling in which it is reported, if it lies below the directory that is watched. -/
def watchedPath? (p : Project) (t : FileTree) (path : Path) : Option Path :=
  match t.canonicalize p.here p.config.componentsDir with
  | .error _ => none
  | .ok root => (((p.here.path.join path).normalize).stripPrefix? root).map p.config.componentsDir.join

/-- One operation after another, with the result of the second. -/
def Outcome.andThen {α β : Type} (o : Outcome α) (next : FileTree → Outcome β) : Outcome β :=
  let o' := next o.tree
  { o' with requests := o.requests ++ o'.requests, drafts := o.drafts ++ o'.drafts }

def follow (p : Project) (t : FileTree) (action : Action) : Outcome Unit :=
  let t := action.apply p.here t
  let events := action.notices.flatMap fun (notice, path) =>
    notice.events t p.here (p.watchedPath? t path).toList
  events.foldl (fun o event => o.andThen fun t => (p.handle t event).map fun _ => ()) { tree := t, result := .ok () }

def session (p : Project) (t : FileTree) (actions : List Action) : Outcome Unit :=
  let start := p.startWatch t
  match start.result with
  | .error _ => start
  | .ok () => actions.foldl (fun o action => o.andThen fun t => p.follow t action) start

def differences (before now : FileTree) : List (Notice × Path) :=
  let changed := now.entries.filterMap fun (l, e) =>
    match e with
    | .file _ => if before.get? l == some e then none else some (Notice.modified, l.path)
    | _ => none
  let gone := before.entries.filterMap fun (l, e) =>
    match e with
    | .file _ => if (now.get? l).isSome then none else some (Notice.removed, l.path)
    | _ => none
  changed ++ gone

def catchUp (p : Project) (before now : FileTree) : Outcome Unit :=
  let events := (differences before now).flatMap fun (notice, path) =>
    notice.events now p.here (p.watchedPath? now path).toList
  events.foldl (fun o event => o.andThen fun t => (p.handle t event).map fun _ => ())
    { tree := now, result := .ok () }

end Project

end ComponentDocs
