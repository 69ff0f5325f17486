import ComponentDocs.CommandLine.Run
import ComponentDocs.Process.Host
/-! The program: it reads the files that a run may need, runs, and writes what has changed. -/
open ComponentDocs

namespace ComponentDocs.CommandLine

def onDisk (p : Path) := (do return (← IO.currentDir) / p.toString : IO _)

def readContent (p : Path) : IO Content := do
  let bytes ← IO.FS.readBinFile (← onDisk p)
  return match String.fromUTF8? bytes with
    | some s => .text s
    | none => .binary bytes.toList

def readLink (p : Path) : IO Path := do
  try return .ofString (← IO.FS.realPath (← onDisk p)).toString
  catch _ => return ⟨[]⟩

/-- What is at a place on disk. What cannot be read is left out. -/
def readEntry? (l : Location) : IO (Option Entry) := do
  try
    match (← (← onDisk l.path).symlinkMetadata).type with
    | .dir => return some .directory
    | .symlink => return some (.link (← readLink l.path))
    | .file => return some (.file (← readContent l.path))
    | .other => return none
  catch _ => return none

def names (dir : Location) : IO (List String) := do
  try return (← (← onDisk dir.path).readDir).toList.map (·.fileName)
  catch _ => return []

/-- All that is below a directory, but for the directories that no search enters. -/
partial def readBelow (dir : Location) : IO (List (Location × Entry)) := do
  let mut found := []
  for name in ← names dir do
    let l := dir ++ [name.toList]
    if let some e ← readEntry? l then
      found := (l, e) :: found
      if e = .directory && !Project.isSkipped name.toList then
        found := (← readBelow l) ++ found
  return found

def readPlace (l : Location) : IO (List (Location × Entry)) := do
  let mut found := []
  for n in List.range l.length do
    let place := l.take (n + 1)
    if let some e ← readEntry? place then found := (place, e) :: found
  return (← readBelow l) ++ found

def location (here : Location) (p : Path) : Location :=
  (here.path.join p).normalize.segments.filterMap fun
    | .name n => some n
    | _ => none

/-- The places to read, and those that links at them lead to. -/
partial def readTree (places : List Location) (t : FileTree) (done : List Location) : IO FileTree := do
  match places with
  | [] => return t
  | place :: rest =>
    if done.any fun d => d.isPrefixOf place && !(place.drop d.length).any Project.isSkipped then
      readTree rest t done
    else
      let found ← readPlace place
      let t : FileTree := ⟨t.entries ++ found.filter fun x => (t.get? x.1).isNone⟩
      let targets := found.filterMap fun
        | (_, .link target) => if target.isEmpty then none else some (location [] target)
        | _ => none
      readTree (rest ++ targets) t (place :: done)

def placesOf (here : Location) (c : Config) : List Location :=
  ([c.cwd, c.componentsDir, c.outDir] ++ c.outFile.toList ++ c.template.toList).map (location here)

def places (here : Location) (args : List String) : IO (List Location) := do
  match Demand.ofArguments args with
  | .ok (.run g) =>
    let named := (g.filter fun x => x.1.isPath).map fun x => location here (.ofString x.2)
    let first := here :: named
    match loadConfig (← readTree first .empty []) here g with
    | .ok c => return first ++ placesOf here c
    | .error _ => return first
  | _ => return []

def save (now before : FileTree) : IO Unit := do
  for (l, e) in now.entries do
    if before.get? l != some e then
      match e with
      | .directory => IO.FS.createDirAll (← onDisk l.path)
      | .file (.text s) => IO.FS.writeFile (← onDisk l.path) s
      | .file (.binary bytes) => IO.FS.writeBinFile (← onDisk l.path) ⟨bytes.toArray⟩
      | .link _ => pure ()

/-- Milliseconds between two looks at the files. -/
def interval : UInt32 := 500

partial def watch (p : Project) (read : IO FileTree) (before : FileTree) : IO UInt32 := do
  IO.sleep interval
  let now ← read
  let o := p.catchUp before now
  save o.tree now
  watch p read o.tree

end ComponentDocs.CommandLine

open CommandLine in
def main (args : List String) : IO UInt32 := do
  let here := location [] (.ofString (← IO.FS.realPath (← IO.currentDir)).toString)
  let places ← places here args
  let read := readTree places .empty []
  let t ← read
  match start (Host.run ⟨t, here⟩) t here args with
  | .ended e =>
    save e.tree t
    IO.print e.output
    IO.eprint e.errors
    return e.code.toUInt32
  | .watching p now =>
    save now t
    watch p read now
