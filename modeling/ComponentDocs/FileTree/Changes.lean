import ComponentDocs.FileTree.Basic
/-! Taking away and moving what is in a file tree, and what is new in it. -/
namespace ComponentDocs.FileTree

def isBelow (top l : Location) : Bool := top.isPrefixOf l

def remove (t : FileTree) (cwd : Location) (p : Path) : Except FileError FileTree := do
  match ← t.resolve cwd p false with
  | .taken top _ => .ok ⟨t.entries.filter fun x => !isBelow top x.1⟩
  | .free _ _ _ => .error .notFound

def move (t : FileTree) (cwd : Location) (p q : Path) : Except FileError FileTree := do
  match ← t.resolve cwd p false, ← t.resolve cwd q false with
  | .free _ _ _, _ => .error .notFound
  | .taken source _, goal =>
    let goal := match goal with
      | .taken l _ => l
      | .free dir name _ => dir ++ [name]
    if goal == source then .ok t
    else
      let kept := t.entries.filter fun x => !isBelow goal x.1
      .ok ⟨kept.map fun (l, e) => (if isBelow source l then goal ++ l.drop source.length else l, e)⟩

/-- The files and directories below a place that are not in the tree `before`, or not with the
same content, by their paths from that place. -/
def changesSince (t before : FileTree) (top : Location) : List (String × Option Content) :=
  (t.entries.filterMap fun (l, e) =>
    if !top.isPrefixOf l || l == top || before.get? l == some e then none
    else
      let name := String.ofList (Path.glue (l.drop top.length))
      match e with
      | .file content => some (name, some content)
      | .directory => some (name ++ "/", none)
      | .link _ => none).mergeSort fun a b => a.1 ≤ b.1

end ComponentDocs.FileTree
