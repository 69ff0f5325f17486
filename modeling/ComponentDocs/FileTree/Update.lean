import ComponentDocs.FileTree.Basic
/-! Writing to a file tree. An operation that fails after a part of its work gives
back the tree with that part done. -/
namespace ComponentDocs.FileTree

/-- Writes a file, in place of the one that is there. A link that leads nowhere is followed. -/
def write (t : FileTree) (cwd : Location) (p : Path) (content : Content) : Except FileError FileTree := do
  match ← t.resolve cwd p true with
  | .taken l (.file _) => .ok (t.set l (.file content))
  | .taken _ _ => .error .isDirectory
  | .free dir name slash =>
    if slash then .error .isDirectory else .ok (t.set (dir ++ [name]) (.file content))

def makeDirectory (t : FileTree) (cwd : Location) (p : Path) : Except FileError FileTree := do
  match ← t.resolve cwd p false with
  | .taken _ _ => .error .alreadyExists
  | .free dir name _ => .ok (t.set (dir ++ [name]) .directory)

def makeParents (cwd : Location) : Nat → FileTree → Path → FileTree × Except FileError Unit
  | 0, t, _ => (t, .error .notFound)
  | fuel + 1, t, p =>
    if p.isEmpty then (t, .ok ())
    else
      match t.makeDirectory cwd p with
      | .ok t => (t, .ok ())
      | .error .notFound =>
        match p.parent? with
        | none => (t, .error .notFound)
        | some parent =>
          match makeParents cwd fuel t parent with
          | (t, .error e) => (t, .error e)
          | (t, .ok ()) =>
            match t.makeDirectory cwd p with
            | .ok t => (t, .ok ())
            | .error e => (t, if t.isDirectory cwd p then .ok () else .error e)
      | .error e => (t, if t.isDirectory cwd p then .ok () else .error e)

/-- Makes a directory and those above it that are missing. A parent has fewer characters. -/
def makeDirectories (t : FileTree) (cwd : Location) (p : Path) : FileTree × Except FileError Unit :=
  makeParents cwd (p.chars.length + 1) t p

def makeLink (t : FileTree) (cwd : Location) (p target : Path) : Except FileError FileTree := do
  match ← t.resolve cwd p false with
  | .taken _ _ => .error .alreadyExists
  | .free dir name slash =>
    if slash then .error .notFound else .ok (t.set (dir ++ [name]) (.link target))

/-- Puts an entry at a path, with the directories above it. What cannot be put there is left out. -/
def put (t : FileTree) (cwd : Location) (p : Path) (e : Entry) : FileTree :=
  match e with
  | .directory => (t.makeDirectories cwd p).1
  | .file content => let t := above; (t.write cwd p content).toOption.getD t
  | .link target => let t := above; (t.makeLink cwd p target).toOption.getD t
where
  above : FileTree :=
    match p.parent? with
    | some parent => (t.makeDirectories cwd parent).1
    | none => t

end ComponentDocs.FileTree
