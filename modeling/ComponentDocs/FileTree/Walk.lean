import ComponentDocs.FileTree.Basic
/-! The files below a directory. Links are followed, except for those that lead
back to a directory that was passed on the way. -/
namespace ComponentDocs.FileTree

inductive WalkError
  | unreadable (path : Path) (cause : FileError)
  | loop (path ancestor : Path)
deriving DecidableEq, Repr

def WalkError.message : WalkError → String
  | .unreadable path cause => s!"IO error for operation on {path}: {cause.message}"
  | .loop path ancestor => s!"File system loop found: {path} points to an ancestor {ancestor}"

/-- The files below the directory `dir`, which the path `way` leads to, and the entries that are passed over. The
directories on the way are `passed`. A link is followed as the whole path to it is, so that the links on the way
count too. -/
def walkBelow (t : FileTree) (cwd : Location) (skip : List Char → Bool) :
    Nat → (passed : List Location) → (way : Path) → (dir : Location) → List (Except WalkError (List (List Char)))
  | 0, _, _, _ => []
  | fuel + 1, passed, way, dir =>
    let passed := dir :: passed
    (t.children dir).flatMap fun (name, e) =>
      let way := way.join ⟨name⟩
      let below (l : Location) : List (Except WalkError (List (List Char))) :=
        if skip name then [] else (walkBelow t cwd skip fuel passed way l).map fun found => found.map (name :: ·)
      match e with
      | .file _ => [.ok [name]]
      | .directory => below (dir ++ [name])
      | .link _ =>
        match t.find cwd way with
        | .error e => [.error (.unreadable way e)]
        | .ok (l, .directory) =>
          if passed.contains l then
            [.error (.loop way (Nat.repeat (fun path => path.parent?.getD path) (passed.idxOf l + 1) way))]
          else below l
        | .ok _ => [.ok [name]]

def walkFiles (t : FileTree) (cwd : Location) (skip : List Char → Bool) (fuel : Nat) (passed : List Location)
    (way : Path) (dir : Location) : List (List (List Char)) :=
  (t.walkBelow cwd skip fuel passed way dir).filterMap Except.toOption

theorem walkFiles_zero (t : FileTree) (cwd : Location) (skip : List Char → Bool) (passed : List Location) (way : Path)
    (dir : Location) : walkFiles t cwd skip 0 passed way dir = [] := rfl

theorem walkFiles_succ (t : FileTree) (cwd : Location) (skip : List Char → Bool) (fuel : Nat)
    (passed : List Location) (way : Path) (dir : Location) :
    walkFiles t cwd skip (fuel + 1) passed way dir = (t.children dir).flatMap fun (name, e) =>
      let way := way.join ⟨name⟩
      let below (l : Location) : List (List (List Char)) :=
        if skip name then [] else (walkFiles t cwd skip fuel (dir :: passed) way l).map (name :: ·)
      match e with
      | .file _ => [[name]]
      | .directory => below (dir ++ [name])
      | .link _ =>
        match t.find cwd way with
        | .error _ => []
        | .ok (l, .directory) => if (dir :: passed).contains l then [] else below l
        | .ok _ => [[name]] := by
  have hmap (name : List Char) (found : List (Except WalkError (List (List Char)))) :
      (found.map fun found => found.map (name :: ·)).filterMap Except.toOption =
        (found.filterMap Except.toOption).map (name :: ·) := by
    induction found with
    | nil => rfl
    | cons first rest ih =>
      cases first with
      | error e => exact ih
      | ok names => exact congrArg ((name :: names) :: ·) ih
  simp only [walkFiles, walkBelow, List.filterMap_flatMap]
  congr 1
  funext ⟨name, e⟩
  cases e with
  | file content => rfl
  | directory =>
    dsimp only
    split
    · rfl
    · exact hmap name _
  | link target =>
    dsimp only
    rcases t.find cwd (way.join ⟨name⟩) with e | ⟨l, _ | _ | _⟩
    · rfl
    · rfl
    · dsimp only
      split
      · rfl
      · split
        · rfl
        · exact hmap name _
    · rfl

/-- What a walk finds below what a path leads to, by the names on the way. Directories whose names are
to be skipped are left out with all that is in them. A file is below itself.

No link leads to a directory that was passed, so that a way has at most as many links as there
are directories, with no more than that number of directories between two links. -/
def foundBelow (t : FileTree) (cwd : Location) (p : Path) (skip : List Char → Bool) :
    Except FileError (List (Except WalkError (List (List Char)))) := do
  match ← t.find cwd p with
  | (l, .directory) =>
    let n := t.entries.length + 1
    .ok (t.walkBelow cwd skip (n * (n + 1)) [] p l)
  | _ => .ok [.ok []]

def filesBelow (t : FileTree) (cwd : Location) (p : Path) (skip : List Char → Bool) :
    Except FileError (List (List (List Char))) :=
  (t.foundBelow cwd p skip).map fun found => found.filterMap Except.toOption

def passedOver (t : FileTree) (cwd : Location) (p : Path) (skip : List Char → Bool) : List WalkError :=
  match t.foundBelow cwd p skip with
  | .error _ => []
  | .ok found =>
    found.filterMap fun
      | .ok _ => none
      | .error e => some e

end ComponentDocs.FileTree
