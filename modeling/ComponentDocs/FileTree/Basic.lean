import ComponentDocs.Path.Basic
/-! File trees as values: files, directories and symbolic links by their place. -/
namespace ComponentDocs

/-- What a file holds: a text, or bytes that are none. -/
inductive Content
  | text (s : String)
  | binary (bytes : List UInt8)
deriving DecidableEq, Repr

inductive Entry
  | file (content : Content)
  | directory
  | link (target : Path)
deriving DecidableEq, Repr

/-- A place in a file tree: the names that lead there from the root, without links. -/
abbrev Location := List (List Char)

structure FileTree where
  /-- The entries but the root. The directory of each is among them. -/
  entries : List (Location × Entry)
deriving DecidableEq, Repr

inductive FileError
  | notFound
  | alreadyExists
  | notDirectory
  | isDirectory
  | nameTooLong
  | tooManyLinks
  | permissionDenied
  | nulInName
  | notText
deriving DecidableEq, Repr

def FileError.reason : FileError → String
  | .notFound => "No such file or directory"
  | .alreadyExists => "File exists"
  | .notDirectory => "Not a directory"
  | .isDirectory => "Is a directory"
  | .nameTooLong => "File name too long"
  | .tooManyLinks => "Too many levels of symbolic links"
  | .permissionDenied => "Permission denied"
  | .nulInName => "file name contained an unexpected NUL byte"
  | .notText => "stream did not contain valid UTF-8"

def FileError.number? : FileError → Option Nat
  | .notFound => some 2
  | .alreadyExists => some 17
  | .notDirectory => some 20
  | .isDirectory => some 21
  | .nameTooLong => some 36
  | .tooManyLinks => some 40
  | .permissionDenied => some 13
  | .nulInName | .notText => none

def FileError.message (e : FileError) : String :=
  match e.number? with
  | some n => s!"{e.reason} (os error {n})"
  | none => e.reason

def Location.path (l : Location) : Path := ⟨'/' :: Path.glue l⟩

namespace FileTree

def empty : FileTree := ⟨[]⟩

def get? (t : FileTree) (l : Location) : Option Entry :=
  if l.isEmpty then some .directory else t.entries.lookup l

def set (t : FileTree) (l : Location) (e : Entry) : FileTree :=
  if (t.entries.lookup l).isSome then
    ⟨t.entries.map fun x => if x.1 = l then (l, e) else x⟩
  else ⟨t.entries ++ [(l, e)]⟩

def children (t : FileTree) (dir : Location) : List (List Char × Entry) :=
  t.entries.filterMap fun (l, e) =>
    match l.getLast? with
    | some name => if l.dropLast == dir then some (name, e) else none
    | none => none

theorem lookup_replace (entries : List (Location × Entry)) (l m : Location) (e : Entry) :
    (entries.map fun x => if x.1 = l then (l, e) else x).lookup m =
      if m = l then (entries.lookup l).map fun _ => e else entries.lookup m := by
  induction entries with
  | nil => simp
  | cons x xs ih =>
    obtain ⟨k, v⟩ := x
    rw [List.map_cons]
    by_cases hk : k = l
    · subst hk
      by_cases hm : m = k
      · subst hm; simp
      · have h' : (m == k) = false := by simpa using hm
        simp [List.lookup_cons, h', ih, hm]
    · by_cases hm : m = l
      · subst hm
        have h' : (m == k) = false := by simpa using Ne.symm hk
        simp [List.lookup_cons, hk, h', ih]
      · simp only [hk, if_false, List.lookup_cons, ih, hm]

theorem get?_set_self (t : FileTree) {l : Location} (h : l ≠ []) (e : Entry) :
    (t.set l e).get? l = some e := by
  have hl : l.isEmpty = false := by simpa using h
  unfold set
  cases hx : t.entries.lookup l with
  | none => simp [get?, hl, List.lookup_append, hx]
  | some x => simp [get?, hl, lookup_replace, hx]

theorem get?_set_of_ne (t : FileTree) {l m : Location} (h : m ≠ l) (e : Entry) :
    (t.set l e).get? m = t.get? m := by
  have h' : (m == l) = false := by simpa using h
  unfold get? set
  cases t.entries.lookup l with
  | none => simp [List.lookup_append, List.lookup_cons, h']
  | some x => simp [lookup_replace, h]

/-! Finding the place that a path leads to. Links on the way are followed, up to
forty of them; the last link only on demand. -/

inductive Place
  | taken (l : Location) (e : Entry)
  /-- Nothing is there, but its directory is. `slash` tells of a slash at the end of the path. -/
  | free (dir : Location) (name : List Char) (slash : Bool)
deriving DecidableEq, Repr

inductive Stop
  | place (p : Place)
  | link (dir : Location) (target : Path) (rest : List (List Char))
  | failed (e : FileError)

def maxNameBytes : Nat := 255

def maxLinks : Nat := 40

def nameBytes (name : List Char) : Nat := name.foldl (fun n c => n + c.utf8Size) 0

/-- Follows the pieces of a path from a directory to the first link. -/
def walk (t : FileTree) (followLast : Bool) (dir : Location) : List (List Char) → Stop
  | [] => .place (.taken dir .directory)
  | piece :: rest =>
    match Path.segment? piece with
    | none => walk t followLast dir rest
    | some .up => walk t followLast dir.dropLast rest
    | some _ =>
      if maxNameBytes < nameBytes piece then .failed .nameTooLong
      else
        match t.get? (dir ++ [piece]) with
        | some .directory => walk t followLast (dir ++ [piece]) rest
        | some (.link target) =>
          if rest.isEmpty && !followLast then .place (.taken (dir ++ [piece]) (.link target))
          else .link dir target rest
        | some (.file content) =>
          if rest.isEmpty then .place (.taken (dir ++ [piece]) (.file content)) else .failed .notDirectory
        | none =>
          if rest.all List.isEmpty then .place (.free dir piece (!rest.isEmpty)) else .failed .notFound

def follow (t : FileTree) (followLast : Bool) : (links : Nat) → Location → List (List Char) →
    Except FileError Place
  | links, dir, pieces =>
    match walk t followLast dir pieces with
    | .place p => .ok p
    | .failed e => .error e
    | .link dir target rest =>
      match links with
      | 0 => .error .tooManyLinks
      | links + 1 =>
        if target.isEmpty then .error .notFound
        else
          follow t followLast links (if target.isAbsolute then [] else dir)
            (Path.pieces target.chars ++ rest)

def resolve (t : FileTree) (cwd : Location) (p : Path) (followLast : Bool) : Except FileError Place :=
  if p.chars.contains '\x00' then .error .nulInName
  else if p.isEmpty then .error .notFound
  else follow t followLast maxLinks (if p.isAbsolute then [] else cwd) (Path.pieces p.chars)

def find (t : FileTree) (cwd : Location) (p : Path) : Except FileError (Location × Entry) := do
  match ← t.resolve cwd p true with
  | .taken l e => .ok (l, e)
  | .free _ _ _ => .error .notFound

def exists? (t : FileTree) (cwd : Location) (p : Path) : Bool := (t.find cwd p).toOption.isSome

def isDirectory (t : FileTree) (cwd : Location) (p : Path) : Bool :=
  match t.find cwd p with
  | .ok (_, .directory) => true
  | _ => false

def canonicalize (t : FileTree) (cwd : Location) (p : Path) : Except FileError Path :=
  (t.find cwd p).map (·.1.path)

def read (t : FileTree) (cwd : Location) (p : Path) : Except FileError Content := do
  match ← t.find cwd p with
  | (_, .file content) => .ok content
  | _ => .error .isDirectory

def readText (t : FileTree) (cwd : Location) (p : Path) : Except FileError String := do
  match ← t.read cwd p with
  | .text s => .ok s
  | .binary _ => .error .notText

end FileTree

end ComponentDocs
