/-! Paths as they are written, and the segments they stand for. Several spellings
may have the same segments: repeated slashes, inner `.` and a slash at the end
leave none behind. -/
namespace ComponentDocs

inductive Segment
  | root
  | here
  | up
  | name (chars : List Char)
deriving DecidableEq, Repr

/-- A path with its spelling. -/
structure Path where
  chars : List Char
deriving DecidableEq, Repr, Inhabited

namespace Path

protected def ofString (s : String) : Path := ⟨s.toList⟩

protected def toString (p : Path) : String := String.ofList p.chars

instance : ToString Path := ⟨Path.toString⟩

def isEmpty (p : Path) : Bool := p.chars.isEmpty

def isAbsolute (p : Path) : Bool := p.chars.head? == some '/'

/-- The parts of a text between its slashes, one at least. -/
def pieces : List Char → List (List Char)
  | [] => [[]]
  | c :: cs =>
    if c == '/' then [] :: pieces cs
    else
      match pieces cs with
      | [] => [[c]]
      | p :: ps => (c :: p) :: ps

def glue (ps : List (List Char)) : List Char := List.intercalate ['/'] ps

def segment? : List Char → Option Segment
  | [] | ['.'] => none
  | ['.', '.'] => some .up
  | n => some (.name n)

/-- A piece without a segment. -/
def isIdle (piece : List Char) : Bool := (segment? piece).isNone

inductive Lead
  | plain
  | root
  | here
deriving DecidableEq, Repr

def Lead.segments : Lead → List Segment
  | .plain => []
  | .root => [.root]
  | .here => [.here]

def lead (p : Path) : Lead :=
  match pieces p.chars with
  | [] :: _ :: _ => .root
  | ['.'] :: _ => .here
  | _ => .plain

def body (p : Path) : List (List Char) :=
  match p.lead with
  | .plain => pieces p.chars
  | _ => (pieces p.chars).drop 1

def segments (p : Path) : List Segment := p.lead.segments ++ p.body.filterMap segment?

/-- Two spellings of the same segments. -/
def same (p q : Path) : Bool := p.segments == q.segments

/-- The path `p` seen from `base`. An absolute path stays as it is. -/
def join (base p : Path) : Path :=
  if p.isAbsolute then p
  else if base.chars.getLast?.all (· == '/') then ⟨base.chars ++ p.chars⟩
  else ⟨base.chars ++ '/' :: p.chars⟩

theorem pieces_ne_nil (cs : List Char) : pieces cs ≠ [] := by
  cases cs with
  | nil => simp [pieces]
  | cons c cs =>
    unfold pieces
    split
    · simp
    · split <;> simp

theorem join_absolute {p : Path} (base : Path) (h : p.isAbsolute = true) : base.join p = p := by
  simp [join, h]

theorem join_empty_left (p : Path) : join ⟨[]⟩ p = p := by
  unfold join; split <;> simp

/-! The last name of a path, its stem and its extension, and the path without it. -/

def trimIdle (ps : List (List Char)) : List (List Char) := (ps.reverse.dropWhile isIdle).reverse

def tightBody (p : Path) : List (List Char) := trimIdle p.body

def build : Lead → List (List Char) → Path
  | .plain, ps => ⟨glue ps⟩
  | .root, ps => ⟨'/' :: glue ps⟩
  | .here, [] => ⟨['.']⟩
  | .here, ps => ⟨'.' :: '/' :: glue ps⟩

/-- The path without its last segment. A root has no parent, and neither has the empty path. -/
def parent? (p : Path) : Option Path :=
  match p.tightBody with
  | [] => if p.lead = .here then some ⟨[]⟩ else none
  | ps => some (build p.lead (trimIdle ps.dropLast))

def fileName? (p : Path) : Option (List Char) :=
  match p.tightBody.getLast? with
  | some ['.', '.'] | none => none
  | some n => some n

/-- A name without its extension. A dot at the front of a name starts no extension. -/
def stem (name : List Char) : List Char :=
  match (name.reverse.dropWhile (· != '.')).drop 1 with
  | [] => name
  | front => front.reverse

def fileStem? (p : Path) : Option (List Char) := p.fileName?.map stem

/-- The path with another extension of its last name. A path without a name stays as it is. -/
def withExtension (p : Path) (extension : String) : Path :=
  match p.fileStem? with
  | none => p
  | some s => build p.lead (p.tightBody.dropLast ++ [s ++ '.' :: extension.toList])

end Path

end ComponentDocs
