import ComponentDocs.Path.Basic
/-! Paths below other paths, by segments. -/
namespace ComponentDocs.Path

def dropSegments : List Segment → List (List Char) → Option (List (List Char))
  | [], ps => some ps
  | _ :: _, [] => none
  | s :: front, p :: ps =>
    match segment? p with
    | none => dropSegments (s :: front) ps
    | some t => if s = t then dropSegments front ps else none

/-- What comes after the segments of `base`, as it is written in `p`. The empty base takes
nothing off but idle pieces at the end. -/
def stripPrefix? (p base : Path) : Option Path :=
  if base.segments.isEmpty then some (build p.lead p.tightBody)
  else if base.lead ≠ p.lead then none
  else
    (dropSegments (base.body.filterMap segment?) p.body).map fun rest =>
      ⟨glue (trimIdle (rest.dropWhile isIdle))⟩

def startsWith (p base : Path) : Bool := (p.stripPrefix? base).isSome

/-! Paths without idle segments, and the text by which a path is shown. -/

/-- Takes a segment onto the segments passed so far, the latest first. A step up undoes a
name, does nothing at the root, and stays at the front of a relative path. -/
def climb (absolute : Bool) (passed : List Segment) (s : Segment) : List Segment :=
  match s, passed with
  | .up, .name _ :: rest => rest
  | .up, rest => if absolute then rest else .up :: rest
  | .name n, rest => .name n :: rest
  | _, rest => rest

def segmentChars : Segment → List Char
  | .root => ['/']
  | .here => ['.']
  | .up => ['.', '.']
  | .name n => n

/-- The path with `.` and `..` worked out by the spelling alone. -/
def normalize (p : Path) : Path :=
  let steps := (p.segments.foldl (climb p.isAbsolute) []).reverse
  build (if p.isAbsolute then .root else .plain) (steps.map segmentChars)

def key (p : Path) : String :=
  String.ofList (glue (p.segments.filterMap fun
    | .up => some ['.', '.']
    | .name n => some n
    | _ => none))

/-- The path as seen from `base`, or the whole of it if it does not lie below `base`. -/
def displayRelative (p base : Path) : String :=
  match p.stripPrefix? base with
  | some rest => rest.key
  | none => p.toString

end ComponentDocs.Path
