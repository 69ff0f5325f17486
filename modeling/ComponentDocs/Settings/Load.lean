import ComponentDocs.FileTree.Basic
import ComponentDocs.Settings.Config
import ComponentDocs.Toml.Parse
/-! Loading settings: the defaults, then the file of the project, then a file that is
named explicitly. -/
namespace ComponentDocs
open Settings

namespace Settings

inductive ParseFailure
  | malformed
  | mismatch (m : Mismatch)
deriving DecidableEq, Repr

inductive LoadError
  | workingDirectory (attempted : Path) (cause : FileError)
  | overrideNotFound (path : Path)
  | unreadable (path : Path) (cause : FileError)
  | unparsable (path : Path) (failure : ParseFailure)
  | invalid (problems : List Problem)
deriving DecidableEq, Repr

/-- The text of an error. What the reader of documents says about a file is left out. -/
def LoadError.message : LoadError → String
  | .workingDirectory attempted cause =>
    s!"failed to resolve working directory {attempted}: {cause.message}"
  | .overrideNotFound path => s!"override config {path} not found"
  | .unreadable path cause => s!"failed to read config {path}: {cause.message}"
  | .unparsable path _ => s!"failed to parse config {path}: TOML parse error"
  | .invalid problems => "configuration validation failed:\n" ++ describeProblems problems

def fileName : Path := .ofString "docgen.config.toml"

def Source.ofFile (kind : SourceKind) (path : Path) : Source :=
  ⟨kind, some path, path.parent?.getD (.ofString ".")⟩

def parseLayer (text : String) : Except ParseFailure Written :=
  match Toml.parse text with
  | none => .error .malformed
  | some entries =>
    match decode entries with
    | .ok w => .ok w
    | .error m => .error (.mismatch m)

def readLayer (t : FileTree) (cwd : Location) (source : Source) (path : Path) : Except LoadError Layer :=
  match t.readText cwd path with
  | .error e => .error (.unreadable path e)
  | .ok text =>
    match parseLayer text with
    | .error f => .error (.unparsable path f)
    | .ok w => .ok (Layer.ofWritten w source)

def workingDir (t : FileTree) (cwd : Location) : Option Path → Except LoadError Path
  | none => .ok cwd.path
  | some dir =>
    match t.canonicalize cwd dir with
    | .ok dir => .ok dir
    | .error e => .error (.workingDirectory dir e)

/-- The files that give settings, from the lowest layer. A file of the project that is named
explicitly counts as the higher layer only. -/
def sources (t : FileTree) (cwd : Location) (dir : Path) (named : Option Path) : List Source :=
  let own := dir.join fileName
  let isOwn := t.exists? cwd own && !(named.any own.same)
  (if isOwn then [Source.ofFile .localFile own] else []) ++
    (named.map (Source.ofFile .overrideFile)).toList

def checkNamed (t : FileTree) (cwd : Location) : Option Path → Except LoadError Unit
  | some path => if t.exists? cwd path then .ok () else .error (.overrideNotFound path)
  | none => .ok ()

def readOnto (t : FileTree) (cwd : Location) (lower : Layer) (s : Source) : Except LoadError Layer := do
  return (← readLayer t cwd s (s.path.getD fileName)).atop lower

/-- What the files for a directory say on top of the defaults, with the directory and where it all comes from.
`named` is the file that is named explicitly. -/
def gather (t : FileTree) (cwd : Location) (workingDir named : Option Path) :
    Except LoadError (Path × Layer × List Source) := do
  let dir ← Settings.workingDir t cwd workingDir
  checkNamed t cwd (named.map dir.join)
  let files := sources t cwd dir (named.map dir.join)
  let merged ← files.foldlM (readOnto t cwd) (Layer.defaults ⟨.defaults, none, dir⟩)
  return (dir, merged, ⟨.defaults, none, dir⟩ :: files)

def validated : Config × List Problem → Except LoadError Config
  | (c, []) => .ok c
  | (_, problems) => .error (.invalid problems)

end Settings

def Config.load (t : FileTree) (cwd : Location) (workingDir named : Option Path) : Except LoadError Config := do
  let (dir, merged, layers) ← gather t cwd workingDir named
  validated (Config.ofLayers merged dir layers)

end ComponentDocs
