import ComponentDocs.Glob.Match
import ComponentDocs.Settings.Layer
/-! Lists of glob patterns. -/
namespace ComponentDocs

/-- Patterns in order. A path matches the list if it matches any of them. -/
structure PatternList where
  globs : List Glob
deriving Repr

namespace PatternList
open Settings

def texts (l : PatternList) : List String := l.globs.map Glob.text

def isEmpty (l : PatternList) : Bool := l.globs.isEmpty

def matchesPath (l : PatternList) (p : Path) : Bool := l.globs.any fun g => g.matchesPath p

def problem (source : Source) (e : Glob.Error) : Problem where
  context := some "components"
  message := "invalid glob pattern '" ++ e.pattern ++ "': " ++ e.message
  source := some source

/-- The valid patterns of a list, and a problem for each of the others. -/
def compile (l : Located (List String)) : PatternList × List Problem :=
  let parsed := l.value.map Glob.parse
  (⟨parsed.filterMap Except.toOption⟩,
    parsed.filterMap fun
      | .ok _ => none
      | .error e => some (problem l.source e))

def parse (patterns : List String) : Except (List Problem) PatternList :=
  match compile ⟨patterns, ⟨.overrideFile, none, .ofString "."⟩⟩ with
  | (l, []) => .ok l
  | (_, problems) => .error problems

end PatternList

/-! The settings that documentation is generated by. -/

open Settings

structure ProjectSettings where
  /-- The directory that relative component paths start from. -/
  cwd : Path
  /-- The directory of the components as seen from `cwd`. Empty means `cwd` itself. -/
  componentsRoot : Path
  components : PatternList
  outDir : Path
  /-- The one file for all components. Without it, each has a file of its own. -/
  outFile : Option Path
  watch : Bool
  template : Option Path
  workingDirectory : Path
  /-- The layers that the settings are made of, from the lowest. -/
  layers : List Source
deriving Repr

structure Config extends ProjectSettings where
  supplement : Path → Option Path
  destination : ProjectSettings → Path → Path

namespace Config

def markdown : String := "md"

def defaultSupplement (fullPath : Path) : Option Path := some (fullPath.withExtension markdown)

def defaultDestination (s : ProjectSettings) (component : Path) : Path :=
  (s.outDir.join component).withExtension markdown

def componentsDir (c : Config) : Path :=
  if c.componentsRoot.isEmpty then c.cwd else c.cwd.join c.componentsRoot

/-- The same settings, with component paths that start from the directory of the components. -/
def rootedAtComponents (c : Config) : Config :=
  { c with cwd := c.componentsDir, componentsRoot := c.componentsDir }

def destFile (c : Config) (component : Path) : Path := c.destination c.toProjectSettings component

/-- Whether a path, as seen from the directory of the components, names one of them. -/
def isComponent (c : Config) (relative : Path) : Bool := c.components.matchesPath relative

def ofLayers (merged : Layer) (workingDirectory : Path) (layers : List Source) : Config × List Problem :=
  let patterns := merged.components.getD ⟨[], ⟨.defaults, none, .ofString "."⟩⟩
  let (components, problems) := PatternList.compile patterns
  let problems :=
    if components.isEmpty && problems.isEmpty then
      [⟨none, "at least one component pattern is required", none⟩]
    else problems
  ({ cwd := workingDirectory
     componentsRoot := (merged.componentsRoot.map Located.resolve).getD ⟨[]⟩
     components
     outDir := (merged.outDir.map Located.resolve).getD Layer.defaultOutDir
     outFile := merged.outFile.map Located.resolve
     watch := merged.watch.getD false
     template := merged.template.map Located.resolve
     workingDirectory
     layers
     supplement := defaultSupplement
     destination := defaultDestination }, problems)

def forWorkingDir (cwd : Path) : Config :=
  let source : Source := ⟨.defaults, none, cwd⟩
  (ofLayers (Layer.defaults source) cwd [source]).1

end Config

end ComponentDocs
