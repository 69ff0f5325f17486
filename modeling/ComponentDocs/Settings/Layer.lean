import ComponentDocs.Path.Basic
import ComponentDocs.Text.Basic
import ComponentDocs.Toml.Value
/-! Where a setting comes from, and what can be wrong with it. -/
namespace ComponentDocs.Settings

/-- The layers of settings, from the lowest to the highest. -/
inductive SourceKind
  | defaults
  | localFile
  | overrideFile
deriving DecidableEq, Repr

def SourceKind.label : SourceKind → String
  | .defaults => "defaults"
  | .localFile => "local config"
  | .overrideFile => "override config"

/-- One layer of settings. Its relative paths start from `baseDir`. -/
structure Source where
  kind : SourceKind
  path : Option Path
  baseDir : Path
deriving DecidableEq, Repr

def Source.describe (s : Source) : String :=
  match s.kind, s.path with
  | .defaults, _ => "built-in defaults"
  | kind, some path => kind.label ++ " at " ++ path.toString
  | kind, none => kind.label

structure Located (α : Type) where
  value : α
  source : Source
deriving Repr

/-- A path of a layer, from the directory of the layer on. The empty path stays as it is. -/
def Located.resolve (l : Located Path) : Path :=
  if l.value.isAbsolute || l.value.isEmpty then l.value else l.source.baseDir.join l.value

structure Problem where
  context : Option String
  message : String
  source : Option Source
deriving DecidableEq, Repr

def Problem.describe (p : Problem) : String :=
  let text := match p.context with
    | some context => context ++ ": " ++ p.message
    | none => p.message
  match p.source with
  | some source => text ++ " (" ++ source.describe ++ ")"
  | none => text

def describeProblems (ps : List Problem) : String :=
  "\n".intercalate (ps.map fun p => "- " ++ p.describe)

/-! The settings that a TOML document gives. The entries are taken in their order,
and the first one that does not fit is reported. -/

open Toml

structure Written where
  componentsRoot : Option Path := none
  components : Option (List String) := none
  outDir : Option Path := none
  outFile : Option Path := none
  watch : Option Bool := none
  template : Option Path := none
deriving DecidableEq, Repr

inductive Mismatch
  | unknownKey (key : String) (known : List String)
  | wrongKind (found expected : String)
  | notPatterns
deriving DecidableEq, Repr

private def ticked (s : String) : String := "`" ++ s ++ "`"

def Mismatch.message : Mismatch → String
  | .unknownKey key known =>
    "unknown field " ++ ticked key ++ ", expected " ++ (if known.length = 1 then "" else "one of ") ++
      ", ".intercalate (known.map ticked)
  | .wrongKind found expected => "invalid type: " ++ found ++ ", expected " ++ expected
  | .notPatterns => "data did not match any variant of untagged enum RawPatterns"

/-- The kind of a value, with the value itself if it is a plain one. -/
def describeValue : Value → String
  | .string s => "string " ++ Text.quoted s
  | .integer n => "integer " ++ ticked (toString n)
  | .float x => "floating point " ++ ticked x.toString
  | .boolean b => "boolean " ++ ticked (toString b)
  | .moment | .table _ _ => "map"
  | .array _ | .tables _ => "sequence"

private def decodePath : Value → Except Mismatch Path
  | .string s => .ok (.ofString s)
  | v => .error (.wrongKind (describeValue v) "path string")

private def decodeFlag : Value → Except Mismatch Bool
  | .boolean b => .ok b
  | v => .error (.wrongKind (describeValue v) "a boolean")

private def text? : Value → Option String
  | .string s => some s
  | _ => none

private def decodePatterns : Value → Except Mismatch (List String)
  | .string s => .ok [s]
  | .array vs =>
    match vs.mapM text? with
    | some texts => .ok texts
    | none => .error .notPatterns
  | .tables [] => .ok []
  | _ => .error .notPatterns

def knownTemplates : List String := ["component"]

private def decodeTemplateEntry (key : String) (v : Value) : Except Mismatch Path :=
  if key == "component" then decodePath v else .error (.unknownKey key knownTemplates)

/-- The template for components: by its key in a table, or first in a list. -/
private def decodeTemplate : Value → Except Mismatch (Option Path)
  | .table _ es =>
    es.foldlM (fun _ e => (decodeTemplateEntry e.1 e.2).map some) none
  | .array [] | .tables [] => .ok none
  | .array (v :: _) => (decodePath v).map some
  | .tables (es :: _) => (decodePath (.table .header es)).map some
  | .moment => .error (.unknownKey "$__toml_private_datetime" knownTemplates)
  | v => .error (.wrongKind (describeValue v) "struct RawTemplates")

def knownKeys : List String :=
  ["components_root", "components", "out_dir", "out_file", "watch", "templates"]

private def decodeEntry (w : Written) (key : String) (v : Value) : Except Mismatch Written :=
  match key with
  | "components_root" => (decodePath v).map fun p => { w with componentsRoot := some p }
  | "components" => (decodePatterns v).map fun ps => { w with components := some ps }
  | "out_dir" => (decodePath v).map fun p => { w with outDir := some p }
  | "out_file" => (decodePath v).map fun p => { w with outFile := some p }
  | "watch" => (decodeFlag v).map fun b => { w with watch := some b }
  | "templates" => (decodeTemplate v).map fun p => { w with template := p }
  | _ => .error (.unknownKey key knownKeys)

def decode (es : Entries) : Except Mismatch Written :=
  es.foldlM (fun w e => decodeEntry w e.1 e.2) {}

/-! Layers of settings. A higher layer hides what a lower one says about the same setting,
and nothing else. -/

structure Layer where
  componentsRoot : Option (Located Path) := none
  components : Option (Located (List String)) := none
  outDir : Option (Located Path) := none
  outFile : Option (Located Path) := none
  watch : Option Bool := none
  template : Option (Located Path) := none
deriving Repr

namespace Layer

def atop (upper lower : Layer) : Layer where
  componentsRoot := upper.componentsRoot <|> lower.componentsRoot
  components := upper.components <|> lower.components
  outDir := upper.outDir <|> lower.outDir
  outFile := upper.outFile <|> lower.outFile
  watch := upper.watch <|> lower.watch
  template := upper.template <|> lower.template

def ofWritten (w : Written) (source : Source) : Layer where
  componentsRoot := w.componentsRoot.map (⟨·, source⟩)
  components := w.components.map (⟨·, source⟩)
  outDir := w.outDir.map (⟨·, source⟩)
  outFile := w.outFile.map (⟨·, source⟩)
  watch := w.watch
  template := w.template.map (⟨·, source⟩)

def defaultPattern : String := "**/[a-zA-Z]*.\x7bvue,jsx,tsx\x7d"

def defaultOutDir : Path := .ofString "docs"

def defaults (source : Source) : Layer where
  components := some ⟨[defaultPattern], source⟩
  outDir := some ⟨defaultOutDir, source⟩
  watch := some false

end Layer

end ComponentDocs.Settings
