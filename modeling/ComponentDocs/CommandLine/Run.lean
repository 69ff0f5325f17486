import ComponentDocs.CommandLine.Arguments
import ComponentDocs.Project.Log
import ComponentDocs.Project.Watch
/-! A run of the program: what it prints, the code it exits with, and the files it leaves. -/
namespace ComponentDocs.CommandLine

def programName : String := "docgen"

def version : String := "0.1.0"

def helpText : String :=
  "\n".intercalate
    ["Generate markdown documentation for UI components",
      "",
      "Usage: docgen [OPTIONS]",
      "",
      "Options:",
      "      --config <PATH>            Explicit config file (replaces docgen.config.toml lookup)",
      "      --cwd <DIR>                Project directory (defaults to the current directory)",
      "      --components <GLOB>        Component glob, relative to the components root; repeatable",
      "      --out-dir <DIR>            Directory generated files are written under",
      "      --out-file <FILE>          Write every component into this single file",
      "      --watch                    Keep running and regenerate on changes",
      "      --formatter-command <CMD>  External formatter, e.g. \"prettier --parser \x7bparser\x7d\"",
      "      --prettier                 Format with \u0060prettier --parser markdown\u0060 from PATH",
      "  -v, --verbose...               Increase log verbosity (-v info, -vv debug)",
      "  -h, --help                     Print help",
      "  -V, --version                  Print version",
      ""]

structure Ended where
  code : Nat
  output : String := ""
  log : List Log.Item := []
  verbosity : Nat := 0
  /-- The lines on errors that follow the log. -/
  errors : String := ""
  tree : FileTree

/-- What a console gets on its second channel. -/
def Ended.stderr (console : Log.Console) (e : Ended) : String := console.write e.verbosity e.log ++ e.errors

inductive Ending
  | ended (e : Ended)
  | watching (p : Project) (tree : FileTree)

def loadConfig (t : FileTree) (here : Location) (g : Given) : Except Settings.LoadError Config := do
  let c ← Config.load t here ((g.value? .cwd).map .ofString) ((g.value? .config).map .ofString)
  let c ← match g.values .components with
    | [] => .ok c
    | patterns =>
      match PatternList.parse patterns with
      | .ok components => .ok { c with components }
      | .error problems => .error (.invalid problems)
  let c := match g.value? .outDir with
    | some dir => { c with outDir := c.cwd.join (.ofString dir) }
    | none => c
  match g.value? .outFile with
  | some file => .ok { c with outFile := some (c.cwd.join (.ofString file)) }
  | none => .ok c

def formatterCommand? (g : Given) : Except Settings.LoadError (Option Command) :=
  if g.has .prettier then .ok (some .prettier)
  else
    match g.value? .formatterCommand with
    | none => .ok none
    | some line =>
      match Command.ofLine? line with
      | some c => .ok (some c)
      | none => .error (.invalid [⟨none, "--formatter-command must name a program", none⟩])

def openProject (run : Runner) (t : FileTree) (here : Location) (g : Given) :
    Except Project.Error (Config × Project) := do
  let c ← (loadConfig t here g).mapError .settings
  let p ← Project.ofConfig t here c
  match ← (formatterCommand? g).mapError .settings with
  | some command => .ok (c, { p with formatter := .ofCommand run command })
  | none => .ok (c, p)

def describeWritten (r : Project.Report) (base : Path) : String :=
  String.join (r.written.map fun path => s!"wrote {path.displayRelative base}\n") ++
    s!"{r.written.length} written, {r.failures.length} failed\n"

def describeFailures (r : Project.Report) : String :=
  String.join (r.failures.map fun (component, e) => s!"failed {component}: {e.message}\n")

private def failed (tree : FileTree) (e : Project.Error) : Ended :=
  { code := e.exitCode, errors := s!"{programName} error: {e.message}\n", tree }

private def reported (tree : FileTree) (base : Path) (r : Project.Report) : Ended :=
  { code := if r.isSuccess then 0 else 1
    output := describeWritten r base
    errors := describeFailures r
    tree }

def settingsLog (t : FileTree) (here : Location) (g : Given) : List Log.Item :=
  let workingDir := (g.value? .cwd).map Path.ofString
  let named := (g.value? .config).map Path.ofString
  match Settings.gather t here workingDir named with
  | .error _ => []
  | .ok (_, merged, _) =>
    .call (.compile ((merged.components.map (·.value)).getD [])) ::
      match Config.load t here workingDir named, g.values .components with
      | .ok _, pattern :: patterns => [.call (.compile (pattern :: patterns))]
      | _, _ => []

def openingLog (t : FileTree) (here : Location) (g : Given) : List Log.Item :=
  settingsLog t here g ++
    match loadConfig t here g with
    | .error _ => []
    | .ok c =>
      match Engine.templateText t here c.template with
      | .error _ => []
      | .ok text =>
        .call (.parse text) ::
          match Engine.ofText text, formatterCommand? g with
          | .ok _, .ok (some command) =>
            [.record ⟨.info, "docgen_cli", "formatting with external command", [("program", Text.quoted command.program)]⟩]
          | _, _ => []

def renderingLog (t : FileTree) (here : Location) (c : Config) (request : Engine.Request) : List Log.Item :=
  match Engine.templateText t here c.template with
  | .error _ => []
  | .ok text => [.call (.render text request)]

/-- Runs the program with some flags. How the documents of all components are written is given, with whose turn it is
to log. -/
def executeBy (generate : Project → FileTree → FileTree × Except Project.Error Project.Report)
    (turns : Project.Turns) (run : Runner) (t : FileTree) (here : Location) (g : Given) : Ending :=
  let verbosity := (g.values .verbose).length
  match openProject run t here g with
  | .error e => .ended { failed t e with log := openingLog t here g, verbosity }
  | .ok (c, p) =>
    let log := openingLog t here g ++ p.generationLog (renderingLog t here c) turns t
    match generate p t with
    | (tree, .error e) => .ended { failed tree e with log, verbosity }
    | (tree, .ok r) =>
      if g.has .watch || c.watch then
        match Project.checkWatch p.here tree p.config.componentsDir with
        | .error e => .ended { failed tree e with log := log ++ [Project.watchingItem r], verbosity }
        | .ok () => .watching p tree
      else .ended { reported tree c.cwd r with log, verbosity }

def execute (run : Runner) (t : FileTree) (here : Location) (g : Given) : Ending :=
  executeBy (fun p t => ((p.generateAll t).tree, (p.generateAll t).result)) {} run t here g

def answer (t : FileTree) (args : List String) (execute : Given → Ending) : Ending :=
  match Demand.ofArguments args with
  | .error e => .ended { code := 2, errors := s!"error: {e.message}\n", tree := t }
  | .ok .help => .ended { code := 0, output := helpText, tree := t }
  | .ok .version => .ended { code := 0, output := s!"{programName} {version}\n", tree := t }
  | .ok (.run g) => execute g

def start (run : Runner) (t : FileTree) (here : Location) (args : List String) : Ending :=
  answer t args (execute run t here)

/-- Runs the program, where it depends on the turns of components in which order their files are written. -/
def startBy (turns : Project.Turns) (run : Runner) (t : FileTree) (here : Location) (args : List String) : Ending :=
  answer t args (executeBy (fun p t => p.generateBy turns.steps t) turns run t here)

end ComponentDocs.CommandLine
