import ComponentDocs.Proofs.FileTree.Frame
import ComponentDocs.Proofs.Stages
import ComponentDocs.Settings.Load
import Mathlib.Data.List.TakeWhile
import Mathlib.Tactic
/-! Settings are made of layers. Each setting is the one of the highest layer that says anything about it,
whatever the layers say about the others. -/
namespace ComponentDocs

namespace Settings
variable {α β : Type}

/-- The defaults, as a file would give them. -/
def Written.defaults : Written where
  components := some [Layer.defaultPattern]
  outDir := some Layer.defaultOutDir
  watch := some false

/-- What the highest of the layers says about a setting that says anything about it. The layers are given
from the lowest. -/
def highest (layers : List (Located Written)) (setting : Written → Option α) : Option (Located α) :=
  layers.reverse.findSome? fun l => (setting l.value).map (⟨·, l.source⟩)

variable {layers : List (Located Written)} {setting : Written → Option α}

theorem highest_concat (layers : List (Located Written)) (setting : Written → Option α) (l : Located Written) :
    highest (layers ++ [l]) setting = ((setting l.value).map (⟨·, l.source⟩)).or (highest layers setting) := by
  cases h : setting l.value <;> simp [highest, h]

theorem highest_eq_none : highest layers setting = none ↔ ∀ l ∈ layers, setting l.value = none := by
  simp [highest]

theorem highest_eq_some {l : Located α} : highest layers setting = some l ↔ ∃ lower w higher,
    layers = lower ++ ⟨w, l.source⟩ :: higher ∧ setting w = some l.value ∧ ∀ x ∈ higher, setting x.value = none := by
  rw [highest, List.findSome?_eq_some_iff]
  constructor
  · rintro ⟨above, ⟨w, s⟩, below, he, hs, hnone⟩
    obtain ⟨v, hv, rfl⟩ := Option.map_eq_some_iff.1 hs
    refine ⟨below.reverse, w, above.reverse, ?_, hv, by simpa using hnone⟩
    rw [← List.reverse_reverse layers, he]
    simp
  · rintro ⟨lower, w, higher, rfl, hv, hnone⟩
    exact ⟨higher.reverse, ⟨w, l.source⟩, lower.reverse, by simp, by simp [hv], by simpa using hnone⟩

/-- All layers taken together. -/
def stacked (layers : List (Located Written)) : Layer :=
  layers.foldl (fun lower l => (Layer.ofWritten l.value l.source).atop lower) {}

theorem stacked_concat (lower : List (Located Written)) (top : Located Written) :
    stacked (lower ++ [top]) = (Layer.ofWritten top.value top.source).atop (stacked lower) := by
  simp [stacked]

/-- Taking layers together takes each setting from the highest layer that has it. `get` is the setting in a
layer, and `f` what becomes of its value there. -/
theorem get_stacked {get : Layer → Option β} {f : Located α → β} (hempty : get {} = none)
    (hwritten : ∀ w s, get (.ofWritten w s) = (setting w).map fun v => f ⟨v, s⟩)
    (hatop : ∀ upper lower, get (upper.atop lower) = (get upper).or (get lower)) (layers : List (Located Written)) :
    get (stacked layers) = (highest layers setting).map f := by
  induction layers using List.reverseRecOn with
  | nil => exact hempty
  | append_singleton lower top ih =>
    rw [stacked_concat, hatop, ih, hwritten, highest_concat]
    cases setting top.value <;> simp

theorem stacked_watch (layers : List (Located Written)) :
    (stacked layers).watch = (highest layers (·.watch)).map Located.value :=
  get_stacked rfl (fun w _ => by simp [Layer.ofWritten]) (fun _ _ => Option.orElse_eq_or ..) layers

theorem get_stacked_located {get : Layer → Option (Located α)} (hempty : get {} = none)
    (hwritten : ∀ w s, get (.ofWritten w s) = (setting w).map (⟨·, s⟩))
    (hatop : ∀ upper lower, get (upper.atop lower) = (get upper <|> get lower)) (layers : List (Located Written)) :
    get (stacked layers) = highest layers setting := by
  rw [get_stacked (f := id) hempty hwritten fun _ _ => (hatop _ _).trans (Option.orElse_eq_or ..)]
  exact congrFun Option.map_id_fun _

/-- A file as one layer of settings. Its paths start from the directory it lies in. -/
structure IsFileLayer (t : FileTree) (here : Location) (kind : SourceKind) (file : Path) (l : Located Written) :
    Prop where
  kind : l.source.kind = kind
  path : l.source.path = some file
  baseDir : file.parent? = some l.source.baseDir
  value : ∃ text, t.readText here file = .ok text ∧ parseLayer text = .ok l.value

variable {t : FileTree} {here : Location} {kind : SourceKind}

theorem mem_body_or_isIdle {file : Path} {piece : List Char} (h : piece ∈ Path.pieces file.chars) :
    piece ∈ file.body ∨ Path.isIdle piece = true := by
  by_cases hidle : Path.isIdle piece = true
  · exact .inr hidle
  · left
    rw [Path.body]
    split
    · exact h
    · rename_i hlead
      cases hp : Path.pieces file.chars with
      | nil => simp [hp] at h
      | cons first rest =>
        have hne : piece ≠ first := by
          rintro rfl
          apply hlead
          rw [Path.lead, hp]
          split <;> simp_all [Path.isIdle, Path.segment?]
        simpa [hp, hne] using h

theorem exists_parent {file : Path} {text : String} (h : t.readText here file = .ok text) :
    ∃ dir, file.parent? = some dir := by
  by_contra hno
  have hbody : Path.trimIdle file.body = [] := by
    change file.tightBody = []
    cases hb : file.tightBody with
    | nil => rfl
    | cons p ps => simp [Path.parent?, hb] at hno
  have hidle : ∀ piece ∈ Path.pieces file.chars, Path.isIdle piece = true := by
    intro piece hp
    refine (mem_body_or_isIdle hp).elim (fun hm => ?_) id
    have hdrop : file.body.reverse.dropWhile Path.isIdle = [] := by simpa [Path.trimIdle] using hbody
    exact List.dropWhile_eq_nil_iff.1 hdrop piece (by simpa using hm)
  simp only [FileTree.readText, FileTree.read, FileTree.find, FileTree.resolve] at h
  split_ifs at h <;> simp_all [FileTree.follow, FileTree.walk_of_forall_isIdle, bind, Except.bind]

theorem readLayer_eq_ok {file : Path} {layer : Layer} (h : readLayer t here (.ofFile kind file) file = .ok layer) :
    ∃ l, IsFileLayer t here kind file l ∧ l.source = .ofFile kind file ∧
      layer = Layer.ofWritten l.value l.source := by
  unfold readLayer at h
  split at h
  · cases h
  · rename_i text htext
    split at h
    · cases h
    · rename_i w hw
      cases h
      obtain ⟨dir, hdir⟩ := exists_parent htext
      exact ⟨⟨w, .ofFile kind file⟩, ⟨rfl, rfl, by simp [Source.ofFile, hdir], text, htext, hw⟩, rfl, rfl⟩

theorem readOnto_eq_ok {below : List (Located Written)} {file : Path} {layer : Layer}
    (h : readOnto t here (stacked below) (.ofFile kind file) = .ok layer) :
    ∃ l, IsFileLayer t here kind file l ∧ l.source = .ofFile kind file ∧ layer = stacked (below ++ [l]) := by
  have hpath : (Source.ofFile kind file).path.getD fileName = file := rfl
  rw [readOnto, hpath] at h
  obtain ⟨top, hr, h⟩ := bind_eq_ok h
  cases h
  obtain ⟨l, hl, hs, rfl⟩ := readLayer_eq_ok hr
  exact ⟨l, hl, hs, (stacked_concat below l).symm⟩

theorem foldlM_readOnto_eq_ok {files : List (SourceKind × Path)} {below : List (Located Written)} {merged : Layer}
    (h : (files.map fun f => Source.ofFile f.1 f.2).foldlM (readOnto t here) (stacked below) = .ok merged) :
    ∃ layers, List.Forall₂ (fun f l => IsFileLayer t here f.1 f.2 l ∧ l.source = .ofFile f.1 f.2) files layers ∧
      merged = stacked (below ++ layers) := by
  induction files generalizing below with
  | nil =>
    cases h
    exact ⟨[], .nil, by simp⟩
  | cons f files ih =>
    rw [List.map_cons, List.foldlM_cons] at h
    obtain ⟨layer, hr, h⟩ := bind_eq_ok h
    obtain ⟨l, hl, hs, rfl⟩ := readOnto_eq_ok hr
    obtain ⟨layers, hlayers, hm⟩ := ih h
    exact ⟨l :: layers, .cons ⟨hl, hs⟩ hlayers, by simpa using hm⟩

/-- The layers of a directory above the defaults: the file in it, and the file that is named. -/
structure FileLayers (t : FileTree) (here : Location) (dir : Path) (named : Option Path) where
  own : Option (Located Written)
  override : Option (Located Written)
  isSome_own : own.isSome ↔ t.exists? here (dir.join fileName) = true ∧
    ∀ file, named = some file → (dir.join fileName).same (dir.join file) = false
  isSome_override : override.isSome ↔ named.isSome
  isFileLayer_own : ∀ l, own = some l → IsFileLayer t here .localFile (dir.join fileName) l
  isFileLayer_override : ∀ l file, override = some l → named = some file →
    IsFileLayer t here .overrideFile (dir.join file) l

/-- All layers of a directory, from the lowest. -/
def FileLayers.all {dir : Path} {named : Option Path} (files : FileLayers t here dir named) : List (Located Written) :=
  ⟨Written.defaults, .defaults, none, dir⟩ :: (files.own.toList ++ files.override.toList)

/-- The files of a directory that give settings, from the lowest. -/
def filesOf (own : Bool) (dir : Path) (named : Option Path) : List (SourceKind × Path) :=
  (if own then [(.localFile, dir.join fileName)] else []) ++
    (named.map fun file => (SourceKind.overrideFile, dir.join file)).toList

/-- The file of the directory counts unless it is the one that is named. -/
def ownCounts (t : FileTree) (here : Location) (dir : Path) (named : Option Path) : Bool :=
  t.exists? here (dir.join fileName) && !(named.map dir.join).any (dir.join fileName).same

theorem sources_eq (t : FileTree) (here : Location) (dir : Path) (named : Option Path) :
    sources t here dir (named.map dir.join) =
      (filesOf (ownCounts t here dir named) dir named).map fun f => Source.ofFile f.1 f.2 := by
  change (if ownCounts t here dir named then [Source.ofFile .localFile (dir.join fileName)] else []) ++ _ = _
  rw [filesOf, List.map_append]
  congr 1
  · split <;> rfl
  · cases named <;> rfl

theorem ownCounts_iff {dir : Path} {named : Option Path} : ownCounts t here dir named = true ↔
    t.exists? here (dir.join fileName) = true ∧
      ∀ file, named = some file → (dir.join fileName).same (dir.join file) = false := by
  cases named <;> simp [ownCounts]

theorem exists_fileLayers {dir : Path} {named : Option Path} {layers : List (Located Written)}
    (h : List.Forall₂ (fun f l => IsFileLayer t here f.1 f.2 l ∧ l.source = .ofFile f.1 f.2)
      (filesOf (ownCounts t here dir named) dir named) layers) :
    ∃ files : FileLayers t here dir named, layers = files.own.toList ++ files.override.toList := by
  have hown : ownCounts t here dir named = true ↔ _ := ownCounts_iff
  cases hc : ownCounts t here dir named with
  | false =>
    rw [hc] at h hown
    cases named with
    | none =>
      cases h
      exact ⟨⟨none, none, hown, by simp, by simp, by simp⟩, rfl⟩
    | some file =>
      obtain - | ⟨⟨hl, -⟩, h⟩ := h
      cases h
      exact ⟨⟨none, some _, hown, by simp, by simp, by rintro _ _ ⟨⟩ ⟨⟩; exact hl⟩, rfl⟩
  | true =>
    rw [hc] at h hown
    obtain - | ⟨⟨hl, -⟩, h⟩ := h
    cases named with
    | none =>
      cases h
      exact ⟨⟨some _, none, hown, by simp, by rintro _ ⟨⟩; exact hl, by simp⟩, rfl⟩
    | some file =>
      obtain - | ⟨⟨hl', -⟩, h⟩ := h
      cases h
      exact ⟨⟨some _, some _, hown, by simp, by rintro _ ⟨⟩; exact hl, by rintro _ _ ⟨⟩ ⟨⟩; exact hl'⟩, rfl⟩

/-- A setting that has a default is in some layer. -/
theorem exists_highest (s : Source) (layers : List (Located Written)) (h : (setting Written.defaults).isSome) :
    ∃ l, highest (⟨Written.defaults, s⟩ :: layers) setting = some l := by
  rw [← Option.ne_none_iff_exists', Ne, highest_eq_none]
  intro hnone
  simp [hnone ⟨Written.defaults, s⟩ (by simp)] at h

theorem stacked_defaults (s : Source) : stacked [⟨Written.defaults, s⟩] = Layer.defaults s := by
  simp [stacked, Layer.ofWritten, Layer.defaults, Layer.atop, Written.defaults]

end Settings

open Settings

theorem Glob.text_parse {pattern : String} {g : Glob} (h : Glob.parse pattern = .ok g) : g.text = pattern := by
  unfold Glob.parse at h
  split at h <;> cases h
  rfl

theorem PatternList.compile_eq_nil {patterns : Located (List String)} {l : PatternList}
    (h : compile patterns = (l, [])) : patterns.value.map Glob.parse = l.globs.map .ok := by
  obtain ⟨texts, source⟩ := patterns
  obtain ⟨rfl, hnone⟩ := Prod.mk.inj h
  change texts.map Glob.parse = ((texts.map Glob.parse).filterMap Except.toOption).map .ok
  dsimp only at hnone
  generalize texts.map Glob.parse = parsed at hnone ⊢
  induction parsed with
  | nil => rfl
  | cons r parsed ih =>
    cases r with
    | error e => cases hnone
    | ok g => exact congrArg (Except.ok g :: ·) (ih hnone)

theorem PatternList.texts_of_map_parse {texts : List String} {l : PatternList}
    (h : texts.map Glob.parse = l.globs.map .ok) : l.texts = texts := by
  obtain ⟨globs⟩ := l
  induction texts generalizing globs with
  | nil => simp_all [PatternList.texts]
  | cons text texts ih =>
    cases globs with
    | nil => cases h
    | cons g globs =>
      obtain ⟨hg, hrest⟩ := List.cons.inj h
      exact congrArg₂ List.cons (Glob.text_parse hg) (ih globs hrest)

/-- Each setting is the one of the highest layer that has it. -/
structure Config.IsMadeOf (c : Config) (layers : List (Located Written)) : Prop where
  componentsRoot : c.componentsRoot = ((highest layers (·.componentsRoot)).map Located.resolve).getD ⟨[]⟩
  components : ∃ l, highest layers (·.components) = some l ∧ c.components.texts = l.value ∧
    l.value.map Glob.parse = c.components.globs.map .ok
  outDir : ∃ l, highest layers (·.outDir) = some l ∧ c.outDir = l.resolve
  outFile : c.outFile = (highest layers (·.outFile)).map Located.resolve
  watch : ∃ l, highest layers (·.watch) = some l ∧ c.watch = l.value
  template : c.template = (highest layers (·.template)).map Located.resolve
  layers : c.layers = layers.map (·.source)

variable {t : FileTree} {here : Location}

/-- Loading goes through stages: the directory, the file that is named, the layers, and a check of what they give. -/
theorem Config.load_eq (t : FileTree) (here : Location) (workingDir named : Option Path) :
    Config.load t here workingDir named = (do
      let dir ← Settings.workingDir t here workingDir
      checkNamed t here (named.map dir.join)
      let files := sources t here dir (named.map dir.join)
      let merged ← files.foldlM (readOnto t here) (Layer.defaults ⟨.defaults, none, dir⟩)
      validated (Config.ofLayers merged dir (⟨.defaults, none, dir⟩ :: files))) := by
  unfold Config.load gather
  simp only [bind_assoc, pure_bind]

theorem Config.load_eq_ok {workingDir named : Option Path} {c : Config}
    (h : Config.load t here workingDir named = .ok c) :
    ∃ dir merged, Settings.workingDir t here workingDir = .ok dir ∧
      (sources t here dir (named.map dir.join)).foldlM (readOnto t here) (Layer.defaults ⟨.defaults, none, dir⟩) =
        .ok merged ∧
      Config.ofLayers merged dir (⟨.defaults, none, dir⟩ :: sources t here dir (named.map dir.join)) = (c, []) := by
  rw [load_eq] at h
  obtain ⟨dir, hdir, h⟩ := bind_eq_ok h
  obtain ⟨-, -, h⟩ := bind_eq_ok h
  obtain ⟨merged, hm, h⟩ := bind_eq_ok h
  refine ⟨dir, merged, hdir, hm, ?_⟩
  unfold validated at h
  split at h
  · next hc => rw [hc, Except.ok.inj h]
  · cases h

theorem Config.isMadeOf_ofLayers {layers : List (Located Written)} {dir : Path} {c : Config}
    (hcomponents : ∃ l, highest layers (·.components) = some l) (houtDir : ∃ l, highest layers (·.outDir) = some l)
    (hwatch : ∃ l, highest layers (·.watch) = some l)
    (h : Config.ofLayers (stacked layers) dir (layers.map (·.source)) = (c, [])) : c.IsMadeOf layers := by
  obtain ⟨patterns, hp⟩ := hcomponents
  obtain ⟨docs, hd⟩ := houtDir
  obtain ⟨watch, hw⟩ := hwatch
  have hroot : (stacked layers).componentsRoot = highest layers (·.componentsRoot) :=
    get_stacked_located rfl (fun _ _ => rfl) (fun _ _ => rfl) layers
  have hpatterns : (stacked layers).components = highest layers (·.components) :=
    get_stacked_located rfl (fun _ _ => rfl) (fun _ _ => rfl) layers
  have hdocs : (stacked layers).outDir = highest layers (·.outDir) :=
    get_stacked_located rfl (fun _ _ => rfl) (fun _ _ => rfl) layers
  have hfile : (stacked layers).outFile = highest layers (·.outFile) :=
    get_stacked_located rfl (fun _ _ => rfl) (fun _ _ => rfl) layers
  have htemplate : (stacked layers).template = highest layers (·.template) :=
    get_stacked_located rfl (fun _ _ => rfl) (fun _ _ => rfl) layers
  simp only [ofLayers, hroot, hpatterns, hdocs, hfile, htemplate, stacked_watch, hp, hd, hw, Option.getD_some,
    Option.map_some, Prod.mk.injEq] at h
  obtain ⟨rfl, hproblems⟩ := h
  have hcompile : PatternList.compile patterns = ((PatternList.compile patterns).1, []) := by
    split at hproblems
    · cases hproblems
    · exact Prod.ext rfl hproblems
  have hglobs := PatternList.compile_eq_nil hcompile
  exact ⟨rfl, ⟨patterns, hp, PatternList.texts_of_map_parse hglobs, hglobs⟩, ⟨docs, hd, rfl⟩, rfl, ⟨watch, hw, rfl⟩,
    rfl, rfl⟩

/-- Settings are made of the defaults and of a layer for each file. -/
theorem Config.load_isMadeOf {workingDir named : Option Path} {c : Config}
    (h : Config.load t here workingDir named = .ok c) :
    ∃ dir layers, Settings.workingDir t here workingDir = .ok dir ∧
      List.Forall₂ (fun f l => IsFileLayer t here f.1 f.2 l ∧ l.source = .ofFile f.1 f.2)
        (filesOf (ownCounts t here dir named) dir named) layers ∧
      c.IsMadeOf (⟨Written.defaults, .defaults, none, dir⟩ :: layers) ∧
      c = (ofLayers (stacked (⟨Written.defaults, .defaults, none, dir⟩ :: layers)) dir
        (⟨.defaults, none, dir⟩ :: layers.map (·.source))).1 := by
  obtain ⟨dir, merged, hdir, hm, hc⟩ := load_eq_ok h
  rw [sources_eq, ← stacked_defaults] at hm
  obtain ⟨layers, hlayers, rfl⟩ := foldlM_readOnto_eq_ok hm
  have hsources : sources t here dir (named.map dir.join) = layers.map (·.source) := by
    rw [sources_eq, ← List.forall₂_eq_eq_eq, List.forall₂_map_left_iff, List.forall₂_map_right_iff]
    exact hlayers.imp fun _ _ h => h.2.symm
  rw [hsources] at hc
  refine ⟨dir, layers, hdir, hlayers, ?_, (congrArg Prod.fst hc).symm⟩
  exact isMadeOf_ofLayers (exists_highest _ _ rfl) (exists_highest _ _ rfl) (exists_highest _ _ rfl) hc

/-- Each setting of a directory is the one of the highest of its layers. -/
theorem Config.load_precedence {start : Path} {named : Option Path} {c : Config}
    (h : Config.load t here (some start) named = .ok c) :
    ∃ dir, t.canonicalize here start = .ok dir ∧ c.cwd = dir ∧ c.workingDirectory = dir ∧
      (∃ files : FileLayers t here dir named, c.IsMadeOf files.all) ∧
      (named = none → t.exists? here (dir.join fileName) = false → c = Config.forWorkingDir dir) := by
  obtain ⟨dir, layers, hdir, hlayers, hmade, hconfig⟩ := load_isMadeOf h
  have hcanonical : t.canonicalize here start = .ok dir := by
    rw [Settings.workingDir] at hdir
    split at hdir
    · cases hdir
      assumption
    · cases hdir
  refine ⟨dir, hcanonical, by rw [hconfig]; rfl, by rw [hconfig]; rfl, ?_, ?_⟩
  · obtain ⟨files, rfl⟩ := exists_fileLayers hlayers
    exact ⟨files, hmade⟩
  · rintro rfl hno
    have hnone : filesOf (ownCounts t here dir none) dir none = [] := by
      simp [filesOf, ownCounts, hno]
    rw [hnone] at hlayers
    cases hlayers
    rw [hconfig, stacked_defaults]
    rfl

theorem exists_eq_ok {ε α β : Type} {r : Except ε α} (f : α → β) {b : β} (h : r.toOption.map f = some b) :
    ∃ a, r = .ok a ∧ f a = b := by
  cases r with
  | error e => cases h
  | ok a => exact ⟨a, rfl, Option.some.inj h⟩

/-- A directory with a file of settings, and another such file further down. -/
def layeredTree : FileTree :=
  ⟨[(["w".toList], .directory),
    (["w".toList, "docgen.config.toml".toList], .file (.text "out_dir = \"a\"\nout_file = \"b.md\"\n")),
    (["w".toList, "ci".toList], .directory),
    (["w".toList, "ci".toList, "ci.toml".toList], .file (.text "out_file = \"all.md\"\nwatch = true\n"))]⟩

theorem Config.load_precedence_layered :
    ∃ c, Config.load layeredTree [] (some (.ofString "/w")) (some (.ofString "ci/ci.toml")) = .ok c ∧
      (c.outDir, c.outFile) = (.ofString "/w/a", some (.ofString "/w/ci/all.md")) ∧
      ∃ files : FileLayers layeredTree [] (.ofString "/w") (some (.ofString "ci/ci.toml")), c.IsMadeOf files.all := by
  have hload : ((Config.load layeredTree [] (some (.ofString "/w")) (some (.ofString "ci/ci.toml"))).toOption.map
      fun c => (c.outDir, c.outFile)) = some (.ofString "/w/a", some (.ofString "/w/ci/all.md")) := by decide +kernel
  obtain ⟨c, hc, hpaths⟩ := exists_eq_ok _ hload
  obtain ⟨dir, hdir, -, -, hfiles, -⟩ := Config.load_precedence hc
  have hw : layeredTree.canonicalize [] (.ofString "/w") = .ok (.ofString "/w") := by decide +kernel
  cases hdir.symm.trans hw
  exact ⟨c, hc, hpaths, hfiles⟩

/-- A directory that a link leads to. -/
def linkedTree : FileTree :=
  ⟨[(["real".toList], .directory), (["link".toList], .link (.ofString "real"))]⟩

/-- A directory with a file of settings and a way around to it. -/
def aroundTree : FileTree :=
  ⟨[(["w".toList], .directory), (["w".toList, "sub".toList], .directory),
    (["w".toList, "docgen.config.toml".toList], .file (.text ""))]⟩

/-- A directory behind a link does not have the defaults for the link, and the file of a directory is read
twice if it is named by a way around. -/
theorem Config.load_link_and_way_around :
    (linkedTree.exists? [] (.ofString "/link/docgen.config.toml") = false ∧
      (forWorkingDir (.ofString "/link")).outDir = .ofString "/link/docs" ∧
      ∃ c, Config.load linkedTree [] (some (.ofString "/link")) none = .ok c ∧ c.outDir = .ofString "/real/docs") ∧
    aroundTree.find [] (.ofString "/w/sub/../docgen.config.toml") =
      aroundTree.find [] (.ofString "/w/docgen.config.toml") ∧
    ∃ c, Config.load aroundTree [] (some (.ofString "/w")) (some (.ofString "sub/../docgen.config.toml")) = .ok c ∧
      c.layers.map (·.kind) = [.defaults, .localFile, .overrideFile] := by
  refine ⟨⟨by decide +kernel, by decide +kernel, ?_⟩, by decide +kernel, ?_⟩
  · exact exists_eq_ok (fun c : Config => c.outDir) (by decide +kernel)
  · have hkinds : ((Config.load aroundTree [] (some (.ofString "/w")) (some (.ofString "sub/../docgen.config.toml"))
        ).toOption.map fun c => c.layers.map (·.kind)) = some [.defaults, .localFile, .overrideFile] := by
      decide +kernel
    exact exists_eq_ok _ hkinds

end ComponentDocs
