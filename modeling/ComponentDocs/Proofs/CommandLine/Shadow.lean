import ComponentDocs.CommandLine.Run
import ComponentDocs.Proofs.FileTree.Anchored
import ComponentDocs.Proofs.Settings.Precedence
/-! Flags on top of the settings that files give. -/
namespace ComponentDocs.CommandLine
open Settings

namespace Given

/-- The settings with the patterns that flags give, if there are any. -/
def patternsOnto (g : Given) (c : Config) : Except LoadError Config :=
  match g.values .components with
  | [] => .ok c
  | patterns =>
    match PatternList.parse patterns with
    | .ok components => .ok { c with components }
    | .error problems => .error (.invalid problems)

def pathsOnto (g : Given) (c : Config) : Config :=
  { c with
    outDir := ((g.value? .outDir).map fun dir => c.cwd.join (.ofString dir)).getD c.outDir
    outFile := ((g.value? .outFile).map fun file => c.cwd.join (.ofString file)).or c.outFile }

end Given

theorem loadConfig_eq (t : FileTree) (here : Location) (g : Given) :
    loadConfig t here g =
      (Config.load t here ((g.value? .cwd).map .ofString) ((g.value? .config).map .ofString) >>= g.patternsOnto).map
        g.pathsOnto := by
  unfold loadConfig
  cases Config.load t here ((g.value? .cwd).map .ofString) ((g.value? .config).map .ofString) with
  | error e => rfl
  | ok c =>
    simp only [bind, Except.bind, Given.patternsOnto]
    cases g.values .components with
    | nil =>
      simp only [Except.map, Given.pathsOnto]
      cases g.value? .outDir <;> cases g.value? .outFile <;> rfl
    | cons pattern patterns =>
      cases hp : PatternList.parse (pattern :: patterns) with
      | ok components =>
        simp only [hp, Except.map, Given.pathsOnto]
        cases g.value? .outDir <;> cases g.value? .outFile <;> rfl
      | error problems =>
        simp only [hp]
        rfl

end ComponentDocs.CommandLine

/-! Settings by files that differ in the components only. They differ in the components only, too, unless something
is wrong with the patterns of one of them. -/
namespace ComponentDocs
open Settings FileTree

namespace Settings

/-- Two files that are understood and say the same about all settings but the components. -/
def DifferInComponents (text text' : String) : Prop :=
  ∃ w w', parseLayer text = .ok w ∧ parseLayer text' = .ok w' ∧ w' = { w with components := w'.components }

def Layer.DifferInComponents (l l' : Layer) : Prop := l' = { l with components := l'.components }

theorem Layer.DifferInComponents.rfl (l : Layer) : l.DifferInComponents l := Eq.refl l

theorem Layer.DifferInComponents.atop {upper upper' lower lower' : Layer} (hu : upper.DifferInComponents upper')
    (hl : lower.DifferInComponents lower') : (upper.atop lower).DifferInComponents (upper'.atop lower') := by
  rw [DifferInComponents] at hu hl
  rw [hu, hl]
  rfl

/-- What is wrong with settings that are understood. -/
def problems? : Except LoadError Config → Option (List Problem)
  | .error (.invalid problems) => some problems
  | _ => none

/-- A file that both trees have in the same words, and that says what the components are if it is understood. -/
structure Shadows (t t' : FileTree) (here : Location) (path : Path) : Prop where
  same : t'.readText here path = t.readText here path
  components : ∀ text w, t.readText here path = .ok text → parseLayer text = .ok w → w.components.isSome = true

variable {t t' : FileTree} (h : Retold DifferInComponents t t') {here : Location}

theorem ofLayers_differ {m m' : Layer} (hm : m.DifferInComponents m') (dir : Path) (files : List Source) :
    (Config.ofLayers m' dir files).1 =
      { (Config.ofLayers m dir files).1 with components := (Config.ofLayers m' dir files).1.components } := by
  rw [Layer.DifferInComponents] at hm
  rw [hm]
  rfl

/-- A file that says what the components are hides what the layers below say about them. -/
theorem Shadows.readOnto {path : Path} (hs : Shadows t t' here path) (kind : SourceKind) {lower lower' : Layer}
    (hl : lower.DifferInComponents lower') :
    readOnto t here lower (.ofFile kind path) = readOnto t' here lower' (.ofFile kind path) := by
  have hpath : (Source.ofFile kind path).path.getD fileName = path := rfl
  have hread : readLayer t' here (.ofFile kind path) path = readLayer t here (.ofFile kind path) path := by
    simp only [readLayer, hs.same]
  rw [Settings.readOnto, Settings.readOnto, hpath, hread]
  cases htop : readLayer t here (.ofFile kind path) path with
  | error e => rfl
  | ok top =>
    obtain ⟨l, hlayer, -, rfl⟩ := readLayer_eq_ok htop
    obtain ⟨text, htext, hw⟩ := hlayer.value
    obtain ⟨patterns, hp⟩ := Option.isSome_iff_exists.1 (hs.components text l.value htext hw)
    rw [Layer.DifferInComponents] at hl
    rw [hl]
    simp [bind, Except.bind, Layer.atop, Layer.ofWritten, hp]

include h

theorem workingDir_retold (dir : Option Path) : Settings.workingDir t' here dir = Settings.workingDir t here dir := by
  cases dir with
  | none => rfl
  | some dir => simp only [Settings.workingDir, canonicalize_retold h]

theorem checkNamed_retold (named : Option Path) : checkNamed t' here named = checkNamed t here named := by
  cases named with
  | none => rfl
  | some path => simp only [checkNamed, exists?_retold h]

theorem sources_retold (dir : Path) (named : Option Path) : sources t' here dir named = sources t here dir named := by
  simp only [sources, exists?_retold h]

theorem readLayer_retold (s : Source) (path : Path) :
    Paired Layer.DifferInComponents (readLayer t here s path) (readLayer t' here s path) := by
  have hread := readText_retold h here path
  unfold readLayer
  generalize t.readText here path = r, t'.readText here path = r' at hread ⊢
  cases hread with
  | error e => exact .error _
  | @ok text text' htext =>
    dsimp only
    rcases htext with rfl | ⟨w, w', hw, hw', hsame⟩
    · exact .of_refl Layer.DifferInComponents.rfl _
    · rw [hw, hw']
      refine .ok ?_
      rw [Layer.DifferInComponents, hsame]
      rfl

theorem readOnto_retold (s : Source) {lower lower' : Layer} (hl : lower.DifferInComponents lower') :
    Paired Layer.DifferInComponents (readOnto t here lower s) (readOnto t' here lower' s) :=
  (readLayer_retold h s _).bind fun _ _ hu => .ok (hu.atop hl)

theorem foldlM_readOnto_retold (files : List Source) {lower lower' : Layer} (hl : lower.DifferInComponents lower') :
    Paired Layer.DifferInComponents (files.foldlM (readOnto t here) lower) (files.foldlM (readOnto t' here) lower') :=
  Paired.foldlM (fun s _ _ _ hl => readOnto_retold h s hl) hl

/-- Loading fails alike before the settings are checked, or comes to settings that differ in the components. -/
theorem load_cases (dir named : Option Path) :
    (∃ e, Config.load t here dir named = .error e ∧ Config.load t' here dir named = .error e) ∨
    ∃ c c' problems problems', c' = { c with components := c'.components } ∧
      Config.load t here dir named = validated (c, problems) ∧
      Config.load t' here dir named = validated (c', problems') := by
  rw [Config.load_eq, Config.load_eq, workingDir_retold h]
  cases Settings.workingDir t here dir with
  | error e => exact .inl ⟨e, rfl, rfl⟩
  | ok d =>
    simp only [bind, Except.bind, checkNamed_retold h, sources_retold h]
    cases checkNamed t here (named.map d.join) with
    | error e => exact .inl ⟨e, rfl, rfl⟩
    | ok _ =>
      have hmerged : Paired Layer.DifferInComponents
          ((sources t here d (named.map d.join)).foldlM (readOnto t here) (Layer.defaults ⟨.defaults, none, d⟩))
          ((sources t here d (named.map d.join)).foldlM (readOnto t' here) (Layer.defaults ⟨.defaults, none, d⟩)) :=
        foldlM_readOnto_retold h _ (.rfl _)
      generalize (sources t here d (named.map d.join)).foldlM (readOnto t here) _ = r,
        (sources t here d (named.map d.join)).foldlM (readOnto t' here) _ = r' at hmerged ⊢
      cases hmerged with
      | error e => exact .inl ⟨e, rfl, rfl⟩
      | ok hm => exact .inr ⟨_, _, _, _, ofLayers_differ hm d _, rfl, rfl⟩

/-- Where the file that is named says what the components are, all layers together are the same. -/
theorem foldlM_readOnto_of_shadows {d path : Path} (hs : Shadows t t' here path) (lower : Layer) :
    (sources t here d (some path)).foldlM (readOnto t here) lower =
      (sources t here d (some path)).foldlM (readOnto t' here) lower := by
  rw [sources, List.foldlM_append, List.foldlM_append]
  refine (Paired.bind (foldlM_readOnto_retold h _ (.rfl lower)) fun below below' hb => ?_).eq
  have hread := hs.readOnto .overrideFile hb
  simp only [Option.map_some, Option.toList_some, List.foldlM_cons, List.foldlM_nil]
  rw [hread]
  exact .of_refl (fun _ => rfl) _

theorem load_of_shadows (dir named : Option Path)
    (hs : ∀ d, Settings.workingDir t here dir = .ok d → ∃ file, named = some file ∧ Shadows t t' here (d.join file)) :
    Config.load t here dir named = Config.load t' here dir named := by
  rw [Config.load_eq, Config.load_eq, workingDir_retold h]
  cases hd : Settings.workingDir t here dir with
  | error e => simp only [bind, Except.bind]
  | ok d =>
    obtain ⟨file, hnamed, hs⟩ := hs d hd
    have hmerged := foldlM_readOnto_of_shadows (d := d) h hs
    have hmap : named.map d.join = some (d.join file) := by rw [hnamed, Option.map_some]
    rw [← hmap] at hmerged
    simp only [bind, Except.bind, checkNamed_retold h, sources_retold h, hmerged]

end Settings

end ComponentDocs

/-! Patterns that flags give, on top of those of files. What the files say about the components is hidden, except
that it has to be valid. -/
namespace ComponentDocs.CommandLine
open Settings FileTree

variable {t t' : FileTree} {here : Location} {g : Given} {components : PatternList}

/-- Valid patterns take the place of those in the settings. -/
theorem patternsOnto_eq (hflags : g.values .components ≠ [])
    (hvalid : PatternList.parse (g.values .components) = .ok components) (c : Config) :
    g.patternsOnto c = .ok { c with components } := by
  unfold Given.patternsOnto
  split
  · next hnone => exact absurd hnone hflags
  · rw [hvalid]

theorem validated_patternsOnto (hflags : g.values .components ≠ [])
    (hvalid : PatternList.parse (g.values .components) = .ok components) (c : Config) (problems : List Problem) :
    validated (c, problems) >>= g.patternsOnto =
      if problems = [] then .ok { c with components } else .error (.invalid problems) := by
  cases problems with
  | nil => exact patternsOnto_eq hflags hvalid c
  | cons problem rest => rfl

/-- Two runs with the same flags for the components, by files that differ in nothing else, have the same settings
just if the same is wrong with what the files give. A file that is named hides the components of the others in any
case. -/
theorem loadConfig_shadowed (h : Retold DifferInComponents t t') (hflags : g.values .components ≠ [])
    (hvalid : PatternList.parse (g.values .components) = .ok components) :
    (loadConfig t here g = loadConfig t' here g ↔
      problems? (Config.load t here ((g.value? .cwd).map .ofString) ((g.value? .config).map .ofString)) =
        problems? (Config.load t' here ((g.value? .cwd).map .ofString) ((g.value? .config).map .ofString))) ∧
    ∀ dir file, (∀ d, Settings.workingDir t here dir = .ok d → Shadows t t' here (d.join file)) →
      Config.load t here dir (some file) = Config.load t' here dir (some file) := by
  refine ⟨?_, fun dir file hs => load_of_shadows h dir (some file) fun d hd => ⟨file, rfl, hs d hd⟩⟩
  rw [loadConfig_eq, loadConfig_eq]
  rcases load_cases h ((g.value? .cwd).map .ofString) ((g.value? .config).map .ofString) with
    ⟨e, he, he'⟩ | ⟨c, c', problems, problems', hc, he, he'⟩
  · rw [he, he']
    exact iff_of_true rfl rfl
  · rw [he, he', validated_patternsOnto hflags hvalid, validated_patternsOnto hflags hvalid, hc]
    cases problems <;> cases problems' <;> simp [Except.map, validated, problems?]

/-- A directory with a component and a file of settings that says no more than what the components are. Its own
file of settings is this one. -/
def shadowTree (own : String) : FileTree :=
  FileTree.set
    ⟨[([['w']], .directory), ([['w'], "A.vue".toList], .file (.text "")),
      ([['w'], "ci.toml".toList], .file (.text "components = \"A.*\"\n"))]⟩
    [['w'], "docgen.config.toml".toList] (.file (.text own))

theorem retold_shadowTree {own own' : String} (h : DifferInComponents own own') :
    Retold DifferInComponents (shadowTree own) (shadowTree own') :=
  retold_set _ (by decide) h

theorem loadConfig_shadowed_patterns :
    let t := shadowTree "components = \"*.vue\"\n"
    let t' := shadowTree "components = [\"**/*.tsx\", \"B.*\"]\n"
    let t'' := shadowTree "components = \"[\"\n"
    let g : Given := [(.components, "A.vue")]
    loadConfig t [['w']] g = loadConfig t' [['w']] g ∧
      Config.load t [['w']] none (some (.ofString "ci.toml")) =
        Config.load t'' [['w']] none (some (.ofString "ci.toml")) := by
  intro t t' t'' g
  have hflags : g.values .components ≠ [] := by decide
  obtain ⟨components, hvalid, -⟩ : ∃ components, PatternList.parse (g.values .components) = .ok components ∧
      components.texts = ["A.vue"] := exists_eq_ok PatternList.texts (by decide +kernel)
  have hlists : Retold DifferInComponents t t' := retold_shadowTree ⟨_, _, rfl, rfl, rfl⟩
  have hbroken : Retold DifferInComponents t t'' := retold_shadowTree ⟨_, _, rfl, rfl, rfl⟩
  refine ⟨(loadConfig_shadowed hlists hflags hvalid).1.2 (by decide +kernel), ?_⟩
  refine (loadConfig_shadowed hbroken hflags hvalid).2 none (.ofString "ci.toml") fun d hd => ?_
  obtain rfl : Location.path [['w']] = d := Except.ok.inj hd
  have htext : t.readText [['w']] ((Location.path [['w']]).join (.ofString "ci.toml")) =
      .ok "components = \"A.*\"\n" := by decide +kernel
  refine ⟨by decide +kernel, fun text w hread hw => ?_⟩
  obtain rfl := Except.ok.inj (htext.symm.trans hread)
  obtain rfl : ({ components := some ["A.*"] } : Written) = w := Except.ok.inj hw
  rfl

/-- Flags do not hide that there is no pattern, or one that is not valid, in the file. -/
theorem loadConfig_not_shadowed :
    let t := shadowTree "components = \"*.vue\"\n"
    let g : Given := [(.components, "*.vue")]
    g.values .components ≠ [] ∧ (PatternList.parse (g.values .components)).toOption.isSome = true ∧
      ∀ own ∈ ["components = []\n", "components = \"[\"\n"], Retold DifferInComponents t (shadowTree own) ∧
        loadConfig t [['w']] g ≠ loadConfig (shadowTree own) [['w']] g := by
  intro t g
  refine ⟨by decide, by decide +kernel, fun own hown => ?_⟩
  have hloads : (loadConfig t [['w']] g).toOption.isSome = true := by decide +kernel
  have hfails : ∀ own ∈ ["components = []\n", "components = \"[\"\n"],
      (loadConfig (shadowTree own) [['w']] g).toOption.isSome = false := by decide +kernel
  refine ⟨?_, fun heq => ?_⟩
  · rcases List.mem_pair.1 hown with rfl | rfl
    · exact retold_shadowTree ⟨_, _, rfl, rfl, rfl⟩
    · exact retold_shadowTree ⟨_, _, rfl, rfl, rfl⟩
  · rw [heq, hfails own hown] at hloads
    cases hloads

end ComponentDocs.CommandLine
