import ComponentDocs.Proofs.Project.Change
import ComponentDocs.Proofs.Settings.Precedence
/-! Settings for a directory are the same wherever they are asked for, and so is what they lead to. -/
namespace ComponentDocs
open Settings ComponentDocs.Path

namespace Settings

/-- A layer that neither asks to watch nor names the empty path for the documents. -/
structure Layer.IsSettled (l : Layer) : Prop where
  watch : l.watch ≠ some true
  outDir : ∀ out ∈ l.outDir, out.value.isEmpty = false

instance (l : Layer) : Decidable l.IsSettled :=
  decidable_of_iff (l.watch ≠ some true ∧ ∀ out ∈ l.outDir, out.value.isEmpty = false)
    ⟨fun ⟨h, h'⟩ => ⟨h, h'⟩, fun ⟨h, h'⟩ => ⟨h, h'⟩⟩

def AllSettled (t : FileTree) (here : Location) (dir : Path) (named : Option Path) : Prop :=
  ∀ s ∈ sources t here dir (named.map dir.join), ∀ l, readLayer t here s (s.path.getD fileName) = .ok l → l.IsSettled

instance decidableForallOk {ε α : Type} {p : α → Prop} [DecidablePred p] :
    (r : Except ε α) → Decidable (∀ a, r = .ok a → p a)
  | .error _ => .isTrue fun _ h => nomatch h
  | .ok a => decidable_of_iff (p a) ⟨fun h _ he => Except.ok.inj he ▸ h, fun h => h a rfl⟩

instance (t : FileTree) (here : Location) (dir : Path) (named : Option Path) :
    Decidable (AllSettled t here dir named) :=
  inferInstanceAs (Decidable (∀ s ∈ sources t here dir (named.map dir.join), ∀ _, _ → _))

variable {t : FileTree} {x y : Location} {dir : Path}

section Load
variable (hdir : dir.isAbsolute = true)
include hdir

theorem isAbsolute_of_mem_filesOf {own : Bool} {named : Option Path} {f : SourceKind × Path}
    (hf : f ∈ filesOf own dir named) : f.2.isAbsolute = true := by
  have hjoin : ∃ rest, f.2 = dir.join rest := by
    simp only [filesOf, List.mem_append, List.mem_ite_nil_right, List.mem_singleton, Option.mem_toList,
      Option.map_eq_some_iff] at hf
    rcases hf with ⟨-, rfl⟩ | ⟨file, -, rfl⟩
    · exact ⟨fileName, rfl⟩
    · exact ⟨file, rfl⟩
  obtain ⟨rest, hrest⟩ := hjoin
  rw [hrest]
  exact isAbsolute_join_left hdir rest

theorem exists?_join (file : Path) : t.exists? x (dir.join file) = t.exists? y (dir.join file) :=
  FileTree.exists?_anchored (.of_isAbsolute (isAbsolute_join_left hdir file)) t x y

theorem checkNamed_anchored (named : Option Path) :
    checkNamed t x (named.map dir.join) = checkNamed t y (named.map dir.join) := by
  cases named with
  | none => rfl
  | some file => simp only [Option.map_some, checkNamed, exists?_join hdir (x := x) (y := y) file]

theorem sources_anchored (named : Option Path) : sources t x dir named = sources t y dir named := by
  rw [sources, sources, exists?_join hdir (y := y)]

theorem foldlM_readOnto_anchored (named : Option Path) (lower : Layer) :
    (sources t y dir (named.map dir.join)).foldlM (readOnto t x) lower =
      (sources t y dir (named.map dir.join)).foldlM (readOnto t y) lower := by
  refine (Paired.foldlM (fun s hs a b hab => ?_) rfl).eq
  subst hab
  rw [sources_eq] at hs
  obtain ⟨f, hf, rfl⟩ := List.mem_map.1 hs
  have hpath : (Source.ofFile f.1 f.2).path.getD fileName = f.2 := rfl
  have hread := FileTree.readText_anchored (.of_isAbsolute (isAbsolute_of_mem_filesOf hdir hf)) t x y
  simp only [readOnto, hpath, readLayer, hread]
  exact .of_refl (fun _ => rfl) _

end Load

theorem Located.isAnchored_resolve {l : Located Path} (h : l.source.baseDir.isAbsolute = true) :
    l.resolve.IsAnchored := by
  unfold resolve
  split
  · next hv => exact Bool.or_eq_true_iff.1 hv
  · exact .of_isAbsolute (isAbsolute_join_left h _)

theorem Located.isAbsolute_resolve {l : Located Path} (h : l.source.baseDir.isAbsolute = true)
    (hne : l.value.isEmpty = false) : l.resolve.isAbsolute = true := by
  unfold resolve
  split
  · next hv => simpa [hne] using hv
  · exact isAbsolute_join_left h _

/-- A layer whose paths start from the root once they are resolved. -/
structure Fits (l : Located Written) : Prop where
  baseDir : l.source.baseDir.isAbsolute = true
  settled : (Layer.ofWritten l.value l.source).IsSettled

theorem fits_defaults {dir : Path} (h : dir.isAbsolute = true) : Fits ⟨Written.defaults, .defaults, none, dir⟩ :=
  ⟨h, by simp [Layer.ofWritten, Written.defaults], by rintro out ⟨⟩; rfl⟩

theorem IsFileLayer.readLayer {kind : SourceKind} {file : Path} {l : Located Written}
    (h : IsFileLayer t x kind file l) (hs : l.source = .ofFile kind file) :
    Settings.readLayer t x (.ofFile kind file) file = .ok (Layer.ofWritten l.value l.source) := by
  obtain ⟨text, htext, hw⟩ := h.value
  simp only [Settings.readLayer, htext, hw, hs]

theorem fits_of_allSettled (hdir : dir.isAbsolute = true) {named : Option Path} (h : AllSettled t x dir named)
    {layers : List (Located Written)}
    (hl : List.Forall₂ (fun f l => IsFileLayer t x f.1 f.2 l ∧ l.source = .ofFile f.1 f.2)
      (filesOf (ownCounts t x dir named) dir named) layers) :
    ∀ l ∈ (⟨Written.defaults, .defaults, none, dir⟩ :: layers : List (Located Written)), Fits l := by
  rw [List.forall_mem_cons]
  refine ⟨fits_defaults hdir, ?_⟩
  have hfile : ∀ f ∈ filesOf (ownCounts t x dir named) dir named, ∀ l,
      IsFileLayer t x f.1 f.2 l → l.source = .ofFile f.1 f.2 → Fits l := by
    intro f hf l hlayer hs
    refine ⟨isAbsolute_parent? (isAbsolute_of_mem_filesOf hdir hf) hlayer.baseDir, ?_⟩
    refine h (.ofFile f.1 f.2) ?_ _ (hlayer.readLayer hs)
    rw [sources_eq]
    exact List.mem_map_of_mem hf
  generalize filesOf (ownCounts t x dir named) dir named = files at hl hfile
  induction hl with
  | nil => simp
  | cons hfirst _ ih =>
    rw [List.forall_mem_cons]
    obtain ⟨hf, hrest⟩ := List.forall_mem_cons.1 hfile
    exact ⟨hf _ hfirst.1 hfirst.2, ih hrest⟩

/-- What the highest layer says is said by one of the layers. -/
theorem exists_mem_of_highest {α : Type} {layers : List (Located Written)} {setting : Written → Option α}
    {l : Located α} (h : highest layers setting = some l) : ∃ w, ⟨w, l.source⟩ ∈ layers ∧ setting w = some l.value := by
  obtain ⟨lower, w, higher, rfl, hw, -⟩ := highest_eq_some.1 h
  exact ⟨w, by simp, hw⟩

end Settings

/-- Settings that mean the same wherever the program is started. -/
structure Config.Anchored (c : Config) : Prop where
  cwd : c.cwd.isAbsolute = true
  outDir : c.outDir.isAbsolute = true
  outFile : ∀ file ∈ c.outFile, file.IsAnchored
  template : ∀ file ∈ c.template, file.IsAnchored
  supplement : c.supplement = defaultSupplement
  destination : c.destination = defaultDestination

theorem Config.isAbsolute_componentsDir {c : Config} (h : c.cwd.isAbsolute = true) :
    c.componentsDir.isAbsolute = true := by
  unfold componentsDir
  split
  · exact h
  · exact isAbsolute_join_left h _

/-- The documents of settings that mean the same everywhere are generated alike everywhere. -/
theorem Config.Anchored.project {c : Config} (h : c.Anchored) {p : Project} (hp : p.config = c.rootedAtComponents) :
    p.Anchored := by
  have hroot := isAbsolute_componentsDir h.cwd
  refine ⟨?_, fun component file hf => ?_, fun component => ?_, ?_⟩
  · rw [hp]
    exact isAbsolute_componentsDir hroot
  · have hbase : (p.config.cwd.join (.ofString component)).isAbsolute = true := by
      rw [hp]
      exact isAbsolute_join_left hroot _
    have hsupplement : p.config.supplement = defaultSupplement := by rw [hp]; exact h.supplement
    rw [Project.supplementOf?, hsupplement] at hf
    obtain rfl := Option.some.inj hf
    exact .of_isAbsolute (isAbsolute_withExtension (isAbsolute_normalize hbase) _)
  · have hdestination : p.config.destination = defaultDestination := by rw [hp]; exact h.destination
    rw [Project.destination, destFile, hdestination, hp]
    exact .of_isAbsolute (isAbsolute_withExtension (isAbsolute_join_left h.outDir _) _)
  · rw [hp]
    exact h.outFile

theorem Config.anchored_of_load {t : FileTree} {here : Location} {named : Option Path} {c : Config}
    (h : Config.load t here none named = .ok c) (hs : AllSettled t here here.path named) :
    c.Anchored ∧ c.watch = false := by
  obtain ⟨dir, layers, hdir, hlayers, hmade, hc⟩ := load_isMadeOf h
  obtain rfl : here.path = dir := Except.ok.inj hdir
  have hfits := fits_of_allSettled (Location.isAbsolute_path here) hs hlayers
  have hresolve {setting : Written → Option Path} : ∀ file ∈
      (highest (⟨Written.defaults, .defaults, none, here.path⟩ :: layers) setting).map Located.resolve,
      file.IsAnchored := by
    intro file hf
    obtain ⟨l, hl, rfl⟩ := Option.map_eq_some_iff.1 hf
    obtain ⟨w, hw, -⟩ := exists_mem_of_highest hl
    exact l.isAnchored_resolve (hfits _ hw).baseDir
  obtain ⟨docs, hdocs, hout⟩ := hmade.outDir
  obtain ⟨watch, hwatch, hw⟩ := hmade.watch
  obtain ⟨wo, hmo, ho⟩ := exists_mem_of_highest hdocs
  obtain ⟨ww, hmw, hww⟩ := exists_mem_of_highest hwatch
  refine ⟨⟨?_, ?_, ?_, ?_, ?_, ?_⟩, ?_⟩
  · rw [hc]
    exact Location.isAbsolute_path here
  · rw [hout]
    refine docs.isAbsolute_resolve (hfits _ hmo).baseDir ((hfits _ hmo).settled.outDir docs ?_)
    simp [Layer.ofWritten, ho]
  · rw [hmade.outFile]
    exact hresolve
  · rw [hmade.template]
    exact hresolve
  · rw [hc]
    rfl
  · rw [hc]
    rfl
  · rw [hw, ← Bool.not_eq_true]
    rintro htrue
    exact (hfits _ hmw).settled.watch (hww.trans (congrArg some htrue))

/-- Where a directory is named or the program is started in it, the files for it say the same. -/
theorem Settings.gather_directory {t : FileTree} {x d : Location} (hd : t.canonicalize x d.path = .ok d.path)
    (named : Option Path) : gather t x (some d.path) named = gather t d none named := by
  have hdir : Settings.workingDir t x (some d.path) = .ok d.path := by
    simp only [Settings.workingDir, hd]
  have hhere : Settings.workingDir t d none = .ok d.path := rfl
  have habs := Location.isAbsolute_path d
  rw [gather, gather, hdir, hhere]
  simp only [bind, Except.bind, checkNamed_anchored habs (x := x) (y := d), sources_anchored habs (x := x) (y := d),
    foldlM_readOnto_anchored habs (x := x) (y := d)]

theorem Config.load_directory {t : FileTree} {x d : Location} (hd : t.canonicalize x d.path = .ok d.path)
    (named : Option Path) : Config.load t x (some d.path) named = Config.load t d none named := by
  rw [Config.load, Config.load, gather_directory hd]

/-! The places that settings name. Whatever the layers say, the directories are given from the root, and so is
every path that a layer does not leave empty. -/

namespace Settings

/-- The settings that are paths, but for the directory of the components. -/
inductive PathSetting
  | outDir
  | outFile
  | template
deriving DecidableEq, Repr

namespace PathSetting

/-- What a file says about the path. -/
def written : PathSetting → Written → Option Path
  | outDir => Written.outDir
  | outFile => Written.outFile
  | template => Written.template

/-- The path in the settings of a project, if they have one. -/
def chosen (c : Config) : PathSetting → Option Path
  | outDir => some c.outDir
  | outFile => c.outFile
  | template => c.template

end PathSetting

/-- The highest layer that has the path leaves it empty. -/
def LeftEmpty (layers : List (Located Written)) (s : PathSetting) : Prop :=
  ∃ l, highest layers s.written = some l ∧ l.value.isEmpty = true

/-- A path from the root, or the empty one if it is left empty. -/
structure NamesPlace (leftEmpty : Prop) (p : Path) : Prop where
  isAbsolute_iff : p.isAbsolute = true ↔ ¬ leftEmpty
  isEmpty_iff : p.isEmpty = true ↔ leftEmpty

theorem NamesPlace.of_isAbsolute {leftEmpty : Prop} {p : Path} (hp : p.isAbsolute = true) (h : ¬ leftEmpty) :
    NamesPlace leftEmpty p := by
  refine ⟨iff_of_true hp h, iff_of_false (fun he => ?_) h⟩
  rw [Path.isEmpty_iff.1 he] at hp
  cases hp

theorem NamesPlace.isAnchored {leftEmpty : Prop} {p : Path} (h : NamesPlace leftEmpty p) : p.IsAnchored := by
  by_cases he : leftEmpty
  · exact .inr (h.isEmpty_iff.2 he)
  · exact .inl (h.isAbsolute_iff.2 he)

theorem NamesPlace.congr {a b : Prop} {p : Path} (h : NamesPlace a p) (hab : a ↔ b) : NamesPlace b p :=
  ⟨h.isAbsolute_iff.trans (not_congr hab), h.isEmpty_iff.trans hab⟩

theorem Located.namesPlace_resolve {l : Located Path} (h : l.source.baseDir.isAbsolute = true) :
    NamesPlace (l.value.isEmpty = true) l.resolve := by
  cases he : l.value.isEmpty with
  | false => exact .of_isAbsolute (l.isAbsolute_resolve h he) Bool.false_ne_true
  | true =>
    have hresolve : l.resolve = ⟨[]⟩ := by
      rw [Located.resolve, he, Bool.or_true, if_pos rfl, Path.isEmpty_iff.1 he]
    rw [hresolve]
    exact ⟨by simp [isAbsolute], by simp [Path.isEmpty]⟩

variable {t : FileTree} {here : Location} {dir : Path}

/-- The directory that settings are looked for in is given from the root. -/
theorem isAbsolute_workingDir {start : Option Path} (h : Settings.workingDir t here start = .ok dir) :
    dir.isAbsolute = true := by
  cases start with
  | none =>
    cases h
    exact Location.isAbsolute_path here
  | some start =>
    simp only [Settings.workingDir, FileTree.canonicalize] at h
    cases hf : t.find here start with
    | error e =>
      rw [hf] at h
      cases h
    | ok found =>
      rw [hf] at h
      cases h
      exact Location.isAbsolute_path found.1

theorem FileLayers.isAbsolute_baseDir {named : Option Path} (files : FileLayers t here dir named)
    (hdir : dir.isAbsolute = true) {l : Located Written} (hl : l ∈ files.all) :
    l.source.baseDir.isAbsolute = true := by
  have hfile {kind : SourceKind} {file : Path} (h : IsFileLayer t here kind (dir.join file) l) :
      l.source.baseDir.isAbsolute = true :=
    isAbsolute_parent? (isAbsolute_join_left hdir file) h.baseDir
  simp only [FileLayers.all, List.mem_cons, List.mem_append, Option.mem_toList] at hl
  rcases hl with rfl | hown | hover
  · exact hdir
  · exact hfile (files.isFileLayer_own l hown)
  · obtain ⟨file, hnamed⟩ := Option.isSome_iff_exists.1 (files.isSome_override.1 (Option.isSome_of_mem hover))
    exact hfile (files.isFileLayer_override l file hover hnamed)

end Settings

theorem PatternList.isEmpty_parse {patterns : List String} {l : PatternList} (h : parse patterns = .ok l) :
    l.isEmpty = patterns.isEmpty := by
  unfold parse at h
  split at h
  · next hl =>
    cases h
    have hglobs : patterns.map Glob.parse = l.globs.map .ok := compile_eq_nil hl
    rw [isEmpty, ← List.isEmpty_map (f := Except.ok), ← hglobs, List.isEmpty_map]
  · cases h

namespace Config

/-- Settings that name definite places for definite components. The paths that are left empty are told by
`leftEmpty`. -/
structure NamesPlaces (c : Config) (leftEmpty : PathSetting → Prop) : Prop where
  cwd : c.cwd.isAbsolute = true
  componentsDir : c.componentsDir.isAbsolute = true
  components : c.components.isEmpty = false
  place : ∀ s, ∀ p ∈ s.chosen c, NamesPlace (leftEmpty s) p

theorem IsMadeOf.chosen {c : Config} {layers : List (Located Written)} (h : c.IsMadeOf layers) (s : PathSetting) :
    s.chosen c = (highest layers s.written).map Located.resolve := by
  cases s with
  | outDir =>
    obtain ⟨l, hl, hout⟩ := h.outDir
    change some c.outDir = (highest layers (·.outDir)).map Located.resolve
    rw [hl, hout]
    rfl
  | outFile => exact h.outFile
  | template => exact h.template

theorem IsMadeOf.namesPlace {c : Config} {layers : List (Located Written)} (h : c.IsMadeOf layers)
    (hbase : ∀ l ∈ layers, l.source.baseDir.isAbsolute = true) {s : PathSetting} {p : Path} (hp : p ∈ s.chosen c) :
    NamesPlace (LeftEmpty layers s) p := by
  rw [h.chosen] at hp
  obtain ⟨l, hl, rfl⟩ := Option.map_eq_some_iff.1 hp
  obtain ⟨w, hw, -⟩ := exists_mem_of_highest hl
  refine (l.namesPlace_resolve (hbase _ hw)).congr ⟨fun he => ⟨l, hl, he⟩, ?_⟩
  rintro ⟨other, hother, he⟩
  cases hl.symm.trans hother
  exact he

theorem isEmpty_components_ofLayers {merged : Layer} {dir : Path} {layers : List Source} {c : Config}
    (h : ofLayers merged dir layers = (c, [])) : c.components.isEmpty = false := by
  simp only [ofLayers, Prod.mk.injEq] at h
  obtain ⟨rfl, hproblems⟩ := h
  rw [← Bool.not_eq_true]
  intro hempty
  dsimp only at hempty
  rw [hempty] at hproblems
  split at hproblems
  · cases hproblems
  · next hno => simp [hproblems] at hno

/-- Settings that are loaded name definite places, whatever the files say. -/
theorem namesPlaces_of_load {t : FileTree} {here : Location} {start named : Option Path} {c : Config}
    (h : Config.load t here start named = .ok c) :
    ∃ dir, Settings.workingDir t here start = .ok dir ∧ ∃ files : FileLayers t here dir named,
      c.IsMadeOf files.all ∧ c.NamesPlaces (LeftEmpty files.all) := by
  obtain ⟨dir, layers, hdir, hlayers, hmade, hc⟩ := load_isMadeOf h
  have habs := isAbsolute_workingDir hdir
  obtain ⟨files, rfl⟩ := exists_fileLayers hlayers
  have hcwd : c.cwd.isAbsolute = true := by
    rw [hc]
    exact habs
  obtain ⟨_, _, -, -, hvalid⟩ := load_eq_ok h
  exact ⟨dir, hdir, files, hmade, hcwd, isAbsolute_componentsDir hcwd, isEmpty_components_ofLayers hvalid,
    fun s p hp => hmade.namesPlace (fun l hl => files.isAbsolute_baseDir habs hl) hp⟩

end Config

end ComponentDocs
