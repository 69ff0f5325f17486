import ComponentDocs.Proofs.FileTree.Ways
import ComponentDocs.Proofs.Path.Normal
import ComponentDocs.Proofs.Project.Frame
import ComponentDocs.Proofs.Settings.Config
/-! The components of a project: the files below their directory that match, in order. -/
namespace ComponentDocs

namespace Path

theorem eq_nil_of_glue {names : List (List Char)} (h : AreNames names) (he : glue names = []) : names = [] := by
  by_contra hne
  obtain ⟨c, hc, -⟩ := getLast?_glue hne h
  simp [he] at hc

theorem glue_injective {names names' : List (List Char)} (h : AreNames names) (h' : AreNames names')
    (he : glue names = glue names') : names = names' := by
  by_cases hne : names = []
  · subst hne
    exact (eq_nil_of_glue h' he.symm).symm
  · have hne' : names' ≠ [] := by
      rintro rfl
      exact hne (eq_nil_of_glue h he)
    rw [← pieces_glue hne h, he, pieces_glue hne' h']

end Path

namespace Project
open FileTree ComponentDocs.Path

def componentsOf (p : Project) (files : List (List (List Char))) : List String :=
  ((files.map fun names => Path.mk (Path.glue names)).filter p.config.isComponent).map Path.key

theorem discover_eq_ok_iff {p : Project} {t : FileTree} {components : List String} :
    p.discover t = .ok components ↔ ∃ files,
      t.filesBelow p.here p.config.componentsDir isSkipped = .ok files ∧
        components = (p.componentsOf files).mergeSort fun a b => decide (a ≤ b) := by
  unfold discover
  cases t.filesBelow p.here p.config.componentsDir isSkipped with
  | error e => simp
  | ok files => simp [componentsOf, eq_comm]

/-- Files that are found in the order of their components. -/
theorem discover_of_pairwise {p : Project} {t : FileTree} {files : List (List (List Char))} {components : List String}
    (h : t.filesBelow p.here p.config.componentsDir isSkipped = .ok files) (hc : p.componentsOf files = components)
    (hs : components.Pairwise (· ≤ ·)) : p.discover t = .ok components := by
  refine discover_eq_ok_iff.2 ⟨files, h, ?_⟩
  rw [hc, List.mergeSort_of_pairwise]
  simpa using hs

def componentAt (names : List (List Char)) : String := String.ofList (glue names)

theorem ofString_componentAt (names : List (List Char)) : Path.ofString (componentAt names) = ofNames names := by
  simp [Path.ofString, componentAt, ofNames]

theorem componentAt_injective {names names' : List (List Char)} (h : AreNames names) (h' : AreNames names')
    (he : componentAt names = componentAt names') : names = names' :=
  glue_injective h h' (String.ofList_injective he)

theorem key_eq_componentAt {names : List (List Char)} (h : AreNames names) :
    (ofNames names).key = componentAt names := by
  by_cases hne : names = []
  · subst hne
    rfl
  · exact key_ofNames hne h

theorem mem_componentsOf_iff {p : Project} {files : List (List (List Char))} (h : ∀ names ∈ files, AreNames names)
    {c : String} : c ∈ p.componentsOf files ↔
      ∃ names ∈ files, p.config.isComponent (ofNames names) = true ∧ c = componentAt names := by
  rw [componentsOf, List.mem_map]
  constructor
  · rintro ⟨path, hp, rfl⟩
    obtain ⟨hp, hc⟩ := List.mem_filter.1 hp
    obtain ⟨names, hn, rfl⟩ := List.mem_map.1 hp
    exact ⟨names, hn, hc, key_eq_componentAt (h names hn)⟩
  · rintro ⟨names, hn, hc, rfl⟩
    exact ⟨ofNames names, List.mem_filter.2 ⟨List.mem_map.2 ⟨names, hn, rfl⟩, hc⟩, key_eq_componentAt (h names hn)⟩

theorem nodup_componentsOf {p : Project} {files : List (List (List Char))} (h : ∀ names ∈ files, AreNames names)
    (hn : files.Nodup) : (p.componentsOf files).Nodup := by
  rw [componentsOf, List.filter_map, List.map_map]
  refine (hn.filter _).map_on fun names hm names' hm' he => ?_
  have hn := h names (List.mem_filter.1 hm).1
  have hn' := h names' (List.mem_filter.1 hm').1
  refine componentAt_injective hn hn' ?_
  rw [← key_eq_componentAt hn, ← key_eq_componentAt hn']
  exact he

/-- The names lead to a file below the directory of the components, and match one of the patterns. -/
structure Discovered (p : Project) (t : FileTree) (names : List (List Char)) : Prop where
  reaches : t.Reaches p.here p.config.componentsDir isSkipped names
  component : p.config.isComponent (ofNames names) = true

theorem exists?_iff {t : FileTree} {here : Location} {path : Path} :
    t.exists? here path = true ↔ ∃ x, t.find here path = .ok x := by
  unfold exists?
  cases t.find here path <;> simp [Except.toOption]

theorem exists_discover {p : Project} {t : FileTree} (ht : t.WellFormed)
    (hd : t.exists? p.here p.config.componentsDir = true) :
    ∃ components, p.discover t = .ok components ∧ components.Pairwise (· < ·) ∧
      ∀ c, c ∈ components ↔ ∃ names, p.Discovered t names ∧ c = componentAt names := by
  obtain ⟨x, hx⟩ := exists?_iff.1 hd
  obtain ⟨files, hf, hn, hm⟩ := ht.exists_filesBelow hx isSkipped
  have hnames : ∀ names ∈ files, AreNames names := fun names h => ((hm names).1 h).areNames
  refine ⟨_, discover_eq_ok_iff.2 ⟨files, hf, rfl⟩, ?_, fun c => ?_⟩
  · have hle : ((p.componentsOf files).mergeSort fun a b => decide (a ≤ b)).Pairwise fun a b => decide (a ≤ b) = true :=
      List.pairwise_mergeSort (by simpa using fun a b c => String.le_trans) (by simpa using String.le_total) _
    have hne : ((p.componentsOf files).mergeSort fun a b => decide (a ≤ b)).Nodup :=
      (List.mergeSort_perm _ _).nodup_iff.2 (nodup_componentsOf hnames hn)
    refine (hle.and hne).imp fun {a b} h => ?_
    by_contra hlt
    exact h.2 (String.le_antisymm (of_decide_eq_true h.1) (String.not_lt.1 hlt))
  · rw [List.mem_mergeSort, mem_componentsOf_iff hnames]
    constructor
    · rintro ⟨names, h, hc, he⟩
      exact ⟨names, ⟨(hm names).1 h, hc⟩, he⟩
    · rintro ⟨names, ⟨hr, hc⟩, he⟩
      exact ⟨names, (hm names).2 hr, hc, he⟩

theorem exists?_of_discover {p : Project} {t : FileTree} {components : List String}
    (h : p.discover t = .ok components) : t.exists? p.here p.config.componentsDir = true := by
  obtain ⟨files, hf, -⟩ := discover_eq_ok_iff.1 h
  rw [filesBelow, foundBelow] at hf
  rw [exists?_iff]
  cases hx : t.find p.here p.config.componentsDir with
  | error e => simp [hx, bind, Except.bind, Except.map] at hf
  | ok x => exact ⟨x, rfl⟩

theorem nodup_of_discover {p : Project} {t : FileTree} (ht : t.WellFormed) {components : List String}
    (hd : p.discover t = .ok components) : components.Nodup := by
  obtain ⟨components', hok, hs, -⟩ := exists_discover ht (exists?_of_discover hd)
  obtain rfl := Except.ok.inj (hd.symm.trans hok)
  refine List.Pairwise.imp (fun {a b} hlt => ?_) hs
  rintro rfl
  exact String.lt_irrefl a hlt

theorem mem_discover_iff {p : Project} {t : FileTree} (ht : t.WellFormed) {components : List String}
    (h : p.discover t = .ok components) {c : String} :
    c ∈ components ↔ ∃ names, p.Discovered t names ∧ c = componentAt names := by
  obtain ⟨components', hok, -, hm⟩ := exists_discover ht (exists?_of_discover h)
  obtain rfl := Except.ok.inj (h.symm.trans hok)
  exact hm c

def siteConfig (root docs pattern : String) : Config :=
  { Config.forWorkingDir (.ofString "/w") with
    componentsRoot := .ofString root
    components := (PatternList.compile ⟨[pattern], ⟨.defaults, none, .ofString "/w"⟩⟩).1
    outDir := .ofString docs }

/-- A project with documents that say no more than the name of the component and what is supplied. -/
def siteProject (c : Config) : Project where
  config := c.rootedAtComponents
  engine r := .ok ("# " ++ r.component ++ r.extra.getD "")
  formatter := .ok
  here := []

/-- A directory with these entries, by their paths. -/
def siteTree (entries : List (List String × Entry)) : FileTree :=
  ⟨([['w']], .directory) :: entries.map fun (names, e) => (['w'] :: names.map String.toList, e)⟩

/-- The search ends and is exact: a component is what its names lead to from the directory of the
components, without a way back over a link. The components are in the order of their bytes. -/
theorem discover_exact {p : Project} {t : FileTree} (ht : t.WellFormed)
    (hd : t.exists? p.here p.config.componentsDir = true) :
    ∃ components, p.discover t = .ok components ∧
      components.Pairwise (fun a b => Text.encode a < Text.encode b) ∧
      ∀ c, c ∈ components ↔ ∃ names, p.Discovered t names ∧ c = componentAt names := by
  obtain ⟨components, hok, hs, hm⟩ := exists_discover ht hd
  exact ⟨components, hok, hs.imp Text.encode_lt_encode, hm⟩

theorem discover_exact_links :
    let p := siteProject (siteConfig "src" "/w/docs" "**/*.vue")
    let t := siteTree [(["src"], .directory), (["src", "A.vue"], .file (.text "")),
      (["src", "gone.vue"], .link (.ofString "/nowhere")), (["src", "here"], .link (.ofString ".")),
      (["src", ".git"], .directory), (["src", ".git", "C.vue"], .file (.text "")), (["src", "sub"], .directory),
      (["src", "sub", "B.vue"], .link (.ofString "../A.vue")), (["src", "sub", "up"], .link (.ofString "/w/src")),
      (["src", "sub", "aside"], .link (.ofString "/w/other")), (["other"], .directory),
      (["other", "back"], .link (.ofString "../src/sub")), (["other", "D.vue"], .file (.text ""))]
    t.WellFormed ∧ t.exists? p.here p.config.componentsDir = true ∧
      p.discover t = .ok ["A.vue", "sub/B.vue", "sub/aside/D.vue"] ∧
      ∀ c, c ∈ ["A.vue", "sub/B.vue", "sub/aside/D.vue"] ↔ ∃ names, p.Discovered t names ∧ c = componentAt names := by
  intro p t
  have ht : t.WellFormed := wellFormed_of_entries (by decide +kernel) (by decide +kernel)
  have hd : t.exists? p.here p.config.componentsDir = true := by decide +kernel
  have hfiles : t.filesBelow p.here p.config.componentsDir isSkipped = .ok [["A.vue".toList],
      ["sub".toList, "B.vue".toList], ["sub".toList, "aside".toList, "D.vue".toList]] := by decide +kernel
  have hfound : p.discover t = .ok ["A.vue", "sub/B.vue", "sub/aside/D.vue"] :=
    discover_of_pairwise hfiles (by decide +kernel) (by decide)
  obtain ⟨components, hok, -, hm⟩ := discover_exact ht hd
  obtain rfl := Except.ok.inj (hfound.symm.trans hok)
  exact ⟨ht, hd, hfound, hm⟩

theorem generateAll_eq_generateEach {p : Project} {t : FileTree} {components : List String}
    (ho : p.config.outFile = none) (hd : p.discover t = .ok components) :
    p.generateAll t = p.generateEach t components := by
  simp [generateAll, hd, ho]

theorem generateEach_result (p : Project) (t : FileTree) (components : List String) :
    (p.generateEach t components).result = .ok (p.writeEach (p.renderings t components) t).2 := rfl

/-! Projects that keep the documents apart from the components, with a file for each component by
the default rules. There every path that a run follows is the path of a place. -/

/-- The documents of a project go to the directory `docs`, its components are in `source`, and
neither is inside the other. -/
structure Separate (p : Project) (source docs : Location) : Prop where
  supplement : p.config.supplement = Config.defaultSupplement
  destination : p.config.destination = Config.defaultDestination
  outFile : p.config.outFile = none
  cwd : p.config.cwd = source.path
  root : p.config.componentsRoot = source.path
  outDir : p.config.outDir = docs.path
  sourceNames : AreNames source
  docsNames : AreNames docs
  outside : ¬ source <+: docs
  apart : ¬ docs <+: source

/-- The names of a file that is found as a component. -/
structure Found (p : Project) (t : FileTree) (source : Location) (names : List (List Char)) : Prop where
  ne_nil : names ≠ []
  file : t.fileAt? (source ++ names) ≠ none
  kept : ∀ n ∈ names.dropLast, isSkipped n = false
  component : p.config.isComponent (ofNames names) = true

theorem fits_of_file {t : FileTree} (ht : Plain t) {l : Location} (h : t.fileAt? l ≠ none) : ∀ n ∈ l, Fits n := by
  obtain ⟨content, h⟩ := Option.ne_none_iff_exists'.1 h
  exact ht.fits (fileAt?_eq_some_iff.1 h)

theorem Found.areNames {p : Project} {t : FileTree} {source : Location} {names : List (List Char)}
    (h : p.Found t source names) (ht : Plain t) : AreNames names :=
  (areNames_of_fits (fits_of_file ht h.file)).right

theorem toOption_readText_congr {t t' : FileTree} {here : Location} {file : Path}
    (h : (t'.read here file).toOption = (t.read here file).toOption) :
    (t'.readText here file).toOption = (t.readText here file).toOption := by
  unfold FileTree.readText
  cases ht : t.read here file <;> cases ht' : t'.read here file <;>
    simp_all [Except.toOption, bind, Except.bind]

namespace Separate
variable {p : Project} {source docs : Location} (hs : p.Separate source docs)
include hs

theorem componentsDir : p.config.componentsDir = source.path := by
  rw [Config.componentsDir, hs.root, hs.cwd, join_absolute _ (Location.isAbsolute_path source)]
  rfl

theorem destination_eq {names : List (List Char)} (hne : names ≠ []) (h : AreNames names) :
    p.destination (componentAt names) = Location.path (docs ++ beside names) := by
  rw [Project.destination, Config.destFile, hs.destination, ofString_componentAt,
    Config.defaultDestination_path hs.outDir hs.docsNames hne h]

theorem supplement_eq {names : List (List Char)} (hne : names ≠ []) (h : AreNames names) :
    p.config.supplement (p.config.cwd.join (.ofString (componentAt names))).normalize =
      some (Location.path (source ++ beside names)) := by
  rw [hs.cwd, ofString_componentAt, Location.join_path source hne h hs.sourceNames,
    Location.normalize_path (hs.sourceNames.append h), hs.supplement,
    Config.defaultSupplement_path hs.sourceNames hne h]

theorem ne_of_append (a b : List (List Char)) : docs ++ a ≠ source ++ b := by
  intro h
  rcases List.prefix_or_prefix_of_prefix (List.prefix_append docs a) (h ▸ List.prefix_append source b) with hp | hp
  · exact hs.apart hp
  · exact hs.outside hp

theorem discover {t : FileTree} (ht : Plain t) (hd : t.get? source = some .directory) :
    ∃ components, p.discover t = .ok components ∧ ∀ c, c ∈ components ↔
      ∃ names, p.Found t source names ∧ c = componentAt names := by
  obtain ⟨files, hf, hm⟩ := ht.filesBelow_path p.here isSkipped hd
  rw [← hs.componentsDir] at hf
  refine ⟨_, discover_eq_ok_iff.2 ⟨files, hf, rfl⟩, fun c => ?_⟩
  have hnames : ∀ names ∈ files, AreNames names := by
    intro names h
    exact (areNames_of_fits (fits_of_file ht ((hm names).1 h).2.1)).right
  rw [List.mem_mergeSort, mem_componentsOf_iff hnames]
  constructor
  · rintro ⟨names, hn, hc, he⟩
    obtain ⟨hne, hfile, hk⟩ := (hm names).1 hn
    exact ⟨names, ⟨hne, hfile, hk, hc⟩, he⟩
  · rintro ⟨names, h, he⟩
    exact ⟨names, (hm names).2 ⟨h.ne_nil, h.file, h.kept⟩, h.component, he⟩

theorem render_congr {t t' : FileTree} (ht : Plain t) (ht' : Plain t') {names : List (List Char)} (hne : names ≠ [])
    (h : AreNames names) (hf : t'.fileAt? (source ++ beside names) = t.fileAt? (source ++ beside names)) :
    (p.render t' (componentAt names)).result = (p.render t (componentAt names)).result := by
  have hl := hs.sourceNames.append h.beside
  have hr : (t'.readText p.here (Location.path (source ++ beside names))).toOption =
      (t.readText p.here (Location.path (source ++ beside names))).toOption := by
    refine toOption_readText_congr ?_
    rw [ht'.read_path p.here hl, ht.read_path p.here hl, hf]
  have hq : p.config.request t' p.here (componentAt names) = p.config.request t p.here (componentAt names) := by
    simp only [Config.request, hs.supplement_eq hne h, Option.bind_some, hr]
  rw [render, render, compile, compile, hq]

theorem isDocument_congr {t t' : FileTree} (ht : Plain t) (ht' : Plain t') {names : List (List Char)}
    (hne : names ≠ []) (h : AreNames names)
    (hf : t'.fileAt? (source ++ beside names) = t.fileAt? (source ++ beside names)) (formatted : String) :
    p.IsDocument t' (componentAt names) formatted ↔ p.IsDocument t (componentAt names) formatted := by
  rw [IsDocument, IsDocument, hs.render_congr ht ht' hne h hf]

end Separate

/-- Settings with the default rules and a file for each component, where the directories of components
and documents are written in full and neither is inside the other. -/
structure SeparateConfig (c : Config) : Prop where
  supplement : c.supplement = Config.defaultSupplement
  destination : c.destination = Config.defaultDestination
  outFile : c.outFile = none
  source_absolute : c.componentsDir.isAbsolute = true
  source_normal : c.componentsDir.normalize = c.componentsDir
  docs_absolute : c.outDir.isAbsolute = true
  docs_normal : c.outDir.normalize = c.outDir
  docs_outside : c.outDir.startsWith c.componentsDir = false
  source_outside : c.componentsDir.startsWith c.outDir = false

theorem SeparateConfig.separate {c : Config} (h : SeparateConfig c) {p : Project}
    (hp : p.config = c.rootedAtComponents) :
    ∃ source docs, c.componentsDir = Location.path source ∧ p.Separate source docs := by
  obtain ⟨source, hsource, hroot⟩ := exists_place h.source_absolute h.source_normal
  obtain ⟨docs, hnames, hdocs⟩ := exists_place h.docs_absolute h.docs_normal
  have hout := h.docs_outside
  have hin := h.source_outside
  rw [hroot, hdocs, ← Bool.not_eq_true, Location.startsWith_path_iff hnames hsource] at hout
  rw [hroot, hdocs, ← Bool.not_eq_true, Location.startsWith_path_iff hsource hnames] at hin
  exact ⟨source, docs, hroot, hp ▸ h.supplement, hp ▸ h.destination, hp ▸ h.outFile, hp ▸ hroot, hp ▸ hroot,
    hp ▸ hdocs, hsource, hnames, hout, hin⟩

end Project

end ComponentDocs
