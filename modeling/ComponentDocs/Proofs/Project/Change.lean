import ComponentDocs.Proofs.Project.LastWrite
import ComponentDocs.Project.Log
import ComponentDocs.Proofs.FileTree.Anchored
/-! What the change of a file is told to concern. A path is first compared with the patterns alone, and
only if they do not name a component is it looked for among the supplementary files. -/
namespace ComponentDocs.Project
open FileTree ComponentDocs.Path

variable {p : Project} {t : FileTree}

theorem namedComponent?_join {names : List (List Char)} (h : AreNames names) :
    p.namedComponent? (p.config.componentsDir.join (ofNames names)) =
      if p.config.isComponent (ofNames names) then some (componentAt names) else none := by
  rw [namedComponent?, stripPrefix?_join _ h]
  simp only [key_eq_componentAt h]

theorem namedComponent?_of_discover (ht : t.WellFormed) {components : List String}
    (hd : p.discover t = .ok components) {c : String} (hc : c ∈ components) :
    p.namedComponent? (p.config.componentsDir.join (.ofString c)) = some c := by
  obtain ⟨names, hn, rfl⟩ := (mem_discover_iff ht hd).1 hc
  rw [ofString_componentAt, namedComponent?_join hn.reaches.areNames, if_pos hn.component]

/-- The supplementary file of a component. -/
def supplementOf? (p : Project) (component : String) : Option Path :=
  p.config.supplement (p.config.cwd.join (.ofString component)).normalize

theorem normalize_of_supplementOf? (hs : p.config.supplement = Config.defaultSupplement) {component : String}
    {path : Path} (h : p.supplementOf? component = some path) : path.normalize = path := by
  rw [supplementOf?, hs] at h
  obtain rfl := Option.some.inj h
  exact normalize_withExtension (normalize_normalize _) (by decide) (by decide)

theorem find?_of_first {α : Type} {f : α → Bool} {front rest : List α} {x : α} (hx : f x = true)
    (hf : ∀ y ∈ front, f y = false) : (front ++ x :: rest).find? f = some x := by
  rw [List.find?_append, List.find?_eq_none.2 (by simpa using hf), Option.none_or, List.find?_cons, hx]

/-- Paths that stand for a component which is discovered after those in `front`: its source, and its
supplementary file if the patterns name no other component by that path, and no earlier component
has the same file. -/
inductive StandsFor (p : Project) (front : List String) (component : String) : Path → Prop
  | source : StandsFor p front component (p.config.componentsDir.join (.ofString component))
  | supplement {path : Path} (file : p.supplementOf? component = some path)
      (own : ∀ other, p.namedComponent? path = some other → other = component)
      (first : ∀ c ∈ front, ∀ q, p.supplementOf? c = some q → path.same q = false) : StandsFor p front component path

theorem componentFor_of_standsFor (ht : t.WellFormed) (hs : p.config.supplement = Config.defaultSupplement)
    {front rest : List String} {c : String} (hd : p.discover t = .ok (front ++ c :: rest)) {path : Path}
    (hp : p.StandsFor front c path) (ho : p.isOutput path = false) : p.componentFor t path = .ok (some c) := by
  rw [componentFor, ho, if_neg Bool.false_ne_true]
  cases hp with
  | source =>
    rw [namedComponent?_of_discover ht hd (by simp)]
  | supplement file own first =>
    cases hn : p.namedComponent? path with
    | some other => rw [own other hn]
    | none =>
      have hsame : p.isSupplementOf path.normalize c = true := by
        rw [normalize_of_supplementOf? hs file, isSupplementOf, ← supplementOf?, file]
        simp [same]
      have hfront : ∀ c' ∈ front, p.isSupplementOf path.normalize c' = false := by
        intro c' hc'
        rw [normalize_of_supplementOf? hs file, isSupplementOf, ← supplementOf?]
        cases hq : p.supplementOf? c' with
        | none => rfl
        | some q => exact first c' hc' q hq
      simp only [hd, bind, Except.bind, find?_of_first hsame hfront]

theorem regenerateFor_of_componentFor (ho : p.config.outFile = none) {path : Path} {c : String}
    (h : p.componentFor t path = .ok (some c)) :
    p.regenerateFor t path =
      let o := p.generate t c
      { o with result := .ok (match o.result with
          | .ok _ => { written := [p.destination c] }
          | .error e => { failures := [(c, e)] }) } := by
  rw [regenerateFor, h]
  simp only [ho, Option.isSome_none, Bool.false_eq_true, if_false]
  cases hr : (p.generate t c).result with
  | error e => rfl
  | ok path => rw [(generate_eq_ok hr).1]

/-- A change that is not in the directory of the documents gives the document of the component that
its path stands for anew. -/
theorem regenerateFor_of_standsFor (ht : t.WellFormed) (ho : p.config.outFile = none)
    (hs : p.config.supplement = Config.defaultSupplement) {front rest : List String} {c : String}
    (hd : p.discover t = .ok (front ++ c :: rest)) {path : Path} (hp : p.StandsFor front c path)
    (hout : path.startsWith p.config.outDir = false) :
    p.regenerateFor t path =
      let o := p.generate t c
      { o with result := .ok (match o.result with
          | .ok _ => { written := [p.destination c] }
          | .error e => { failures := [(c, e)] }) } := by
  have hout' : p.isOutput path = false := by
    rw [isOutput, ho]
    exact hout
  exact regenerateFor_of_componentFor ho (componentFor_of_standsFor ht hs hd hp hout')

theorem regenerateFor_of_standsFor_site :
    let p := siteProject (siteConfig "src" "/w/docs" "*.vue")
    let t := siteTree [(["src"], .directory), (["src", "A.vue"], .file (.text "")), (["src", "A.md"], .file (.text "!")),
      (["src", "B.vue"], .link (.ofString "A.vue"))]
    let path := Path.ofString "/w/src/A.md"
    t.WellFormed ∧ p.discover t = .ok ["A.vue", "B.vue"] ∧ p.StandsFor [] "A.vue" path ∧
      (p.regenerateFor t path).result = .ok { written := [p.destination "A.vue"] } ∧
      (p.regenerateFor t path).tree.readText p.here (p.destination "A.vue") = .ok "# A.vue!" := by
  intro p t path
  have ht : t.WellFormed := wellFormed_of_entries (by decide +kernel) (by decide +kernel)
  have hfiles : t.filesBelow p.here p.config.componentsDir isSkipped = .ok [["A.vue".toList], ["A.md".toList], ["B.vue".toList]] := by
    decide +kernel
  have hd : p.discover t = .ok ([] ++ "A.vue" :: ["B.vue"]) :=
    discover_of_pairwise hfiles (by decide +kernel) (by decide)
  have hnone : p.namedComponent? path = none := by decide +kernel
  have hp : p.StandsFor [] "A.vue" path :=
    .supplement (by decide +kernel) (fun other ho => by simp [hnone] at ho) (by simp)
  have hr := regenerateFor_of_standsFor ht rfl rfl hd hp (by decide +kernel)
  refine ⟨ht, hd, hp, ?_, ?_⟩
  · rw [hr]
    decide +kernel
  · rw [hr]
    decide +kernel

/-- Changes that do not give the document of a component anew: where the documents are above the
sources, where the patterns name another component by the path of a supplementary file, where an
earlier component has the same one, and where the directory of the components is a relative path. -/
theorem regenerateFor_misses :
    (let p := siteProject (siteConfig "src" "/w" "*.vue")
      let t := siteTree [(["src"], .directory), (["src", "A.vue"], .file (.text ""))]
      p.discover t = .ok ["A.vue"] ∧ p.config.outFile = none ∧
      p.inputs "A.vue" = [.ofString "/w/src/A.vue", .ofString "/w/src/A.md"] ∧
      ∀ path ∈ p.inputs "A.vue", (p.regenerateFor t path).result = .ok {}) ∧
    (let p := siteProject (siteConfig "src" "/w/docs" "*")
      let t := siteTree [(["src"], .directory), (["src", "A.md"], .file (.text "!")), (["src", "A.vue"], .file (.text ""))]
      let path := Path.ofString "/w/src/A.md"
      p.discover t = .ok ["A.md", "A.vue"] ∧ p.config.outFile = none ∧ path ∈ p.inputs "A.vue" ∧
      (p.regenerateFor t path).tree.readText p.here (p.destination "A.vue") = .ok "# A.md!" ∧
      (p.generate t "A.vue").tree.readText p.here (p.destination "A.vue") = .ok "# A.vue!") ∧
    (let p := siteProject (siteConfig "src" "/w/docs" "*.{tsx,vue}")
      let t := siteTree [(["src"], .directory), (["src", "A.tsx"], .file (.text "")), (["src", "A.vue"], .file (.text ""))]
      let path := Path.ofString "/w/src/A.md"
      p.discover t = .ok ["A.tsx", "A.vue"] ∧ p.config.outFile = none ∧ path ∈ p.inputs "A.vue" ∧
      (p.regenerateFor t path).tree.readText p.here (p.destination "A.vue") = .ok "# A.tsx" ∧
      (p.generate t "A.vue").tree.readText p.here (p.destination "A.vue") = .ok "# A.vue") ∧
    (let p := siteProject { siteConfig "" "/w/docs" "*.vue" with cwd := .ofString "w" }
      let t := siteTree [(["w"], .directory), (["w", "A.vue"], .file (.text "")), (["w", "A.md"], .file (.text "!"))]
      let path := Path.ofString "w/w/A.md"
      p.discover t = .ok ["A.vue"] ∧ p.config.outFile = none ∧ path ∈ p.inputs "A.vue" ∧
      (p.regenerateFor t path).result = .ok {}) := by
  refine ⟨by decide +kernel, ?_, ?_, by decide +kernel⟩
  · intro p t path
    have hfiles : t.filesBelow p.here p.config.componentsDir isSkipped = .ok [["A.md".toList], ["A.vue".toList]] := by
      decide +kernel
    exact ⟨discover_of_pairwise hfiles (by decide +kernel) (by decide), by decide +kernel⟩
  · intro p t path
    have hfiles : t.filesBelow p.here p.config.componentsDir isSkipped = .ok [["A.tsx".toList], ["A.vue".toList]] := by
      decide +kernel
    have hd : p.discover t = .ok ["A.tsx", "A.vue"] := discover_of_pairwise hfiles (by decide +kernel) (by decide)
    have hc : p.componentFor t path = .ok (some "A.tsx") := by
      rw [componentFor, show p.namedComponent? path = none by decide +kernel, hd]
      decide +kernel
    refine ⟨hd, rfl, by decide +kernel, ?_, by decide +kernel⟩
    rw [regenerateFor_of_componentFor rfl hc]
    decide +kernel

theorem componentFor_cases {path : Path} {c : String} (h : p.componentFor t path = .ok (some c)) :
    p.namedComponent? path = some c ∨
      (p.namedComponent? path = none ∧ ∃ components, p.discover t = .ok components ∧ c ∈ components) := by
  rw [componentFor] at h
  split at h
  · cases h
  · cases hn : p.namedComponent? path with
    | some other =>
      rw [hn] at h
      cases h
      exact .inl rfl
    | none =>
      rw [hn] at h
      cases hd : p.discover t with
      | error e => simp [hd, bind, Except.bind] at h
      | ok components =>
        rw [hd] at h
        have hfind : components.find? (p.isSupplementOf path.normalize) = some c := Except.ok.inj h
        exact .inr ⟨rfl, components, rfl, List.mem_of_find?_eq_some hfind⟩

theorem targets_mono {components components' : List String} (h : components ⊆ components') :
    p.targets components ⊆ p.targets components' := by
  unfold targets
  cases p.config.outFile with
  | some file => simp
  | none => exact List.map_subset _ h

/-- A component that a path is told to concern is one that is discovered, or else the patterns name it by
the path and its file is not found below the directory of the components. The documents that are written for one
that is discovered are among those of a run over all. -/
theorem discovered_iff_of_componentFor (ht : t.WellFormed) {path : Path} {c : String}
    (h : p.componentFor t path = .ok (some c)) :
    ((∃ components, p.discover t = .ok components ∧ c ∈ components) ↔
      p.namedComponent? path = none ∨ (t.exists? p.here p.config.componentsDir = true ∧
        ∃ names, p.Discovered t names ∧ c = componentAt names)) ∧
      ∀ components, p.discover t = .ok components → c ∈ components →
        ∀ w ∈ (p.regenerateFor t path).written, w ∈ p.targets components := by
  refine ⟨⟨?_, ?_⟩, ?_⟩
  · rintro ⟨components, hd, hc⟩
    exact .inr ⟨exists?_of_discover hd, (mem_discover_iff ht hd).1 hc⟩
  · rintro (hn | ⟨hx, hnames⟩)
    · rcases componentFor_cases h with hc | ⟨-, hc⟩
      · rw [hn] at hc
        cases hc
      · exact hc
    · obtain ⟨components, hd, -, hm⟩ := exists_discover ht hx
      exact ⟨components, hd, (hm c).2 hnames⟩
  · intro components _ hc w hw
    obtain ⟨c', hc', hw⟩ := mem_targets_of_regenerateFor hw
    obtain rfl : c = c' := Option.some.inj (Except.ok.inj (h.symm.trans hc'))
    exact targets_mono (by simpa using hc) hw

theorem discovered_iff_of_componentFor_site :
    let p := siteProject (siteConfig "src" "/w/docs" "*.vue")
    let t := siteTree [(["src"], .directory), (["src", "A.vue"], .link (.ofString "../B.vue")), (["B.vue"], .file (.text ""))]
    let path := Path.ofString "/w/src/A.vue"
    p.componentFor t path = .ok (some "A.vue") ∧ p.namedComponent? path ≠ none ∧
      ∃ names, p.Discovered t names ∧ "A.vue" = componentAt names := by
  intro p t path
  have ht : t.WellFormed := wellFormed_of_entries (by decide +kernel) (by decide +kernel)
  have hc : p.componentFor t path = .ok (some "A.vue") := by decide +kernel
  have hnamed : p.namedComponent? path ≠ none := by decide +kernel
  have hd : p.discover t = .ok ["A.vue"] := by decide +kernel
  rcases (discovered_iff_of_componentFor ht hc).1.1 ⟨_, hd, by simp⟩ with hn | ⟨-, hnames⟩
  · exact absurd hn hnamed
  · exact ⟨hc, hnamed, hnames⟩

/-- Documents of what is not discovered: a file in a directory that is skipped, a directory, and nothing at all. -/
theorem componentFor_undiscovered :
    let p := siteProject (siteConfig "src" "/w/docs" "**/*.vue")
    let t := siteTree [(["src"], .directory), (["src", "node_modules"], .directory),
      (["src", "node_modules", "Dep.vue"], .file (.text "")), (["src", "Dir.vue"], .directory)]
    t.WellFormed ∧ p.discover t = .ok [] ∧
      ∀ c ∈ ["node_modules/Dep.vue", "Dir.vue", "Gone.vue"],
        let path := p.config.componentsDir.join (.ofString c)
        p.componentFor t path = .ok (some c) ∧
          (p.regenerateFor t path).result = .ok { written := [p.destination c] } := by
  refine ⟨wellFormed_of_entries ?_ ?_, ?_⟩ <;> decide +kernel

end ComponentDocs.Project

/-! Projects that do the same wherever they are started. All their paths are anchored. -/
namespace ComponentDocs.Project
open FileTree ComponentDocs.Path

/-- The same project, with relative paths that start elsewhere. -/
def startedIn (p : Project) (here : Location) : Project := { p with here }

@[simp] theorem config_startedIn (p : Project) (x : Location) : (p.startedIn x).config = p.config := rfl

@[simp] theorem here_startedIn (p : Project) (x : Location) : (p.startedIn x).here = x := rfl

@[simp] theorem destination_startedIn (p : Project) (x : Location) (component : String) :
    (p.startedIn x).destination component = p.destination component := rfl

structure Anchored (p : Project) : Prop where
  componentsDir : p.config.componentsDir.isAbsolute = true
  supplement : ∀ component, ∀ file ∈ p.supplementOf? component, file.IsAnchored
  destination : ∀ component, (p.destination component).IsAnchored
  outFile : ∀ file ∈ p.config.outFile, file.IsAnchored

theorem makeParent_anchored (x y : Location) (t : FileTree) {path : Path} (h : path.IsAnchored) :
    makeParent x t path = makeParent y t path := by
  unfold makeParent
  cases hparent : path.parent? with
  | none => rfl
  | some parent => simp only [makeDirectories_anchored x y t (h.parent? hparent)]

theorem writeFile_anchored (x y : Location) (t : FileTree) (text : String) {path : Path} (h : path.IsAnchored) :
    writeFile x t text path = writeFile y t text path := by
  simp only [writeFile, makeParent_anchored x y t h, write_anchored h _ x y]

theorem write_startedIn (p : Project) (x : Location) (t : FileTree) (text : String) {path : Path}
    (h : path.IsAnchored) : (p.startedIn x).write t text path = p.write t text path := by
  simp only [write_eq, startedIn, writeFile_anchored x p.here t _ h]

namespace Anchored
variable {p : Project} (h : p.Anchored) (x : Location) (t : FileTree)
include h

theorem request_startedIn (component : String) :
    p.config.request t x component = p.config.request t p.here component := by
  have hsupplement : p.config.supplement (p.config.cwd.join (.ofString component)).normalize =
      p.supplementOf? component := rfl
  simp only [Config.request, hsupplement]
  cases hf : p.supplementOf? component with
  | none => simp only [Option.bind_none]
  | some file => simp only [Option.bind_some, readText_anchored (h.supplement component file hf) t x p.here]

theorem render_startedIn (component : String) : (p.startedIn x).render t component = p.render t component := by
  simp only [render, compile, startedIn, h.request_startedIn x t component]

theorem discover_startedIn : (p.startedIn x).discover t = p.discover t := by
  simp only [discover, startedIn, filesBelow, foundBelow_anchored t x p.here h.componentsDir]

theorem renderings_startedIn (components : List String) :
    (p.startedIn x).renderings t components = p.renderings t components := by
  simp only [renderings, h.render_startedIn]

theorem requests_startedIn (components : List String) :
    (p.startedIn x).requests t components = p.requests t components := by
  simp only [requests, h.render_startedIn]

theorem writeEach_startedIn (rs : Renderings) : (p.startedIn x).writeEach rs t = p.writeEach rs t := by
  induction rs generalizing t with
  | nil => rfl
  | cons r rest ih =>
    obtain ⟨component, rendered⟩ := r
    have hwrite (text : String) := p.write_startedIn x t text (h.destination component)
    cases rendered with
    | error e => simp only [writeEach, ih]
    | ok text => simp only [writeEach, destination_startedIn, ih, hwrite]

theorem draftsEach_startedIn (rs : Renderings) : (p.startedIn x).draftsEach rs t = p.draftsEach rs t := by
  induction rs generalizing t with
  | nil => rfl
  | cons r rest ih =>
    obtain ⟨component, rendered⟩ := r
    have hwrite (text : String) := p.write_startedIn x t text (h.destination component)
    cases rendered with
    | error e => simp only [draftsEach, ih]
    | ok text => simp only [draftsEach, destination_startedIn, ih, hwrite]

theorem generateTogether_startedIn (components : List String) {file : Path} (hf : p.config.outFile = some file) :
    (p.startedIn x).generateTogether t components file = p.generateTogether t components file := by
  have hwrite (text : String) := p.write_startedIn x t text (h.outFile file hf)
  simp only [generateTogether, h.renderings_startedIn, h.requests_startedIn, hwrite]

/-- A run over all components does the same wherever it is started. -/
theorem generateAll_startedIn : (p.startedIn x).generateAll t = p.generateAll t := by
  unfold generateAll
  rw [h.discover_startedIn x t, config_startedIn]
  cases p.discover t with
  | error e => rfl
  | ok components =>
    cases hf : p.config.outFile with
    | none =>
      simp only [generateEach, h.renderings_startedIn, h.requests_startedIn, h.writeEach_startedIn,
        h.draftsEach_startedIn]
    | some file => simp only [h.generateTogether_startedIn x t components hf]

theorem advance_startedIn (component : String) (stage : Stage) :
    (p.startedIn x).advance component (t, stage) = p.advance component (t, stage) := by
  have hrequest := h.request_startedIn x t component
  cases stage with
  | waiting => simp only [advance, config_startedIn, here_startedIn, hrequest]
  | asked request => rfl
  | formatted text =>
    simp only [advance, destination_startedIn, here_startedIn, makeParent_anchored x p.here t (h.destination component)]
  | housed text =>
    simp only [advance, destination_startedIn, here_startedIn, write_anchored (h.destination component) t x p.here]
  | ended result => rfl

theorem step_startedIn : (p.startedIn x).step = p.step := by
  funext s component
  simp only [step, h.advance_startedIn]

theorem interleave_startedIn (schedule : List String) :
    (p.startedIn x).interleave t schedule = p.interleave t schedule := by
  rw [interleave, interleave, h.step_startedIn]

theorem generateBy_startedIn (schedule : List String) :
    (p.startedIn x).generateBy schedule t = p.generateBy schedule t := by
  unfold generateBy
  rw [h.discover_startedIn x t, config_startedIn]
  cases p.discover t with
  | error e => rfl
  | ok components =>
    cases hf : p.config.outFile with
    | none => simp only [h.interleave_startedIn]
    | some file => simp only [h.generateTogether_startedIn x t components hf]

theorem searchLog_startedIn : (p.startedIn x).searchLog t = p.searchLog t := by
  simp only [searchLog, config_startedIn, here_startedIn, passedOver, foundBelow_anchored t x p.here h.componentsDir]

theorem supplementLog_startedIn (component : String) :
    (p.startedIn x).supplementLog t component = p.supplementLog t component := by
  have hsupplement : p.config.supplement (p.config.cwd.join (.ofString component)).normalize =
      p.supplementOf? component := rfl
  simp only [supplementLog, config_startedIn, hsupplement]
  cases hf : p.supplementOf? component with
  | none => rfl
  | some file => simp only [here_startedIn, readText_anchored (h.supplement component file hf) t x p.here]

theorem stepLog_startedIn (ofRequest : Engine.Request → List Log.Item) (s : Cycles) (component : String) :
    (p.startedIn x).stepLog ofRequest s component = p.stepLog ofRequest s component := by
  simp only [stepLog, h.step_startedIn, h.supplementLog_startedIn]

theorem stepsLog_startedIn (ofRequest : Engine.Request → List Log.Item) (s : Cycles) (schedule : List String) :
    (p.startedIn x).stepsLog ofRequest s schedule = p.stepsLog ofRequest s schedule := by
  induction schedule generalizing s with
  | nil => rfl
  | cons component rest ih => simp only [stepsLog, h.stepLog_startedIn, h.step_startedIn, ih]

theorem renderLog_startedIn (ofRequest : Engine.Request → List Log.Item) (component : String) :
    (p.startedIn x).renderLog ofRequest t component = p.renderLog ofRequest t component := by
  simp only [renderLog, h.supplementLog_startedIn, config_startedIn, here_startedIn, h.request_startedIn x t component]

theorem generationLog_startedIn (ofRequest : Engine.Request → List Log.Item) (turns : Turns) :
    (p.startedIn x).generationLog ofRequest turns t = p.generationLog ofRequest turns t := by
  unfold generationLog
  rw [h.searchLog_startedIn, h.discover_startedIn, config_startedIn]
  cases p.discover t with
  | error e => rfl
  | ok components =>
    cases hf : p.config.outFile with
    | none => simp only [h.stepsLog_startedIn, h.interleave_startedIn]
    | some file =>
      simp only [h.renderings_startedIn, h.renderLog_startedIn, h.generateTogether_startedIn x t components hf]

end Anchored

end ComponentDocs.Project
