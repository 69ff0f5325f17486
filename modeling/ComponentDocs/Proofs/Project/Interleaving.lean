import ComponentDocs.Proofs.FileTree.Merge
import ComponentDocs.Proofs.Project.Change
import ComponentDocs.Proofs.Project.Settled
/-! Documents that are generated side by side. Where the files of the components keep apart, each component
goes through its steps as if it had the files for itself, whatever comes between them. -/
namespace ComponentDocs.Project
open FileTree ComponentDocs.Path

variable {p : Project} {t : FileTree}

/-- A path that is written in full: from the root, and without steps that its spelling can do without. -/
structure InFull (path : Path) : Prop where
  absolute : path.isAbsolute = true
  normal : path.normalize = path

instance (path : Path) : Decidable (InFull path) :=
  decidable_of_iff (path.isAbsolute = true ∧ path.normalize = path) ⟨fun ⟨h, h'⟩ => ⟨h, h'⟩, fun ⟨h, h'⟩ => ⟨h, h'⟩⟩

/-- The destinations of some components are written in full, and none is above another one, or above or
below a supplementary file, or the same. -/
structure Apart (p : Project) (components : List String) : Prop where
  destination : ∀ c ∈ components, InFull (p.destination c)
  destinations : ∀ c ∈ components, ∀ other ∈ components, c ≠ other →
    (p.destination other).startsWith (p.destination c) = false
  supplements : ∀ c ∈ components, ∀ other ∈ components, ∀ file ∈ p.supplementOf? other,
    (p.destination c).startsWith file = false ∧ file.startsWith (p.destination c) = false

/-- The place of the document of a component. -/
def documentPlace (p : Project) (component : String) : Location := (p.destination component).tightBody

theorem InFull.exists_place {path : Path} (h : InFull path) :
    AreNames path.tightBody ∧ path = Location.path path.tightBody := by
  obtain ⟨l, hl, rfl⟩ := Path.exists_place h.absolute h.normal
  rw [Location.tightBody_path hl]
  exact ⟨hl, rfl⟩

section Apart
variable {components : List String} (h : p.Apart components)
include h

theorem Apart.place {c : String} (hc : c ∈ components) :
    AreNames (p.documentPlace c) ∧ p.destination c = Location.path (p.documentPlace c) :=
  (h.destination c hc).exists_place

theorem Apart.spread : Spread p.documentPlace components := by
  intro a ha b hb hab hp
  have hstarts := h.destinations a ha b hb hab
  rw [(h.place ha).2, (h.place hb).2, ← Bool.not_eq_true,
    Location.startsWith_path_iff (h.place hb).1 (h.place ha).1] at hstarts
  exact hstarts hp

theorem Apart.supplement {c other : String} (hc : c ∈ components) (ho : other ∈ components) {file : Path}
    (hf : file ∈ p.supplementOf? other) (hfull : InFull file) : file.tightBody ≠ p.documentPlace c := by
  intro he
  have hstarts := (h.supplements c hc other ho file hf).2
  obtain ⟨hnames, hfile⟩ := hfull.exists_place
  rw [(h.place hc).2, hfile, ← Bool.not_eq_true, Location.startsWith_path_iff hnames (h.place hc).1, he] at hstarts
  exact hstarts List.prefix_rfl

end Apart

/-- What an engine is asked for depends on the supplementary file only. -/
theorem request_congr {t' : FileTree} {component : String} (h : ∀ file ∈ p.supplementOf? component,
      (t'.read p.here file).toOption = (t.read p.here file).toOption) :
    p.config.request t' p.here component = p.config.request t p.here component := by
  have hsupplement : p.config.supplement (p.config.cwd.join (.ofString component)).normalize =
      p.supplementOf? component := rfl
  simp only [Config.request, hsupplement]
  cases hf : p.supplementOf? component with
  | none => simp only [Option.bind_none]
  | some file => simp only [Option.bind_some, toOption_readText_congr (h file hf)]

theorem makeParent_eq {here : Location} {path parent : Path} (h : path.parent? = some parent)
    (hne : parent.isEmpty = false) (t : FileTree) : makeParent here t path =
      ((t.makeDirectories here parent).1, (t.makeDirectories here parent).2.mapError (.output parent)) := by
  unfold makeParent
  rw [h]
  simp only [hne, Bool.false_eq_true, if_false]
  rcases t.makeDirectories here parent with ⟨t', e | _⟩ <;> rfl

section Step
variable {u s : FileTree} {l : Location} (hu : Plain u) (hs : Plain s) (hl : AreNames l) (h : Agree l u s)
include hu hs hl h

theorem parallel_makeParent (here : Location) :
    Parallel l u s (makeParent here u l.path) (makeParent here s l.path) := by
  rcases List.eq_nil_or_concat l with rfl | ⟨dir, n, rfl⟩
  · exact .rfl hu hs _
  · rw [List.concat_eq_append] at hl h ⊢
    rw [makeParent_eq (Location.parent?_path hl) rfl, makeParent_eq (Location.parent?_path hl) rfl]
    exact (h.makeDirectories hu hs here hl).map _

/-- A step of a component goes alike in two trees that are alike on the way to its file, where it reads the
same and, if it is about to write, the directory is there. -/
theorem parallel_advance {component : String} (hp : p.destination component = l.path) {stage : Stage}
    (hread : stage = .waiting → p.config.request s p.here component = p.config.request u p.here component)
    (hhoused : ∀ text, stage = .housed text → ∀ dir n, l = dir ++ [n] → u.get? dir = some .directory) :
    Parallel l u s (p.advance component (u, stage)) (p.advance component (s, stage)) := by
  cases stage with
  | waiting =>
    simp only [advance, hread rfl]
    exact .rfl hu hs _
  | asked request => exact .rfl hu hs _
  | formatted text =>
    simp only [advance, hp]
    exact (parallel_makeParent hu hs hl h p.here).map _
  | housed text =>
    simp only [advance, hp]
    rcases List.eq_nil_or_concat l with rfl | ⟨dir, n, rfl⟩
    · have hroot {t : FileTree} (ht : Plain t) (content : Content) :
          t.write p.here (Location.path []) content = .error .isDirectory := by
        rw [FileTree.write, ht.resolve_directory (get?_root t)]
        rfl
      rw [hroot hu, hroot hs]
      exact .rfl hu hs _
    · rw [List.concat_eq_append] at hl h hhoused ⊢
      rcases h.write hu hs p.here hl (hhoused text rfl dir n rfl) (.text text) with
        ⟨e, he, he'⟩ | ⟨u', s', he, he', ha, ha'⟩
      · rw [he, he']
        exact .rfl hu hs _
      · rw [he, he']
        exact ⟨rfl, _, _, by simp, ha, ha'⟩
  | ended result => exact .rfl hu hs _

end Step

/-- Where a document is about to be written, its directory is there. -/
def Housed (l : Location) (x : FileTree × Stage) : Prop :=
  ∀ text, x.2 = .housed text → ∀ dir n, l = dir ++ [n] → x.1.get? dir = some .directory

theorem housed_advance {u : FileTree} (hu : Plain u) {l : Location} (hl : AreNames l) {component : String}
    (hp : p.destination component = l.path) (stage : Stage) : Housed l (p.advance component (u, stage)) := by
  rintro text htext dir n rfl
  cases stage with
  | waiting => cases htext
  | ended result => cases htext
  | asked request =>
    simp only [advance, prepare] at htext
    split at htext
    · cases htext
    · split at htext <;> cases htext
  | housed text =>
    simp only [advance] at htext
    split at htext <;> cases htext
  | formatted text =>
    have hmade := hu.made_makeDirectories p.here hl.left
    simp only [advance, hp, makeParent_eq (Location.parent?_path hl) rfl] at htext ⊢
    rcases hr : u.makeDirectories p.here (Location.path dir) with ⟨t', e | _⟩
    · rw [hr] at htext
      cases htext
    · rw [hr] at hmade
      exact hmade.directory rfl

/-- What a component leaves that has the files for itself. -/
theorem alone_workedAt (ht : Plain t) {l : Location} (hl : AreNames l) {component : String}
    (hp : p.destination component = l.path) (k : Nat) :
    WorkedAt t l (p.alone t component k).1 ∧ Housed l (p.alone t component k) := by
  induction k with
  | zero => exact ⟨.rfl ht l, by simp [Housed, alone]⟩
  | succ k ih =>
    obtain ⟨hw, hh⟩ := ih
    obtain ⟨-, made, content, hm, ha, -⟩ := parallel_advance hw.plain hw.plain hl (.rfl l _) hp (fun _ => rfl) hh
    exact ⟨hw.step ha hm, housed_advance hw.plain hl hp _⟩

/-- Each component is where as many steps of its own would have brought it, and the files are made up of what
each would have left. -/
structure Simulates (p : Project) (t : FileTree) (components schedule : List String) (s : Cycles) : Prop where
  stage : ∀ c ∈ components, s.stage c = (p.alone t c (schedule.count c)).2
  merges : Merges t p.documentPlace components (fun c => (p.alone t c (schedule.count c)).1) s.tree

section Run
variable (ht : Plain t) {components : List String} (h : p.Apart components)
  (hfull : ∀ c ∈ components, ∀ file ∈ p.supplementOf? c, InFull file)
include ht h hfull

theorem Simulates.step {schedule : List String} {s : Cycles} (hs : p.Simulates t components schedule s) {c : String}
    (hc : c ∈ components) : p.Simulates t components (schedule ++ [c]) (p.step s c) := by
  obtain ⟨hl, hp⟩ := h.place hc
  have hparts : ∀ a ∈ components, WorkedAt t (p.documentPlace a) (p.alone t a (schedule.count a)).1 := fun a ha =>
    (alone_workedAt ht (h.place ha).1 (h.place ha).2 _).1
  obtain ⟨hw, hh⟩ := alone_workedAt ht hl hp (schedule.count c)
  have hread : p.config.request s.tree p.here c = p.config.request (p.alone t c (schedule.count c)).1 p.here c := by
    refine request_congr fun file hf => ?_
    obtain ⟨hnames, hfile⟩ := (hfull c hc file hf).exists_place
    rw [hfile, hs.merges.plain.read_path p.here hnames, hw.plain.read_path p.here hnames,
      hs.merges.elsewhere _ fun a ha => h.supplement ha hc hf (hfull c hc file hf),
      hw.elsewhere _ (h.supplement hc hc hf (hfull c hc file hf))]
  obtain ⟨hresult, made, content, -, hadd, hadd'⟩ := parallel_advance hw.plain hs.merges.plain hl
    (hs.merges.agree hparts h.spread hc) hp (fun _ => hread) hh
  have hcount (a : String) : p.alone t a ((schedule ++ [c]).count a) =
      if a = c then p.advance c (p.alone t c (schedule.count c)) else p.alone t a (schedule.count a) := by
    by_cases hac : a = c
    · subst hac
      simp [alone]
    · simp [hac, List.count_append, Ne.symm hac]
  refine ⟨fun a ha => ?_, ?_⟩
  · rw [hcount]
    by_cases hac : a = c
    · subst hac
      simp [Project.step_eq, hs.stage a hc, hresult]
    · simp [Project.step_eq, hac, hs.stage a ha]
  · have hupdate : (fun a => (p.alone t a ((schedule ++ [c]).count a)).1) =
        Function.update (fun a => (p.alone t a (schedule.count a)).1) c
          (p.advance c (p.alone t c (schedule.count c))).1 := by
      funext a
      rw [hcount]
      by_cases hac : a = c
      · subst hac
        simp
      · simp [hac]
    have htree : (p.step s c).tree = (p.advance c (s.tree, (p.alone t c (schedule.count c)).2)).1 := by
      rw [Project.step, hs.stage c hc]
    rw [hupdate, htree]
    exact hs.merges.step h.spread hc hadd hadd'

theorem simulates_interleave {schedule : List String} (hm : schedule ⊆ components) :
    p.Simulates t components schedule (p.interleave t schedule) := by
  induction schedule using List.reverseRecOn with
  | nil => exact ⟨fun _ _ => rfl, .start ht⟩
  | append_singleton schedule c ih =>
    rw [interleave_concat]
    exact (ih fun a ha => hm (List.mem_append_left _ ha)).step ht h hfull (hm (by simp))

theorem simulates_finished {schedule : List String} (hm : schedule ⊆ components)
    (hf : (p.interleave t schedule).Finished components) :
    (∀ c ∈ components, (p.interleave t schedule).stage c = .ended (p.generate t c).result) ∧
      Merges t p.documentPlace components (fun c => (p.generate t c).tree) (p.interleave t schedule).tree := by
  have hs := simulates_interleave ht h hfull hm
  have halone : ∀ c ∈ components, p.alone t c (schedule.count c) =
      ((p.generate t c).tree, .ended (p.generate t c).result) := by
    intro c hc
    obtain ⟨result, hr⟩ := hf c hc
    exact alone_ended ((hs.stage c hc).symm.trans hr)
  exact ⟨fun c hc => by rw [hs.stage c hc, halone c hc], hs.merges.congr fun c hc => by rw [halone c hc]⟩

end Run

/-- In whatever order the steps of the components come, a run ends once each of them has had its four steps, and
all runs that have ended agree with each other and with a run over all components: in the files, and in the
report. Each component has the result and the file that it has where its document is generated alone. -/
theorem interleavings_agree (ht : Plain t) (ho : p.config.outFile = none) {components : List String}
    (hd : p.discover t = .ok components) (h : p.Apart components)
    (hfull : ∀ c ∈ components, ∀ file ∈ p.supplementOf? c, InFull file) :
    ∀ schedule, schedule ⊆ components →
      ((∀ c ∈ components, 4 ≤ schedule.count c) → (p.interleave t schedule).Finished components) ∧
      ((p.interleave t schedule).Finished components →
        (p.generateAll t).result = .ok ((p.interleave t schedule).report components) ∧
        (p.interleave t schedule).report components =
          .ofResults (components.map fun c => (c, (p.generate t c).result)) ∧
        (∀ l, (p.interleave t schedule).tree.get? l = (p.generateAll t).tree.get? l) ∧
        ∀ c ∈ components, (p.interleave t schedule).stage c = .ended (p.generate t c).result ∧
          ((p.interleave t schedule).tree.read p.here (p.destination c)).toOption =
            ((p.generate t c).tree.read p.here (p.destination c)).toOption) := by
  intro schedule hm
  refine ⟨fun hcount c hc => ?_, fun hf => ?_⟩
  · rw [(simulates_interleave ht h hfull hm).stage c hc, alone_of_four_le p t c (hcount c hc)]
    exact ⟨_, rfl⟩
  obtain ⟨hstage, hmerges⟩ := simulates_finished ht h hfull hm hf
  obtain ⟨hf', htree, hresult⟩ := p.interleave_inOrder t (nodup_of_discover ht.toWellFormed hd)
  have hm' : inOrder components ⊆ components := by simp [inOrder, List.subset_def]
  obtain ⟨hstage', hmerges'⟩ := simulates_finished ht h hfull hm' hf'
  have hreport : ∀ s : Cycles, (∀ c ∈ components, s.stage c = .ended (p.generate t c).result) →
      s.report components = .ofResults (components.map fun c => (c, (p.generate t c).result)) := fun s hs => by
    rw [Cycles.report, Cycles.results_eq_map hs]
  rw [generateAll_eq_generateEach ho hd, hresult, htree, hreport _ hstage, hreport _ hstage']
  refine ⟨rfl, rfl, fun l => hmerges.get?_eq hmerges' l, fun c hc => ⟨hstage c hc, ?_⟩⟩
  obtain ⟨hl, hp⟩ := h.place hc
  have hw : WorkedAt t (p.documentPlace c) (p.generate t c).tree := by
    have hw := (alone_workedAt ht hl hp 4).1
    rwa [alone_four] at hw
  rw [hp, hmerges.plain.read_path p.here hl, hw.plain.read_path p.here hl, hmerges.own c hc]

theorem interleavings_agree_site :
    let p := siteProject (siteConfig "src" "/w/docs" "**/*.vue")
    let t := siteTree [(["docs"], .directory), (["docs", "sub"], .file (.text "")), (["src"], .directory),
      (["src", "A.vue"], .file (.text "")), (["src", "A.md"], .file (.text "!")), (["src", "B.vue"], .file (.text "")),
      (["src", "sub"], .directory), (["src", "sub", "C.vue"], .file (.text ""))]
    let components := ["A.vue", "B.vue", "sub/C.vue"]
    let s := p.interleave t ["sub/C.vue", "B.vue", "A.vue", "B.vue", "sub/C.vue", "sub/C.vue", "A.vue", "A.vue",
      "B.vue", "A.vue", "sub/C.vue", "B.vue"]
    Plain t ∧ p.discover t = .ok components ∧ p.Apart components ∧
      (∀ c ∈ components, ∀ file ∈ p.supplementOf? c, InFull file) ∧ s.Finished components ∧
      s.report components = ⟨[.ofString "/w/docs/A.md", .ofString "/w/docs/B.md"],
        [("sub/C.vue", .output (.ofString "/w/docs/sub") .alreadyExists)]⟩ ∧
      s.tree.readText p.here (p.destination "A.vue") = .ok "# A.vue!" ∧
      ∀ l, s.tree.get? l = (p.generateAll t).tree.get? l := by
  intro p t components s
  have ht : Plain t := plain_of_isPlain (by decide +kernel)
  have hfiles : t.filesBelow p.here p.config.componentsDir isSkipped = .ok [["A.vue".toList], ["A.md".toList],
      ["B.vue".toList], ["sub".toList, "C.vue".toList]] := by decide +kernel
  have hd : p.discover t = .ok components := discover_of_pairwise hfiles (by decide +kernel) (by decide)
  have h : p.Apart components := ⟨by decide +kernel, by decide +kernel, by decide +kernel⟩
  have hfull : ∀ c ∈ components, ∀ file ∈ p.supplementOf? c, InFull file := by decide +kernel
  obtain ⟨hended, hagree⟩ := interleavings_agree ht rfl hd h hfull ["sub/C.vue", "B.vue", "A.vue", "B.vue",
    "sub/C.vue", "sub/C.vue", "A.vue", "A.vue", "B.vue", "A.vue", "sub/C.vue", "B.vue"] (by decide +kernel)
  have hf : s.Finished components := hended (by decide +kernel)
  exact ⟨ht, hd, h, hfull, hf, by decide +kernel, by decide +kernel, (hagree hf).2.2.1⟩

/-- Supplementary files that are not written in full. One is found only when the directory of the documents is
there, and the other is the document of another component. -/
theorem interleaving_changes_document :
    let t := siteTree [(["notes.md"], .file (.text "!")), (["src"], .directory), (["src", "A.vue"], .file (.text "")),
      (["src", "B.vue"], .file (.text ""))]
    let components := ["A.vue", "B.vue"]
    let schedule := ["A.vue", "A.vue", "A.vue", "A.vue", "B.vue", "B.vue", "B.vue", "B.vue"]
    Plain t ∧ ∀ x ∈ [("/w/docs/../notes.md", "# B.vue!"), ("w/docs/A.md", "# B.vue# A.vue")],
      let p := siteProject { siteConfig "src" "/w/docs" "*.vue" with supplement := fun _ => some (.ofString x.1) }
      p.config.outFile = none ∧ p.discover t = .ok components ∧ p.Apart components ∧
        (p.interleave t schedule).Finished components ∧
        (p.interleave t schedule).tree.readText p.here (p.destination "B.vue") = .ok x.2 ∧
        (p.generate t "B.vue").tree.readText p.here (p.destination "B.vue") = .ok "# B.vue" := by
  intro t components schedule
  refine ⟨plain_of_isPlain (by decide +kernel), ?_⟩
  intro x hx
  rcases List.mem_pair.1 hx with rfl | rfl
  all_goals
    intro p
    have hfiles : t.filesBelow p.here p.config.componentsDir isSkipped = .ok [["A.vue".toList], ["B.vue".toList]] := by
      decide +kernel
    have hd : p.discover t = .ok components := discover_of_pairwise hfiles (by decide +kernel) (by decide)
    have h : p.Apart components := ⟨by decide +kernel, by decide +kernel, by decide +kernel⟩
    exact ⟨rfl, hd, h, by decide +kernel, by decide +kernel, by decide +kernel⟩

end ComponentDocs.Project

/-! Trees at rest: a run over all components changes nothing in them. -/
namespace ComponentDocs.Project
open FileTree ComponentDocs.Path

variable {p : Project} {t u : FileTree}

/-- A run over all components changes no file and no directory. -/
def Rests (p : Project) (t : FileTree) : Prop := ∀ l, (p.generateAll t).tree.get? l = t.get? l

/-- The document of a component, if it can be rendered and formatted. -/
def document? (p : Project) (t : FileTree) (component : String) : Option String :=
  (p.render t component).result.toOption.bind fun text => (p.formatter text).toOption

/-- What a run over some components writes, with the paths that it is written to. -/
def documents (p : Project) (t : FileTree) (components : List String) : List (Path × String) :=
  match p.config.outFile with
  | none => components.filterMap fun c => (p.document? t c).map fun text => (p.destination c, text)
  | some file =>
    let texts := (p.renderings t components).texts
    if texts.isEmpty then []
    else ((p.formatter ("\n\n".intercalate texts)).toOption.map fun text => (file, text)).toList

theorem writeEach_renderings_tree (p : Project) (t₀ t : FileTree) (components : List String) :
    (p.writeEach (p.renderings t₀ components) t).1 =
      (components.filterMap fun c => (p.document? t₀ c).map fun text => (p.destination c, text)).foldl
        (inscribe p.here) t := by
  induction components generalizing t with
  | nil => rfl
  | cons c rest ih =>
    have hcons : p.renderings t₀ (c :: rest) = (c, (p.render t₀ c).result) :: p.renderings t₀ rest := rfl
    rw [hcons, List.filterMap_cons]
    cases hr : (p.render t₀ c).result with
    | error e =>
      have hnone : p.document? t₀ c = none := by simp [document?, hr, Except.toOption]
      rw [hnone]
      exact ih t
    | ok text =>
      have hdocument : p.document? t₀ c = (p.formatter text).toOption := by simp [document?, hr, Except.toOption]
      rw [writeEach_text_tree, ih, write_tree, hdocument]
      cases p.formatter text <;> rfl

theorem generateAll_tree {components : List String} (hd : p.discover t = .ok components) :
    (p.generateAll t).tree = (p.documents t components).foldl (inscribe p.here) t := by
  unfold generateAll documents
  rw [hd]
  dsimp only
  cases p.config.outFile with
  | none => exact writeEach_renderings_tree p t t components
  | some file =>
    simp only [generateTogether]
    split
    · rfl
    · simp only [Outcome.map, write_tree]
      cases p.formatter ("\n\n".intercalate (p.renderings t components).texts) <;> rfl

theorem generate_tree_eq (ho : p.config.outFile = none) (c : String) :
    (p.generate t c).tree = (p.documents t [c]).foldl (inscribe p.here) t := by
  rw [generate_tree, documents, ho]
  unfold document?
  cases hr : (p.render t c).result with
  | error e => simp [hr, Except.toOption]
  | ok text =>
    simp only [write_tree]
    cases hf : p.formatter text <;> simp [hr, hf, Except.toOption, inscribe]

theorem document?_congr {c : String} (h : p.config.request u p.here c = p.config.request t p.here c) :
    p.document? u c = p.document? t c := by
  simp only [document?, render, compile, h]

theorem documents_congr {components : List String}
    (h : ∀ c ∈ components, p.config.request u p.here c = p.config.request t p.here c) :
    p.documents u components = p.documents t components := by
  have hrenderings : p.renderings u components = p.renderings t components :=
    List.map_congr_left fun c hc => by simp only [render, compile, h c hc]
  have hdocuments : (components.filterMap fun c => (p.document? u c).map fun text => (p.destination c, text)) =
      components.filterMap fun c => (p.document? t c).map fun text => (p.destination c, text) :=
    List.filterMap_congr fun c hc => by rw [document?_congr (h c hc)]
  unfold documents
  rw [hrenderings, hdocuments]

theorem discover_of_outline (h : u.outline = t.outline) : p.discover u = p.discover t := by
  unfold discover
  rw [← filesBelow_outline u, h, filesBelow_outline]

theorem mem_targets_of_documents {components : List String} {x : Path × String} (hx : x ∈ p.documents t components) :
    x.1 ∈ p.targets components := by
  unfold documents at hx
  unfold targets
  cases hf : p.config.outFile with
  | none =>
    rw [hf] at hx
    obtain ⟨c, hc, hm⟩ := List.mem_filterMap.1 hx
    obtain ⟨text, -, rfl⟩ := Option.map_eq_some_iff.1 hm
    exact List.mem_map_of_mem hc
  | some file =>
    rw [hf] at hx
    dsimp only at hx
    split at hx
    · cases hx
    · obtain ⟨text, -, rfl⟩ := Option.map_eq_some_iff.1 (Option.mem_toList.1 hx)
      exact List.mem_singleton_self file

/-- What is written with a file for each component: the documents of the components. -/
theorem mem_documents_iff (ho : p.config.outFile = none) {components : List String} {x : Path × String} :
    x ∈ p.documents t components ↔
      ∃ c ∈ components, ((p.document? t c).map fun text => (p.destination c, text)) = some x := by
  rw [documents, ho]
  exact List.mem_filterMap

theorem documents_singleton (ho : p.config.outFile = none) (t : FileTree) (c : String) :
    p.documents t [c] = ((p.document? t c).map fun text => (p.destination c, text)).toList := by
  rw [documents, ho]
  cases hc : p.document? t c <;> simp [hc]

section LastFile
variable {here : Location} {xs : List (Path × String)} {m : Location}

theorem exists_of_lastFile? {e : Entry} (h : lastFile? here t xs m = some e) :
    ∃ x ∈ xs, landing? here t x.1 = some m ∧ e = .file (.text x.2) := by
  obtain ⟨x, hx, he⟩ := Option.map_eq_some_iff.1 h
  exact ⟨x, List.mem_reverse.1 (List.mem_of_find?_eq_some hx), by simpa using List.find?_some hx, he.symm⟩

theorem lastFile?_eq_none (h : ∀ x ∈ xs, landing? here t x.1 ≠ some m) : lastFile? here t xs m = none := by
  cases hl : lastFile? here t xs m with
  | none => rfl
  | some e =>
    obtain ⟨x, hx, hm, -⟩ := exists_of_lastFile? hl
    exact absurd hm (h x hx)

theorem lastFile?_eq_some {x : Path × String} (hx : x ∈ xs) (hm : landing? here t x.1 = some m)
    (h : ∀ y ∈ xs, landing? here t y.1 = some m → y = x) : lastFile? here t xs m = some (.file (.text x.2)) := by
  cases hl : lastFile? here t xs m with
  | none =>
    have hnone := List.find?_eq_none.1 (Option.map_eq_none_iff.1 hl) x (List.mem_reverse.2 hx)
    simp [hm] at hnone
  | some e =>
    obtain ⟨y, hy, hym, rfl⟩ := exists_of_lastFile? hl
    rw [h y hy hym]

theorem lastFile?_congr (h : ∀ x ∈ xs, landing? here u x.1 = landing? here t x.1) :
    lastFile? here u xs m = lastFile? here t xs m := by
  induction xs using List.reverseRecOn with
  | nil => simp
  | append_singleton xs x ih =>
    rw [lastFile?_concat, lastFile?_concat, h x (by simp), ih fun y hy => h y (List.mem_append_left _ hy)]

/-- Where one text only goes to the file at a place, the others do not count. -/
theorem lastFile?_toList {r : Option (Path × String)} (hsub : ∀ x ∈ r, x ∈ xs)
    (h : ∀ x ∈ xs, landing? here t x.1 = some m → x ∈ r) : lastFile? here t xs m = lastFile? here t r.toList m := by
  cases r with
  | none =>
    rw [Option.toList_none, lastFile?_nil]
    apply lastFile?_eq_none
    intro x hx hm
    cases h x hx hm
  | some x =>
    by_cases hm : landing? here t x.1 = some m
    · rw [Option.toList_some, lastFile?_eq_some (hsub x rfl) hm fun y hy hym => (Option.some.inj (h y hy hym)).symm,
        lastFile?_eq_some (List.mem_singleton_self x) hm fun y hy _ => List.mem_singleton.1 hy]
    · rw [lastFile?_eq_none, lastFile?_eq_none]
      · intro y hy
        rwa [List.mem_singleton.1 hy]
      · intro y hy hym
        rw [← Option.some.inj (h y hy hym)] at hym
        exact hm hym

/-- Only what goes to the file at a place counts for what is written there last. -/
theorem lastFile?_filterMap_congr {α : Type} {members : List α} {f g : α → Option (Path × String)}
    (h : ∀ a ∈ members, f a = g a ∨
      (∀ x ∈ f a, landing? here t x.1 ≠ some m) ∧ ∀ x ∈ g a, landing? here t x.1 ≠ some m) :
    lastFile? here t (members.filterMap f) m = lastFile? here t (members.filterMap g) m := by
  have hskip (xs : List (Path × String)) (r : Option (Path × String)) (hr : ∀ x ∈ r, landing? here t x.1 ≠ some m) :
      lastFile? here t (xs ++ r.toList) m = lastFile? here t xs m := by
    cases r with
    | none => simp
    | some x =>
      rw [Option.toList_some, lastFile?_concat, if_neg (hr x rfl)]
  induction members using List.reverseRecOn with
  | nil => rfl
  | append_singleton members a ih =>
    have hih := ih fun b hb => h b (List.mem_append_left _ hb)
    have hone (f : α → Option (Path × String)) : [a].filterMap f = (f a).toList := by
      cases hf : f a <;> simp [hf]
    rw [List.filterMap_append, List.filterMap_append, hone, hone]
    rcases h a (by simp) with heq | ⟨hf, hg⟩
    · rw [heq]
      cases g a with
      | none => simpa using hih
      | some x => rw [Option.toList_some, lastFile?_concat, lastFile?_concat, hih]
    · rw [hskip _ _ hf, hskip _ _ hg, hih]

end LastFile

/-- A tree is at rest if a run writes to settled paths only, and each file that it writes to holds what is written to it
last. -/
theorem rests_iff (hn : (t.entries.map Prod.fst).Nodup) {components : List String}
    (hd : p.discover t = .ok components) : p.Rests t ↔
      (∀ x ∈ p.documents t components, Settled p.here t x.1) ∧
        ∀ m e, lastFile? p.here t (p.documents t components) m = some e → t.get? m = some e := by
  unfold Rests
  rw [generateAll_tree hd]
  constructor
  · intro h
    have hs := settled_of_inscribe_all hn fun l hl => (h l).trans hl
    refine ⟨hs, fun m e hm => ?_⟩
    rw [← h m, (inscribe_all hn hs).2, hm, Option.some_or]
  · rintro ⟨hs, hfiles⟩ m
    rw [(inscribe_all hn hs).2]
    cases hm : lastFile? p.here t (p.documents t components) m with
    | none => rfl
    | some e => exact (hfiles m e hm).symm

end ComponentDocs.Project
