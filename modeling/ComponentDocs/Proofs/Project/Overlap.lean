import ComponentDocs.Proofs.FileTree.Moved
import ComponentDocs.Proofs.Project.Change
import ComponentDocs.Proofs.Project.Documents
/-! Whether documents are written over the files that people write. A document replaces the file that its path leads
to, whatever that is. Without links this is told by the places that paths name: those of the sources, of the
supplementary files and of the documents. -/
namespace ComponentDocs.Project
open FileTree ComponentDocs.Path

variable {p : Project} {t t' : FileTree}

/-- A path leads to a text as the formatter gave it. -/
def Holds (p : Project) (t : FileTree) (w : Path) : Prop :=
  ∃ l draft formatted, p.formatter draft = .ok formatted ∧ t.find p.here w = .ok (l, .file (.text formatted))

theorem holds_of_write {text : String} {w : Path} (h : (p.write t text w).result = .ok ()) :
    p.Holds (p.write t text w).tree w := by
  obtain ⟨formatted, hf, hw⟩ := write_eq_ok h
  obtain ⟨l, -, hfind, -⟩ := writeFile_eq_ok hw
  exact ⟨l, text, formatted, hf, hfind⟩

theorem holds_of_writeEach {rs : Renderings} {w : Path} (h : w ∈ (p.writeEach rs t).2.written) :
    p.Holds (p.writeEach rs t).1 w := by
  induction rs generalizing t with
  | nil => cases h
  | cons r rest ih =>
    obtain ⟨component, rendered⟩ := r
    cases rendered with
    | error e => exact ih (t := t) h
    | ok text =>
      unfold writeEach at h ⊢
      cases ho : (p.write t text (p.destination component)).result with
      | error e =>
        simp only [ho] at h ⊢
        exact ih h
      | ok _ =>
        simp only [ho] at h ⊢
        rcases List.mem_cons.1 h with rfl | h
        · obtain ⟨l, draft, formatted, hf, hfind⟩ := holds_of_write ho
          rcases find_writeEach rest hfind with ⟨hkept, -⟩ | ⟨last, hkept, _, _, text', _, -, hlast, -⟩
          · exact ⟨l, draft, formatted, hf, hkept⟩
          · exact ⟨l, text', last, hlast, hkept⟩
        · exact ih h

theorem holds_of_generateAll {w : Path} (h : w ∈ (p.generateAll t).written) : p.Holds (p.generateAll t).tree w := by
  unfold generateAll at h ⊢
  cases hd : p.discover t with
  | error e => simp [hd, Outcome.written] at h
  | ok components =>
    rw [hd] at h
    cases hf : p.config.outFile with
    | none =>
      rw [hf] at h
      exact holds_of_writeEach h
    | some file =>
      simp only [hf] at h ⊢
      obtain rfl := mem_written_generateTogether h
      unfold generateTogether at h ⊢
      dsimp only at h ⊢
      split at h
      · simp [Outcome.written] at h
      · next hne =>
        rw [if_neg hne]
        cases ho : (p.write t ("\n\n".intercalate (p.renderings t components).texts) w).result with
        | error e => simp [Outcome.written, Outcome.map, ho, Except.map] at h
        | ok _ => exact holds_of_write ho

theorem holds_of_regenerateFor {path w : Path} (h : w ∈ (p.regenerateFor t path).written) :
    p.Holds (p.regenerateFor t path).tree w := by
  unfold regenerateFor at h ⊢
  split at h
  · simp [Outcome.written] at h
  · simp [Outcome.written] at h
  · next component hc =>
    dsimp only
    split at h
    · next hfile =>
      rw [if_pos hfile]
      exact holds_of_generateAll h
    · next hfile =>
      rw [if_neg hfile]
      cases hg : (p.generate t component).result with
      | error e => simp [Outcome.written, hg] at h
      | ok path =>
        obtain rfl : w = path := by simpa [Outcome.written, hg] using h
        obtain ⟨-, text, -, hwrite, htree⟩ := generate_eq_ok hg
        dsimp only
        rw [htree]
        exact holds_of_write hwrite

theorem holds_of_interleave {components schedule : List String} {w : Path}
    (h : w ∈ ((p.interleave t schedule).report components).written) : p.Holds (p.interleave t schedule).tree w := by
  obtain ⟨c, -, hw⟩ := Cycles.mem_written.1 h
  obtain rfl := List.mem_singleton.1 (p.written_subset_destination t schedule c hw)
  obtain ⟨l, formatted, hfind, _, _, _, -, ⟨_, -, text, -, hf⟩, -⟩ :=
    p.find_of_isWritten t schedule (Cycles.mem_written_destination.1 hw)
  exact ⟨l, text, formatted, hf, hfind⟩

/-- Where a path leads if there are no links. -/
def placeOf (p : Project) (path : Path) : Path := (p.here.path.join path).normalize

/-- What becomes of a file where some paths are written: it keeps its content unless one of them leads to it, and then
it holds what the formatter gave. Without links, a path leads to it that names the same place. -/
structure Becomes (p : Project) (t t' : FileTree) (written : List Path) (file : Path) (content : Content) : Prop where
  kept : (∀ w ∈ written, ¬ t'.SameFile p.here w file) → t'.read p.here file = .ok content
  replaced : ∀ w ∈ written, t'.SameFile p.here w file →
    ∃ draft formatted, p.formatter draft = .ok formatted ∧ t'.read p.here file = .ok (.text formatted)
  place : Plain t → t.get? p.here = some .directory →
    ∀ w ∈ written, t'.SameFile p.here w file ↔ p.placeOf w = p.placeOf file

theorem find_of_read {here : Location} {file : Path} {content : Content} (h : t.read here file = .ok content) :
    ∃ l, t.find here file = .ok (l, .file content) := by
  unfold FileTree.read at h
  cases hf : t.find here file with
  | error e => simp [hf, bind, Except.bind] at h
  | ok found =>
    obtain ⟨l, e⟩ := found
    cases e with
    | directory | link => simp [hf, bind, Except.bind] at h
    | file c =>
      obtain rfl : c = content := by simpa [hf, bind, Except.bind] using h
      exact ⟨l, rfl⟩

theorem read_of_find {here l : Location} {file : Path} {content : Content}
    (h : t.find here file = .ok (l, .file content)) : t.read here file = .ok content := by
  simp [FileTree.read, h, bind, Except.bind]

theorem becomes_of_footprint {written ways : List Path} (h : Footprint p.here t t' written ways)
    (hholds : ∀ w ∈ written, p.Holds t' w) {file : Path} {content : Content}
    (hr : t.read p.here file = .ok content) : p.Becomes t t' written file content := by
  refine ⟨fun hno => ?_, fun w hw hs => ?_, fun ht hhere w hw => ?_⟩
  · rcases h.frame.read_eq hr with hkept | ⟨w, hw, hs⟩
    · exact hkept
    · exact absurd hs (hno w hw)
  · obtain ⟨l, draft, formatted, hf, hfind⟩ := hholds w hw
    exact ⟨draft, formatted, hf, read_of_find (find_eq_of_sameFile hs hfind)⟩
  · obtain ⟨l, draft, formatted, -, hfind⟩ := hholds w hw
    obtain ⟨l', hfile⟩ := find_of_read hr
    obtain ⟨_, hfile⟩ := find_file_of_grows h.grows hfile
    exact (h.unlinked ht.unlinked).sameFile_iff (areNames_of_fits (ht.fits hhere)) hfind hfile

/-- No document is written to the place of a file, so the file stays as it is. -/
theorem Becomes.of_placeOf_ne {written : List Path} {file : Path} {content : Content}
    (h : p.Becomes t t' written file content) (ht : Plain t) (hhere : t.get? p.here = some .directory)
    (hne : ∀ w ∈ written, p.placeOf w ≠ p.placeOf file) : t'.read p.here file = .ok content :=
  h.kept fun w hw hs => hne w hw ((h.place ht hhere w hw).1 hs)

theorem placeOf_join {base : Path} {l names : Location} (hl : AreNames l) (h : p.placeOf base = l.path)
    (hnames : AreNames names) : p.placeOf (base.join (ofNames names)) = Location.path (l ++ names) :=
  normalize_from_append (Location.isAbsolute_path p.here) hl h (segments_join_ofNames base hnames)

theorem exists_placeOf (p : Project) (path : Path) : ∃ l, AreNames l ∧ p.placeOf path = Location.path l :=
  exists_place_from (Location.isAbsolute_path p.here) path

theorem placeOf_withExtension {q : Path} {l : Location} (hl : AreNames l) (h : p.placeOf q = l.path) :
    ∃ l', AreNames l' ∧ p.placeOf (q.withExtension Config.markdown) = Location.path l' ∧ l'.length = l.length ∧
      l'.dropLast = l.dropLast := by
  obtain ⟨l', hl', h'⟩ := p.exists_placeOf (q.withExtension Config.markdown)
  refine ⟨l', hl', h', ?_⟩
  have hbase := Location.isAbsolute_path p.here
  by_cases hname : ∃ s n, q.segments = s ++ [.name n]
  · obtain ⟨s, n, hs⟩ := hname
    have hs' : (q.withExtension Config.markdown).segments = s ++ [.name (retitle Config.markdown n)] :=
      segments_withExtension (by decide) (by decide) hs
    have habs : (q.withExtension Config.markdown).isAbsolute = q.isAbsolute := by
      rw [Bool.eq_iff_iff, isAbsolute_iff_head?, isAbsolute_iff_head?, hs, hs']
      cases s <;> simp
    have hp := passed_of_normalize hl h
    have hp' := passed_of_normalize hl' h'
    rw [passed_from hbase, hs, List.foldl_append] at hp
    rw [passed_from hbase, habs, hs', List.foldl_append] at hp'
    simp only [List.foldl_cons, List.foldl_nil, climb] at hp hp'
    have hne : l ≠ [] := by
      rintro rfl
      simp at hp
    have hne' : l' ≠ [] := by
      rintro rfl
      simp at hp'
    obtain ⟨front, last, rfl⟩ := exists_eq_append hne
    obtain ⟨front', last', rfl⟩ := exists_eq_append hne'
    simp only [List.map_append, List.map_cons, List.map_nil, List.reverse_append, List.reverse_cons,
      List.reverse_nil, List.nil_append, List.singleton_append, List.cons.injEq] at hp hp'
    obtain rfl : front' = front :=
      List.map_injective_iff.2 (fun _ _ h => Segment.name.inj h) (List.reverse_injective (hp'.2.symm.trans hp.2))
    simp
  · push Not at hname
    rw [withExtension_of_not_name hname, h] at h'
    obtain rfl := (Location.same_path_iff hl hl').1 (same_iff.2 (congrArg segments h'))
    exact ⟨rfl, rfl⟩

/-- By the default rules, documents are written apart from the components: neither of the directories is inside the
other, or the one file is not inside that of the components. -/
structure KeepsApart (p : Project) : Prop where
  supplement : p.config.supplement = Config.defaultSupplement
  destination : p.config.destination = Config.defaultDestination
  absolute : p.config.componentsDir.isAbsolute = true
  each : p.config.outFile = none →
    (p.placeOf p.config.outDir).startsWith (p.placeOf p.config.componentsDir) = false ∧
      (p.placeOf p.config.componentsDir).startsWith (p.placeOf p.config.outDir) = false
  together : ∀ file ∈ p.config.outFile, (p.placeOf file).startsWith (p.placeOf p.config.componentsDir) = false

/-- By the default rules, the files that are written by hand for a component lie inside the directory of the
components. -/
theorem prefix_of_mem_inputs (h : p.KeepsApart) {source names : Location} (hsource : AreNames source)
    (hs : p.placeOf p.config.componentsDir = source.path) (hnames : AreNames names) (hne : names ≠ []) {file : Path}
    (hf : file ∈ p.inputs (componentAt names)) :
    ∃ l, AreNames l ∧ p.placeOf file = Location.path l ∧ source <+: l.dropLast := by
  have hplace := placeOf_join hsource hs hnames
  have hprefix : source <+: (source ++ names).dropLast := by
    rw [List.dropLast_append_of_ne_nil hne]
    exact List.prefix_append _ _
  rw [inputs, ofString_componentAt] at hf
  rcases List.mem_cons.1 hf with rfl | hf
  · exact ⟨_, hsource.append hnames, hplace, hprefix⟩
  · rw [h.supplement] at hf
    obtain rfl := List.mem_singleton.1 hf
    have habs := isAbsolute_join_left h.absolute (ofNames names)
    have hnormal : p.placeOf (p.config.componentsDir.join (ofNames names)).normalize = (source ++ names).path := by
      rw [placeOf, join_absolute _ (isAbsolute_normalize habs), normalize_normalize, ← hplace, placeOf,
        join_absolute _ habs]
    obtain ⟨l, hl, hl', -, hdrop⟩ := placeOf_withExtension (hsource.append hnames) hnormal
    exact ⟨l, hl, hl', hdrop ▸ hprefix⟩

/-- Where documents are written apart, none is written to the place of an input. -/
theorem KeepsApart.placeOf_ne (h : p.KeepsApart) {names : Location} (hnames : AreNames names) (hne : names ≠ [])
    {file : Path} (hf : file ∈ p.inputs (componentAt names)) {components : List String}
    (hnamed : ∀ c ∈ components, ∃ others, AreNames others ∧ c = componentAt others) {w : Path}
    (hw : w ∈ p.targets components) : p.placeOf w ≠ p.placeOf file := by
  obtain ⟨source, hsource, hs⟩ := p.exists_placeOf p.config.componentsDir
  obtain ⟨l, hl, hplace, hinside⟩ := prefix_of_mem_inputs h hsource hs hnames hne hf
  rw [hplace]
  intro hwl
  unfold targets at hw
  cases hfile : p.config.outFile with
  | some one =>
    rw [hfile] at hw
    obtain rfl := List.mem_singleton.1 hw
    have hout := h.together w hfile
    rw [hs, hwl, ← Bool.not_eq_true, Location.startsWith_path_iff hl hsource] at hout
    exact hout (hinside.trans (List.dropLast_prefix l))
  | none =>
    rw [hfile] at hw
    obtain ⟨c, hc, rfl⟩ := List.mem_map.1 hw
    obtain ⟨others, hothers, rfl⟩ := hnamed c hc
    obtain ⟨docs, hdocs, hd⟩ := p.exists_placeOf p.config.outDir
    obtain ⟨hin, hout⟩ := h.each hfile
    rw [hs, hd, ← Bool.not_eq_true, Location.startsWith_path_iff hdocs hsource] at hin
    rw [hs, hd, ← Bool.not_eq_true, Location.startsWith_path_iff hsource hdocs] at hout
    obtain ⟨l', hl', hwl', -, hdrop⟩ := placeOf_withExtension (hdocs.append hothers) (placeOf_join hdocs hd hothers)
    rw [destination_componentAt h.destination, hwl'] at hwl
    obtain rfl := (Location.same_path_iff hl' hl).1 (same_iff.2 (congrArg segments hwl))
    rcases List.prefix_or_prefix_of_prefix (List.prefix_append docs others)
      ((hdrop ▸ hinside).trans (List.dropLast_prefix _)) with habove | habove
    · exact hout habove
    · exact hin habove

/-- A path without steps up concerns a component that is named by what follows the directory of the components. -/
theorem exists_names_of_namedComponent? (habs : p.config.componentsDir.isAbsolute = true) {path : Path}
    (hup : .up ∉ path.segments) {c : String} (h : p.namedComponent? path = some c) :
    ∃ names, AreNames names ∧ c = componentAt names := by
  unfold namedComponent? at h
  split at h
  · next rest hrest =>
    split at h
    · have hne : p.config.componentsDir.segments ≠ [] := by
        intro hnil
        rw [isAbsolute_iff_head?, hnil] at habs
        cases habs
      have hsegments := segments_of_stripPrefix? hne hrest
      have hdown : ∀ s ∈ rest.steps, IsDown s := fun s hs =>
        (isStep_of_mem_steps hs).resolve_left (by
          rintro rfl
          exact hup (hsegments ▸ List.mem_append_right _ hs))
      obtain ⟨names, hnames, hsteps⟩ := exists_names_of_isDown hdown
      refine ⟨names, hnames, ?_⟩
      rw [← Option.some.inj h, key, segments_eq_steps, hsteps]
      cases rest.lead <;> simp [Lead.segments, componentAt, List.filterMap_map]
    · cases h
  · cases h

theorem exists_names_of_discover (ht : t.WellFormed) {components : List String} (hd : p.discover t = .ok components)
    (hdir : t.isDirectory p.here p.config.componentsDir = true) :
    ∀ c ∈ components, ∃ names, AreNames names ∧ names ≠ [] ∧ c = componentAt names := by
  intro c hc
  obtain ⟨names, hfound, rfl⟩ := (mem_discover_iff ht hd).1 hc
  obtain ⟨x, hx⟩ := exists?_iff.1 (exists?_of_discover hd)
  exact ⟨names, hfound.reaches.areNames, (hfound.ne_nil_iff hx).2 hdir, rfl⟩

/-- What is written by hand stays as it is, but for a file that the path of a document leads to. Such a file is
replaced like any other. Without links these are the files at whose place a document is written, so that all stay
where documents are written apart from the components. The same holds while documents are generated side by side. -/
theorem inputs_kept_unless_targets (p : Project) (t : FileTree) :
    ∀ components, p.discover t = .ok components → ∀ component ∈ components, ∀ file ∈ p.inputs component,
      ∀ content, t.read p.here file = .ok content →
        (p.Becomes t (p.generateAll t).tree (p.generateAll t).written file content ∧
          (p.generateAll t).written ⊆ p.targets components) ∧
        (∀ path, p.Becomes t (p.regenerateFor t path).tree (p.regenerateFor t path).written file content ∧
          ∀ w ∈ (p.regenerateFor t path).written,
            ∃ changed, p.componentFor t path = .ok (some changed) ∧ w ∈ p.targets [changed]) ∧
        (∀ schedule, schedule ⊆ components →
          p.Becomes t (p.interleave t schedule).tree ((p.interleave t schedule).report components).written file
              content ∧
            ((p.interleave t schedule).report components).written ⊆ components.map p.destination) ∧
        (p.KeepsApart → Plain t → t.get? p.here = some .directory →
          t.isDirectory p.here p.config.componentsDir = true →
          (p.generateAll t).tree.read p.here file = .ok content ∧
          (∀ path, .up ∉ path.segments → (p.regenerateFor t path).tree.read p.here file = .ok content) ∧
          (p.config.outFile = none → ∀ schedule, schedule ⊆ components →
            (p.interleave t schedule).tree.read p.here file = .ok content)) := by
  intro components hd component hc file hfile content hr
  have hall : p.Becomes t (p.generateAll t).tree (p.generateAll t).written file content :=
    becomes_of_footprint (p.generateAll_footprint t) (fun _ => holds_of_generateAll) hr
  have hone (path : Path) : p.Becomes t (p.regenerateFor t path).tree (p.regenerateFor t path).written file content :=
    becomes_of_footprint (p.regenerateFor_footprint t path) (fun _ => holds_of_regenerateFor) hr
  have hside {schedule : List String} (hm : schedule ⊆ components) :
      p.Becomes t (p.interleave t schedule).tree ((p.interleave t schedule).report components).written file content :=
    becomes_of_footprint (p.interleave_footprint t hm) (fun _ => holds_of_interleave) hr
  have hdestinations (schedule : List String) :
      ((p.interleave t schedule).report components).written ⊆ components.map p.destination := by
    intro w hw
    obtain ⟨c, hc, rfl⟩ := mem_written_interleave hw
    exact List.mem_map_of_mem hc
  refine ⟨⟨hall, fun w => mem_targets_of_generateAll hd⟩, fun path => ⟨hone path, fun w => mem_targets_of_regenerateFor⟩,
    fun schedule hm => ⟨hside hm, hdestinations schedule⟩, fun h ht hhere hdir => ?_⟩
  have hnamed := exists_names_of_discover ht.toWellFormed hd hdir
  obtain ⟨names, hnames, hnil, rfl⟩ := hnamed component hc
  have hne {others : List String} (hothers : ∀ c ∈ others, ∃ names, AreNames names ∧ c = componentAt names) {w : Path}
      (hw : w ∈ p.targets others) : p.placeOf w ≠ p.placeOf file :=
    h.placeOf_ne hnames hnil hfile hothers hw
  have hfound : ∀ c ∈ components, ∃ names, AreNames names ∧ c = componentAt names := by
    intro c hc
    obtain ⟨names, hnames, -, hname⟩ := hnamed c hc
    exact ⟨names, hnames, hname⟩
  refine ⟨?_, fun path hup => ?_, fun hf schedule hm => ?_⟩
  · exact hall.of_placeOf_ne ht hhere fun w hw => hne hfound (mem_targets_of_generateAll hd hw)
  · refine (hone path).of_placeOf_ne ht hhere fun w hw => ?_
    obtain ⟨changed, hpath, htarget⟩ := mem_targets_of_regenerateFor hw
    refine hne (fun c hc => ?_) htarget
    obtain rfl := List.mem_singleton.1 hc
    rcases componentFor_cases hpath with hby | ⟨-, components', hd', hc'⟩
    · exact exists_names_of_namedComponent? h.absolute hup hby
    · rw [hd] at hd'
      cases hd'
      exact hfound c hc'
  · refine (hside hm).of_placeOf_ne ht hhere fun w hw => hne hfound ?_
    rw [targets, hf]
    exact hdestinations schedule hw

theorem inputs_kept_unless_targets_sample :
    let p := siteProject (siteConfig "src" "/w/docs" "*.vue")
    let t := siteTree [(["src"], .directory), (["src", "A.vue"], .file (.text "")),
      (["src", "A.md"], .file (.text "By hand.\n"))]
    let file := Path.ofString "/w/src/A.md"
    let schedule := ["A.vue", "A.vue", "A.vue", "A.vue"]
    p.KeepsApart ∧ (p.generateAll t).written = [.ofString "/w/docs/A.md"] ∧
      (p.regenerateFor t file).written = [.ofString "/w/docs/A.md"] ∧
      (p.generateAll t).tree.read p.here file = .ok (.text "By hand.\n") ∧
      (p.regenerateFor t file).tree.read p.here file = .ok (.text "By hand.\n") ∧
      (p.interleave t schedule).tree.read p.here file = .ok (.text "By hand.\n") := by
  intro p t file schedule
  have hd : p.discover t = .ok ["A.vue"] := by decide +kernel
  have hapart : p.KeepsApart := ⟨rfl, rfl, by decide +kernel, fun _ => by decide +kernel, fun _ h => nomatch h⟩
  obtain ⟨hall, hone, hside⟩ := (inputs_kept_unless_targets p t ["A.vue"] hd "A.vue" (by simp) file (by decide +kernel)
    (.text "By hand.\n") (by decide +kernel)).2.2.2 hapart (plain_of_isPlain (by decide +kernel)) rfl
    (by decide +kernel)
  exact ⟨hapart, by decide +kernel, by decide +kernel, hall, hone file (by decide +kernel),
    hside rfl schedule (by simp [schedule])⟩

/-- A directory with the documents in the directory itself. -/
def inPlaceTree : FileTree :=
  sampleTree.set [['w'], "docgen.config.toml".toList] (.file (.text "out_dir = \".\"\n"))

def inPlaceProject : Project := (inDirectory? inPlaceTree [['w']]).get (by decide +kernel)

theorem input_replaced_in_place :
    inDirectory? inPlaceTree [['w']] = some inPlaceProject ∧
    inPlaceProject.discover inPlaceTree = .ok ["A.vue"] ∧
    .ofString "/w/A.md" ∈ inPlaceProject.inputs "A.vue" ∧
    inPlaceTree.read inPlaceProject.here (.ofString "/w/A.md") = .ok (.text "By hand.\n") ∧
    (inPlaceProject.generateAll inPlaceTree).tree.read inPlaceProject.here (.ofString "/w/A.md") =
      .ok (.text "# A\n\nSource: `A.vue`\n\nBy hand.\n") :=
  ⟨(Option.some_get _).symm, by decide +kernel⟩

end ComponentDocs.Project
