import ComponentDocs.Proofs.Project.LastWrite
/-! What the documents of a run hold afterwards. Components are written one after the other, so that
of several with the same destination the last one stays, in whatever order they come to be written. -/
namespace ComponentDocs.Project
open FileTree

theorem writeEach_append (p : Project) (rs rs' : Renderings) (t : FileTree) :
    p.writeEach (rs ++ rs') t =
      ((p.writeEach rs' (p.writeEach rs t).1).1,
        { written := (p.writeEach rs t).2.written ++ (p.writeEach rs' (p.writeEach rs t).1).2.written
          failures := (p.writeEach rs t).2.failures ++ (p.writeEach rs' (p.writeEach rs t).1).2.failures }) := by
  induction rs generalizing t with
  | nil => rfl
  | cons r rest ih =>
    obtain ⟨component, rendered⟩ := r
    cases rendered with
    | error e => simp [writeEach, ih, Report.withFailure]
    | ok text =>
      simp only [List.cons_append, writeEach, ih]
      split <;> rfl

/-- None of some components was written to a file: those that lead there have failed. -/
def NoneWritten (p : Project) (t : FileTree) (report : Report) (file : Path) (rs : Renderings) : Prop :=
  ∀ r ∈ rs, t.SameFile p.here (p.destination r.1) file → ∃ e, (r.1, e) ∈ report.failures

/-- The last of some components that was written to a file has this document. -/
def LastWritten (p : Project) (t : FileTree) (report : Report) (file : Path) (rs : Renderings)
    (formatted : String) : Prop :=
  ∃ front component text back, rs = front ++ (component, .ok text) :: back ∧
    p.formatter text = .ok formatted ∧ p.destination component ∈ report.written ∧
    t.SameFile p.here (p.destination component) file ∧ NoneWritten p t report file back

theorem NoneWritten.cons {p : Project} {t : FileTree} {report : Report} {file : Path} {rs : Renderings}
    {r : String × Except Error String}
    (hr : t.SameFile p.here (p.destination r.1) file → ∃ e, (r.1, e) ∈ report.failures)
    (h : NoneWritten p t report file rs) : NoneWritten p t report file (r :: rs) := by
  intro x hx hl
  rcases List.mem_cons.1 hx with rfl | hx
  · exact hr hl
  · exact h x hx hl

theorem NoneWritten.mono {p : Project} {t : FileTree} {report : Report} {file : Path} {rs : Renderings}
    (h : NoneWritten p t report file rs) (component : String) (e : Error) :
    NoneWritten p t (report.withFailure component e) file rs := by
  intro x hx hl
  obtain ⟨e', he⟩ := h x hx hl
  exact ⟨e', List.mem_cons_of_mem _ he⟩

theorem NoneWritten.withFailure {p : Project} {t : FileTree} {report : Report} {file : Path}
    {rs : Renderings} (h : NoneWritten p t report file rs) (component : String) (e : Error)
    {rendered : Except Error String} :
    NoneWritten p t (report.withFailure component e) file ((component, rendered) :: rs) :=
  .cons (fun _ => ⟨e, List.mem_cons_self⟩) (h.mono component e)

theorem LastWritten.withFailure {p : Project} {t : FileTree} {report : Report} {file : Path}
    {rs : Renderings} {formatted : String} (h : LastWritten p t report file rs formatted)
    (component : String) (e : Error) {rendered : Except Error String} :
    LastWritten p t (report.withFailure component e) file ((component, rendered) :: rs) formatted := by
  obtain ⟨front, c, text, back, rfl, hf, hm, hl, hb⟩ := h
  exact ⟨_ :: front, c, text, back, rfl, hf, hm, hl, hb.mono component e⟩

theorem LastWritten.withFile {p : Project} {t : FileTree} {report : Report} {file : Path} {rs : Renderings}
    {formatted : String} (h : LastWritten p t report file rs formatted) (path : Path)
    (r : String × Except Error String) : LastWritten p t (report.withFile path) file (r :: rs) formatted := by
  obtain ⟨front, c, text, back, rfl, hf, hm, hl, hb⟩ := h
  exact ⟨r :: front, c, text, back, rfl, hf, List.mem_cons_of_mem _ hm, hl, hb⟩

theorem find_write {p : Project} {t : FileTree} {file : Path} {l : Location} {content : Content}
    (hf : t.find p.here file = .ok (l, .file content)) (text : String) (path : Path) :
    ((p.write t text path).tree.find p.here file = .ok (l, .file content) ∧
      ((p.write t text path).result = .ok () →
        ∀ t', Grows (p.write t text path).tree t' → ¬ t'.SameFile p.here path file)) ∨
    ∃ formatted, p.formatter text = .ok formatted ∧ (p.write t text path).result = .ok () ∧
      (p.write t text path).tree.find p.here file = .ok (l, .file (.text formatted)) ∧
      (p.write t text path).tree.SameFile p.here path file := by
  cases ho : (p.write t text path).result with
  | error e =>
    have ha := write_eq_error ho
    exact .inl ⟨find_of_fileAt?_eq ha.grows hf (ha.fileAt?_eq l), by simp⟩
  | ok _ =>
    obtain ⟨formatted, hfm, hw⟩ := write_eq_ok ho
    obtain ⟨l', hg, hd, hkept⟩ := writeFile_eq_ok hw
    by_cases heq : l' = l
    · subst heq
      obtain ⟨c, hc⟩ := find_file_of_grows hg hf
      have hs := sameFile_of_find hd hc
      exact .inr ⟨formatted, hfm, rfl, find_eq_of_sameFile hs hd, hs⟩
    · have hk := find_of_fileAt?_eq hg hf (hkept l (Ne.symm heq))
      refine .inl ⟨hk, fun _ t' hg' hs => ?_⟩
      obtain ⟨_, hd'⟩ := find_file_of_grows hg' hd
      obtain ⟨_, hk'⟩ := find_file_of_grows hg' hk
      exact heq ((sameFile_iff_of_find hd' hk').1 hs)

/-- A file keeps its content until a component is written to it, and then holds the last document. -/
theorem find_writeEach {p : Project} (rs : Renderings) {t : FileTree} {file : Path} {l : Location}
    {content : Content} (hf : t.find p.here file = .ok (l, .file content)) :
    ((p.writeEach rs t).1.find p.here file = .ok (l, .file content) ∧
      NoneWritten p (p.writeEach rs t).1 (p.writeEach rs t).2 file rs) ∨
    ∃ formatted, (p.writeEach rs t).1.find p.here file = .ok (l, .file (.text formatted)) ∧
      LastWritten p (p.writeEach rs t).1 (p.writeEach rs t).2 file rs formatted := by
  induction rs generalizing t content with
  | nil => exact .inl ⟨hf, by simp [NoneWritten]⟩
  | cons r rest ih =>
    obtain ⟨component, rendered⟩ := r
    cases rendered with
    | error e =>
      rcases ih hf with ⟨hk, hn⟩ | ⟨formatted, hk, hl⟩
      · exact .inl ⟨hk, hn.withFailure component e⟩
      · exact .inr ⟨formatted, hk, hl.withFailure component e⟩
    | ok text =>
      have hg := (writeEach_footprint p rest (p.write t text (p.destination component)).tree).grows
      rcases find_write hf text (p.destination component) with ⟨hk, hne⟩ | ⟨formatted, hfm, ho, hk, hs⟩
      · cases ho : (p.write t text (p.destination component)).result with
        | error e =>
          simp only [writeEach, ho]
          rcases ih hk with ⟨hk, hn⟩ | ⟨formatted, hk, hl⟩
          · exact .inl ⟨hk, hn.withFailure component e⟩
          · exact .inr ⟨formatted, hk, hl.withFailure component e⟩
        | ok _ =>
          simp only [writeEach, ho]
          rcases ih hk with ⟨hk, hn⟩ | ⟨formatted, hk, hl⟩
          · exact .inl ⟨hk, .cons (fun hs => absurd hs (hne ho _ hg)) hn⟩
          · exact .inr ⟨formatted, hk, hl.withFile _ _⟩
      · simp only [writeEach, ho]
        refine .inr ?_
        rcases ih hk with ⟨hk, hn⟩ | ⟨last, hk, hl⟩
        · exact ⟨formatted, hk, [], component, text, rest, rfl, hfm, List.mem_cons_self, hs.of_grows hg, hn⟩
        · exact ⟨last, hk, hl.withFile _ _⟩

theorem mem_renderings {p : Project} {t : FileTree} {components : List String} {component text : String}
    (h : (component, Except.ok text) ∈ p.renderings t components) : (p.render t component).result = .ok text := by
  obtain ⟨c, -, he⟩ := List.mem_map.1 h
  obtain ⟨rfl, hr⟩ := Prod.mk.inj he
  exact hr

theorem LastWritten.split {p : Project} {t t' : FileTree} {report : Report} {file : Path}
    {components : List String} {formatted : String}
    (h : LastWritten p t' report file (p.renderings t components) formatted) :
    ∃ front last back, components = front ++ last :: back ∧ p.IsDocument t last formatted ∧
      p.destination last ∈ report.written ∧ t'.SameFile p.here (p.destination last) file ∧
      ∀ later ∈ back, t'.SameFile p.here (p.destination later) file → ∃ e, (later, e) ∈ report.failures := by
  obtain ⟨front, last, text, back, hrs, hf, hm, hl, hb⟩ := h
  have hr := mem_renderings (hrs ▸ List.mem_append_right front List.mem_cons_self)
  obtain ⟨cs, cs', rfl, -, hcs'⟩ := List.map_eq_append_iff.1 hrs
  obtain ⟨c, back', rfl, hc, hback⟩ := List.map_eq_cons_iff.1 hcs'
  obtain rfl := (Prod.mk.inj hc).1
  refine ⟨cs, c, back', rfl, ⟨text, hr, hf⟩, hm, hl, fun later hl' hs => ?_⟩
  exact hb (later, (p.render t later).result) (hback ▸ List.mem_map_of_mem hl') hs

theorem writeEach_document {p : Project} {t t₀ : FileTree} {component : String} {after : List String}
    (hf : ∀ e, (component, e) ∉ (p.writeEach (p.renderings t (component :: after)) t₀).2.failures) :
    let t' := (p.writeEach (p.renderings t (component :: after)) t₀).1
    let report := (p.writeEach (p.renderings t (component :: after)) t₀).2
    (∃ formatted, p.IsDocument t component formatted ∧
      t'.readText p.here (p.destination component) = .ok formatted) ∨
    ∃ formatted, t'.readText p.here (p.destination component) = .ok formatted ∧
      LastWritten p t' report (p.destination component) (p.renderings t after) formatted := by
  simp only [renderings, List.map_cons] at hf ⊢
  cases hr : (p.render t component).result with
  | error e => exact absurd List.mem_cons_self (hr ▸ hf e)
  | ok text =>
    simp only [hr, writeEach] at hf ⊢
    cases ho : (p.write t₀ text (p.destination component)).result with
    | error e =>
      rw [ho] at hf
      exact absurd List.mem_cons_self (hf e)
    | ok _ =>
      obtain ⟨formatted, hfm, hw⟩ := write_eq_ok ho
      obtain ⟨l, -, hd, -⟩ := writeFile_eq_ok hw
      simp only
      rcases find_writeEach (p.renderings t after) hd with ⟨hk, -⟩ | ⟨last, hk, hl⟩
      · exact .inl ⟨formatted, ⟨text, hr, hfm⟩, readText_of_find hk⟩
      · obtain ⟨front, c, text, back, hrs, hfm, hm, hl, hb⟩ := hl
        exact .inr ⟨last, readText_of_find hk, front, c, text, back, hrs, hfm, List.mem_cons_of_mem _ hm, hl, hb⟩

/-- What is in the destination of a component that has not failed, by the components that come after it. -/
theorem generateAll_document {p : Project} {t : FileTree} (ho : p.config.outFile = none)
    {before after : List String} {component : String} (hd : p.discover t = .ok (before ++ component :: after))
    {report : Report} (hr : (p.generateAll t).result = .ok report) (hf : ∀ e, (component, e) ∉ report.failures) :
    (∃ formatted, p.IsDocument t component formatted ∧
      (p.generateAll t).tree.readText p.here (p.destination component) = .ok formatted) ∨
    ∃ front last back formatted, after = front ++ last :: back ∧ p.IsDocument t last formatted ∧
      (p.generateAll t).tree.readText p.here (p.destination component) = .ok formatted ∧
      p.destination last ∈ report.written ∧
      (p.generateAll t).tree.SameFile p.here (p.destination last) (p.destination component) ∧
      ∀ later ∈ back, (p.generateAll t).tree.SameFile p.here (p.destination later) (p.destination component) →
        ∃ e, (later, e) ∈ report.failures := by
  simp only [generateAll, hd, ho, generateEach, Except.ok.injEq] at hr ⊢
  subst hr
  have hs : p.renderings t (before ++ component :: after) =
      p.renderings t before ++ p.renderings t (component :: after) := List.map_append
  rw [hs, writeEach_append] at hf ⊢
  simp only [List.mem_append, not_or] at hf ⊢
  rcases writeEach_document fun e => (hf e).2 with h | ⟨formatted, hread, hl⟩
  · exact .inl h
  · obtain ⟨front, last, back, he, hdoc, hm, hsame, hb⟩ := hl.split
    refine .inr ⟨front, last, back, formatted, he, hdoc, hread, .inr hm, hsame, fun later hlater hs => ?_⟩
    obtain ⟨e, he⟩ := hb later hlater hs
    exact ⟨e, .inr he⟩

/-- Each document is in its destination afterwards, unless the destination of a later component
leads to the same file. Then the document of the last such component is there. When the documents are
generated side by side, the last is the one that was the last to be written, by the files as it found them. -/
theorem document_written_or_superseded (p : Project) (t : FileTree) (ho : p.config.outFile = none)
    {components : List String} (hd : p.discover t = .ok components) :
    (∀ report, (p.generateAll t).result = .ok report → ∀ before component after,
      components = before ++ component :: after → (∀ e, (component, e) ∉ report.failures) →
      (∃ formatted, p.IsDocument t component formatted ∧
        (p.generateAll t).tree.readText p.here (p.destination component) = .ok formatted) ∨
      ∃ front last back formatted, after = front ++ last :: back ∧ p.IsDocument t last formatted ∧
        (p.generateAll t).tree.readText p.here (p.destination component) = .ok formatted ∧
        p.destination last ∈ report.written ∧
        (p.generateAll t).tree.SameFile p.here (p.destination last) (p.destination component) ∧
        ∀ later ∈ back, (p.generateAll t).tree.SameFile p.here (p.destination later) (p.destination component) →
          ∃ e, (later, e) ∈ report.failures) ∧
    ∀ schedule, schedule ⊆ components → (p.interleave t schedule).Finished components →
      ∀ component ∈ components, (∀ e, (component, e) ∉ ((p.interleave t schedule).report components).failures) →
      ∃ front last back formatted, schedule = front ++ last :: back ∧ p.IsDocumentWithin t front last formatted ∧
        (p.interleave t schedule).tree.readText p.here (p.destination component) = .ok formatted ∧
        ¬ (p.interleave t front).IsWritten p last ∧
        p.destination last ∈ ((p.interleave t schedule).report components).written ∧
        (p.interleave t schedule).tree.SameFile p.here (p.destination last) (p.destination component) ∧
        ∀ other ∈ components,
          (p.interleave t schedule).tree.SameFile p.here (p.destination other) (p.destination component) →
          (∃ e, (other, e) ∈ ((p.interleave t schedule).report components).failures) ∨
            (p.interleave t (front ++ [last])).IsWritten p other := by
  refine ⟨fun report hr before component after hc hf => ?_, fun schedule hm hend component hc hf => ?_⟩
  · subst hc
    exact generateAll_document ho hd hr hf
  · exact interleave_document hm hend hc hf

/-- A directory with two components of the same stem. -/
def twinTree : FileTree :=
  ⟨[([['w']], .directory), ([['w'], "A.tsx".toList], .file (.text "")),
    ([['w'], "A.vue".toList], .file (.text ""))]⟩

def twinProject : Project := (inDirectory? twinTree [['w']]).get (by decide +kernel)

theorem outFile_twin : twinProject.config.outFile = none := by decide +kernel

theorem discover_twin : twinProject.discover twinTree = .ok ["A.tsx", "A.vue"] := by
  have hf : twinTree.filesBelow twinProject.here twinProject.config.componentsDir isSkipped =
      .ok [["A.tsx".toList], ["A.vue".toList]] := by decide +kernel
  exact discover_of_pairwise hf (by decide +kernel) (by decide)

theorem generateAll_twin :
    twinProject.generateAll twinTree = twinProject.generateEach twinTree ["A.tsx", "A.vue"] :=
  generateAll_eq_generateEach outFile_twin discover_twin

theorem failures_twin : ∃ report, (twinProject.generateAll twinTree).result = .ok report ∧
    report.failures = [] := by
  rw [generateAll_twin]
  exact ⟨_, generateEach_result _ _ _, by decide +kernel⟩

/-- The first of the two is written last. -/
theorem document_written_or_superseded_twin :
    let s := twinProject.interleave twinTree
      ["A.tsx", "A.vue", "A.vue", "A.tsx", "A.vue", "A.vue", "A.tsx", "A.tsx"]
    (∃ formatted, twinProject.IsDocument twinTree "A.vue" formatted ∧
      (twinProject.generateAll twinTree).tree.readText twinProject.here (twinProject.destination "A.vue") =
        .ok formatted) ∧
    ∃ front last back,
      ["A.tsx", "A.vue", "A.vue", "A.tsx", "A.vue", "A.vue", "A.tsx", "A.tsx"] = front ++ last :: back ∧
      twinProject.IsDocumentWithin twinTree front last "# A\n\nSource: `A.tsx`\n" ∧
      s.tree.readText twinProject.here (twinProject.destination "A.vue") = .ok "# A\n\nSource: `A.tsx`\n" := by
  intro s
  obtain ⟨hall, hside⟩ := document_written_or_superseded twinProject twinTree outFile_twin discover_twin
  constructor
  · obtain ⟨report, hr, hf⟩ := failures_twin
    rcases hall report hr ["A.tsx"] "A.vue" [] rfl (by simp [hf]) with h | h
    · exact h
    · simp at h
  · obtain ⟨hend, hfailures, htext⟩ : s.Finished ["A.tsx", "A.vue"] ∧ (s.report ["A.tsx", "A.vue"]).failures = [] ∧
        s.tree.readText twinProject.here (twinProject.destination "A.vue") = .ok "# A\n\nSource: `A.tsx`\n" := by
      decide +kernel
    obtain ⟨front, last, back, formatted, hs, hdoc, hread, -⟩ :=
      hside _ (by decide) hend "A.vue" (by simp) (by simp [s, hfailures])
    obtain rfl := Except.ok.inj (hread.symm.trans htext)
    exact ⟨front, last, back, hs, hdoc, hread⟩

theorem document_superseded_twin :
    inDirectory? twinTree [['w']] = some twinProject ∧ twinProject.config.outFile = none ∧
    twinProject.discover twinTree = .ok ["A.tsx", "A.vue"] ∧
    (∃ report, (twinProject.generateAll twinTree).result = .ok report ∧ report.failures = []) ∧
    twinProject.IsDocument twinTree "A.tsx" "# A\n\nSource: `A.tsx`\n" ∧
    (twinProject.generateAll twinTree).tree.readText twinProject.here (twinProject.destination "A.tsx") =
      .ok "# A\n\nSource: `A.vue`\n" := by
  refine ⟨(Option.some_get _).symm, outFile_twin, discover_twin, failures_twin,
    ⟨"# A\n\nSource: `A.tsx`\n", by decide +kernel⟩, ?_⟩
  rw [generateAll_twin]
  decide +kernel

/-! Where documents are written. Each has a file of its own below the directory of the documents, with one
exception: a directory of the components that is a file itself. Its component has no name, so its document takes
the name of the directory of the documents. -/

open FileTree ComponentDocs.Path

/-- A path leads down from a directory by names alone, and the last name has the extension of documents. -/
structure IsDocumentBelow (dir path : Path) : Prop where
  exists_names : ∃ names last, AreNames (names ++ [last]) ∧ path.segments = dir.segments ++ (names ++ [last]).map .name ∧
    '.' :: Config.markdown.toList <:+ last

theorem not_isDocumentBelow {dir path : Path} (h : path.segments.length = dir.segments.length) :
    ¬ IsDocumentBelow dir path := by
  rintro ⟨names, last, -, hsegments, -⟩
  rw [hsegments] at h
  simp at h

section Destination
variable {p : Project} (hdest : p.config.destination = Config.defaultDestination)
include hdest

theorem destination_componentAt (names : List (List Char)) :
    p.destination (componentAt names) = (p.config.outDir.join (ofNames names)).withExtension Config.markdown := by
  rw [destination, Config.destFile, hdest, ofString_componentAt]
  rfl

theorem isDocumentBelow_destination {names : List (List Char)} (h : AreNames names) (hne : names ≠ []) :
    IsDocumentBelow p.config.outDir (p.destination (componentAt names)) := by
  obtain ⟨front, n, rfl⟩ := exists_eq_append hne
  have hjoined : (p.config.outDir.join (ofNames (front ++ [n]))).segments =
      (p.config.outDir.segments ++ front.map .name) ++ [.name n] := by
    rw [segments_join_ofNames _ h, List.map_append, List.append_assoc]
    rfl
  refine ⟨front, retitle Config.markdown n, ?_, ?_, List.suffix_append _ _⟩
  · exact h.left.append ((h n (by simp)).retitle (by decide) (by decide)).areNames
  · rw [destination_componentAt hdest, segments_withExtension (by decide) (by decide) hjoined, List.map_append,
      List.append_assoc]
    rfl

/-- Without a name, the extension is put on the directory of the documents. -/
theorem not_isDocumentBelow_destination : ¬ IsDocumentBelow p.config.outDir (p.destination (componentAt [])) := by
  refine not_isDocumentBelow ?_
  rw [destination_componentAt hdest, length_segments_withExtension (by decide) (by decide),
    segments_join_ofNames _ areNames_nil]
  simp

end Destination

/-- A component has a name unless the directory of the components is a file. -/
theorem Discovered.ne_nil_iff {p : Project} {t : FileTree} {names : List (List Char)} (h : p.Discovered t names)
    {x : Location × Entry} (hx : t.find p.here p.config.componentsDir = .ok x) :
    names ≠ [] ↔ t.isDirectory p.here p.config.componentsDir = true := by
  obtain ⟨l, content, hf⟩ := h.reaches.file
  rw [isDirectory_iff]
  constructor
  · intro hne
    obtain ⟨d, rfl⟩ := exists_directory_of_find_below hx hne h.reaches.areNames hf
    exact ⟨d, hx⟩
  · rintro ⟨d, hd⟩ rfl
    rw [below_nil, hd] at hf
    cases hf

/-- All files that a run writes lie below the directory of the documents, whatever the components are called
and wherever they are searched for, unless their directory is itself a file. -/
theorem written_below_outDir_iff {p : Project} {t : FileTree} (ht : t.WellFormed)
    (hfile : p.config.outFile = none) (hdest : p.config.destination = Config.defaultDestination) {w : Path}
    (hw : w ∈ (p.generateAll t).written) :
    IsDocumentBelow p.config.outDir w ↔ t.isDirectory p.here p.config.componentsDir = true := by
  obtain ⟨components, hd⟩ : ∃ components, p.discover t = .ok components := by
    cases hd : p.discover t with
    | error e => simp [Outcome.written, generateAll, hd] at hw
    | ok components => exact ⟨components, rfl⟩
  have htarget := mem_targets_of_generateAll hd hw
  rw [targets, hfile] at htarget
  obtain ⟨component, hc, rfl⟩ := List.mem_map.1 htarget
  obtain ⟨names, hfound, rfl⟩ := (mem_discover_iff ht hd).1 hc
  obtain ⟨x, hx⟩ := exists?_iff.1 (exists?_of_discover hd)
  rw [← hfound.ne_nil_iff hx]
  constructor
  · rintro hbelow rfl
    exact not_isDocumentBelow_destination hdest hbelow
  · exact isDocumentBelow_destination hdest hfound.reaches.areNames

theorem written_below_outDir_iff_dotted :
    let p := siteProject (siteConfig "src" "/w/x/..//docs" "**")
    let t := siteTree [(["src"], .directory), (["src", ".vue"], .file (.text ""))]
    t.WellFormed ∧ (p.generateAll t).written = [.ofString "/w/x/..//docs/.vue.md"] ∧
      IsDocumentBelow p.config.outDir (.ofString "/w/x/..//docs/.vue.md") := by
  intro p t
  have ht : t.WellFormed := wellFormed_of_entries (by decide +kernel) (by decide +kernel)
  have hwritten : (p.generateAll t).written = [.ofString "/w/x/..//docs/.vue.md"] := by decide +kernel
  have hw : Path.ofString "/w/x/..//docs/.vue.md" ∈ (p.generateAll t).written := by simp [hwritten]
  exact ⟨ht, hwritten, (written_below_outDir_iff ht rfl rfl hw).2 (by decide +kernel)⟩

/-- Where the directory of the components is a file, its document lies beside the directory of the documents. -/
theorem written_beside_outDir :
    let p := siteProject (siteConfig "x.vue" "/w/x.docs" "*")
    let t := siteTree [(["x.vue"], .file (.text ""))]
    t.WellFormed ∧ p.config.outFile = none ∧ (p.generateAll t).written = [.ofString "/w/x.md"] ∧
      ¬ IsDocumentBelow p.config.outDir (.ofString "/w/x.md") :=
  ⟨wellFormed_of_entries (by decide +kernel) (by decide +kernel), rfl, by decide +kernel,
    not_isDocumentBelow (by decide +kernel)⟩

end ComponentDocs.Project
