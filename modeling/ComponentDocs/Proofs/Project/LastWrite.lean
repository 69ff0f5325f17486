import ComponentDocs.Proofs.Project.Cycle
/-! Which document is in a file when documents are generated side by side. A component reads at one moment and
writes at another, and of several that write to the same file the last one stays. -/
namespace ComponentDocs.Project
open FileTree

/-- The document of a component by the files as they are at some moment of a schedule. -/
def IsDocumentWithin (p : Project) (t : FileTree) (schedule : List String) (component formatted : String) : Prop :=
  ∃ front, front <+: schedule ∧ p.IsDocument (p.interleave t front).tree component formatted

theorem IsDocumentWithin.append {p : Project} {t : FileTree} {schedule : List String} {component formatted : String}
    (h : p.IsDocumentWithin t schedule component formatted) (rest : List String) :
    p.IsDocumentWithin t (schedule ++ rest) component formatted := by
  obtain ⟨front, hfront, hdoc⟩ := h
  exact ⟨front, hfront.trans (List.prefix_append schedule rest), hdoc⟩

/-- What a component has so far comes from the files at some moment of the schedule. -/
def Stage.IsWithin (p : Project) (t : FileTree) (schedule : List String) (component : String) : Stage → Prop
  | .waiting | .ended _ => True
  | .asked request =>
    ∃ front, front <+: schedule ∧ request = p.config.request (p.interleave t front).tree p.here component
  | .formatted text | .housed text => p.IsDocumentWithin t schedule component text

theorem Stage.IsWithin.append {p : Project} {t : FileTree} {schedule : List String} {component : String}
    {stage : Stage} (h : stage.IsWithin p t schedule component) (rest : List String) :
    stage.IsWithin p t (schedule ++ rest) component := by
  cases stage with
  | waiting | ended => exact h
  | asked request =>
    obtain ⟨front, hfront, hrequest⟩ := h
    exact ⟨front, hfront.trans (List.prefix_append schedule rest), hrequest⟩
  | formatted text | housed text => exact IsDocumentWithin.append h rest

section
variable {p : Project} {t : FileTree} {schedule : List String}

/-- A document that is rendered from what was read at some moment is the document of the files at that moment. -/
theorem prepare_isWithin {front : List String} (hfront : front <+: schedule) (component : String) :
    (p.prepare component (p.config.request (p.interleave t front).tree p.here component)).IsWithin p t schedule
      component := by
  unfold prepare
  cases he : p.engine (p.config.request (p.interleave t front).tree p.here component) with
  | error e => trivial
  | ok text =>
    dsimp only
    cases hf : p.formatter text with
    | error e => trivial
    | ok formatted => exact ⟨front, hfront, text, by simp [render, compile, he, Except.mapError], hf⟩

theorem advance_isWithin (component : String) {stage : Stage} (h : stage.IsWithin p t schedule component) :
    (p.advance component ((p.interleave t schedule).tree, stage)).2.IsWithin p t schedule component := by
  cases stage with
  | waiting => exact ⟨schedule, List.prefix_rfl, rfl⟩
  | asked request =>
    obtain ⟨front, hfront, rfl⟩ := h
    exact prepare_isWithin hfront component
  | formatted text =>
    simp only [advance]
    cases (makeParent p.here (p.interleave t schedule).tree (p.destination component)).2 with
    | error e => trivial
    | ok _ => exact h
  | housed text =>
    simp only [advance]
    split <;> trivial
  | ended result => trivial

theorem stage_isWithin (p : Project) (t : FileTree) (schedule : List String) (component : String) :
    ((p.interleave t schedule).stage component).IsWithin p t schedule component := by
  induction schedule using List.reverseRecOn with
  | nil => trivial
  | append_singleton schedule c ih =>
    rw [interleave_concat]
    by_cases hc : component = c
    · subst hc
      rw [step_stage_self]
      exact (advance_isWithin component ih).append [component]
    · rw [step_stage_of_ne _ _ hc]
      exact ih.append [c]

/-- A step that writes is the last of a component, and writes what the component has formatted. Any other adds
directories at most. -/
theorem advance_cases (p : Project) (component : String) (t : FileTree) (stage : Stage) :
    let after := p.advance component (t, stage)
    (AddsDirectories t after.1 ∧ after.2.written = stage.written) ∨
    ∃ text l, stage = .housed text ∧ after.2 = .ended (.ok (p.destination component)) ∧ Grows t after.1 ∧
      after.1.find p.here (p.destination component) = .ok (l, .file (.text text)) ∧
      ∀ m, m ≠ l → after.1.fileAt? m = t.fileAt? m := by
  cases stage with
  | waiting => exact .inl ⟨.rfl t, rfl⟩
  | asked request =>
    refine .inl ⟨.rfl t, ?_⟩
    simp only [advance, prepare]
    split
    · rfl
    · split <;> rfl
  | formatted text =>
    refine .inl ⟨makeParent_addsDirectories p.here t (p.destination component), ?_⟩
    simp only [advance]
    cases (makeParent p.here t (p.destination component)).2 <;> rfl
  | housed text =>
    simp only [advance]
    cases hw : t.write p.here (p.destination component) (.text text) with
    | error e => exact .inl ⟨.rfl t, rfl⟩
    | ok t' =>
      obtain ⟨l, hg, hf, hkept⟩ := FileTree.write_eq_ok hw
      exact .inr ⟨text, l, rfl, rfl, hg, hf, fun m hm => fileAt?_congr (hkept m hm)⟩
  | ended result => exact .inl ⟨.rfl t, rfl⟩

theorem written_subset_destination (p : Project) (t : FileTree) (schedule : List String) (component : String) :
    ((p.interleave t schedule).stage component).written ⊆ [p.destination component] := by
  induction schedule using List.reverseRecOn with
  | nil => exact List.nil_subset _
  | append_singleton schedule c ih =>
    rw [interleave_concat]
    by_cases hc : component = c
    · subst hc
      rw [step_stage_self]
      rcases p.advance_cases component (p.interleave t schedule).tree ((p.interleave t schedule).stage component) with
        ⟨-, hsame⟩ | ⟨text, l, -, hended, -⟩
      · exact hsame ▸ ih
      · exact hended ▸ List.Subset.refl _
    · rwa [step_stage_of_ne _ _ hc]

/-- A component that has been written to its file. -/
def Cycles.IsWritten (p : Project) (s : Cycles) (component : String) : Prop :=
  s.stage component = .ended (.ok (p.destination component))

/-- The last component that a schedule has written to a file, by the step after `front`, has this document. Any
other that is written there had been so before. -/
def IsLastWrite (p : Project) (t : FileTree) (schedule : List String) (file : Path) (formatted : String) : Prop :=
  ∃ front last back, schedule = front ++ last :: back ∧ p.IsDocumentWithin t front last formatted ∧
    ¬ (p.interleave t front).IsWritten p last ∧ (p.interleave t schedule).IsWritten p last ∧
    (p.interleave t schedule).tree.SameFile p.here (p.destination last) file ∧
    ∀ other, (p.interleave t schedule).IsWritten p other →
      (p.interleave t schedule).tree.SameFile p.here (p.destination other) file →
      (p.interleave t (front ++ [last])).IsWritten p other

theorem Cycles.mem_written_destination {s : Cycles} {component : String} :
    p.destination component ∈ (s.stage component).written ↔ s.IsWritten p component :=
  Stage.mem_written

theorem Cycles.IsWritten.step {s : Cycles} {component : String} (h : s.IsWritten p component) (other : String) :
    (p.step s other).IsWritten p component :=
  mem_written_destination.1 (p.written_subset_step s other component (mem_written_destination.2 h))

/-- A component that writes is the last, also to any other file that its path leads to. -/
theorem IsLastWrite.new {component : String} {file : Path} {text : String}
    (hs : (p.interleave t schedule).stage component = .housed text)
    (hw : (p.interleave t (schedule ++ [component])).IsWritten p component)
    (hsame : (p.interleave t (schedule ++ [component])).tree.SameFile p.here (p.destination component) file) :
    p.IsLastWrite t (schedule ++ [component]) file text := by
  have hdoc := p.stage_isWithin t schedule component
  rw [hs] at hdoc
  have hnot : ¬ (p.interleave t schedule).IsWritten p component := fun h => Stage.noConfusion (hs.symm.trans h)
  exact ⟨schedule, component, [], rfl, hdoc, hnot, hw, hsame, fun _ hother _ => hother⟩

/-- A step that writes nothing to a file leaves the last component there. -/
theorem IsLastWrite.step {component : String} {file : Path} {formatted : String}
    (h : p.IsLastWrite t schedule file formatted)
    (hg : Grows (p.interleave t schedule).tree (p.interleave t (schedule ++ [component])).tree)
    (hback : ∀ other, (p.interleave t (schedule ++ [component])).IsWritten p other →
      (p.interleave t (schedule ++ [component])).tree.SameFile p.here (p.destination other) file →
      (p.interleave t schedule).IsWritten p other ∧
        (p.interleave t schedule).tree.SameFile p.here (p.destination other) file) :
    p.IsLastWrite t (schedule ++ [component]) file formatted := by
  obtain ⟨front, last, back, rfl, hdoc, hnot, hw, hsame, hlast⟩ := h
  refine ⟨front, last, back ++ [component], by simp, hdoc, hnot, ?_, hsame.of_grows hg, fun other ho hs => ?_⟩
  · rw [interleave_concat]
    exact hw.step component
  · obtain ⟨ho, hs⟩ := hback other ho hs
    exact hlast other ho hs

/-- What one more step of a schedule does to the files, and which components it adds to those that are written. -/
theorem interleave_concat_cases (p : Project) (t : FileTree) (schedule : List String) (component : String) :
    let s := p.interleave t schedule
    let s' := p.interleave t (schedule ++ [component])
    (AddsDirectories s.tree s'.tree ∧ ∀ other, s'.IsWritten p other ↔ s.IsWritten p other) ∨
    ∃ text l, s.stage component = .housed text ∧ s'.IsWritten p component ∧
      (∀ other, other ≠ component → (s'.IsWritten p other ↔ s.IsWritten p other)) ∧ Grows s.tree s'.tree ∧
      s'.tree.find p.here (p.destination component) = .ok (l, .file (.text text)) ∧
      ∀ m, m ≠ l → s'.tree.fileAt? m = s.tree.fileAt? m := by
  have hothers (other : String) (h : other ≠ component) :
      (p.step (p.interleave t schedule) component).IsWritten p other ↔ (p.interleave t schedule).IsWritten p other := by
    rw [Cycles.IsWritten, Cycles.IsWritten, step_stage_of_ne _ _ h]
  simp only [interleave_concat]
  rcases p.advance_cases component (p.interleave t schedule).tree ((p.interleave t schedule).stage component) with
    ⟨ha, hsame⟩ | ⟨text, l, hhoused, hended, hg, hf, hkept⟩
  · refine .inl ⟨ha, fun other => ?_⟩
    by_cases h : other = component
    · subst h
      rw [← Cycles.mem_written_destination, ← Cycles.mem_written_destination, step_stage_self, hsame]
    · exact hothers other h
  · refine .inr ⟨text, l, hhoused, ?_, hothers, hg, hf, hkept⟩
    rw [Cycles.IsWritten, step_stage_self, hended]

/-- A file that has been written to holds the document of the last component that was. -/
theorem find_of_isWritten (p : Project) (t : FileTree) (schedule : List String) {component : String}
    (h : (p.interleave t schedule).IsWritten p component) :
    ∃ l formatted, (p.interleave t schedule).tree.find p.here (p.destination component) =
        .ok (l, .file (.text formatted)) ∧
      p.IsLastWrite t schedule (p.destination component) formatted := by
  induction schedule using List.reverseRecOn generalizing component with
  | nil => cases h
  | append_singleton schedule c ih =>
    rcases p.interleave_concat_cases t schedule c with
      ⟨ha, hwritten⟩ | ⟨text, l, hhoused, hw, hothers, hg, hf, hkept⟩
    · obtain ⟨l, formatted, hfind, hlast⟩ := ih ((hwritten component).1 h)
      refine ⟨l, formatted, find_of_fileAt?_eq ha.grows hfind (ha.fileAt?_eq l),
        hlast.step ha.grows fun other ho hs => ?_⟩
      have ho := (hwritten other).1 ho
      obtain ⟨_, _, hfind', -⟩ := ih ho
      exact ⟨ho, (sameFile_iff_of_grows ha.grows hfind' hfind).1 hs⟩
    · by_cases hsame : (p.interleave t (schedule ++ [c])).tree.SameFile p.here (p.destination c)
          (p.destination component)
      · exact ⟨l, text, find_eq_of_sameFile hsame hf, .new hhoused hw hsame⟩
      · have hne : component ≠ c := by
          rintro rfl
          exact hsame (sameFile_of_find hf hf)
        obtain ⟨l', formatted, hfind, hlast⟩ := ih ((hothers component hne).1 h)
        obtain ⟨_, hnow⟩ := find_file_of_grows hg hfind
        have hl : l' ≠ l := fun he => hsame ((sameFile_iff_of_find hf hnow).2 he.symm)
        refine ⟨l', formatted, find_of_fileAt?_eq hg hfind (hkept l' hl), hlast.step hg fun other ho hs => ?_⟩
        have hother : other ≠ c := fun he => hsame (he ▸ hs)
        have ho := (hothers other hother).1 ho
        obtain ⟨_, _, hfind', -⟩ := ih ho
        exact ⟨ho, (sameFile_iff_of_grows hg hfind' hfind).1 hs⟩

theorem isWritten_or_mem_failures {components : List String} (hend : (p.interleave t schedule).Finished components)
    {component : String} (hc : component ∈ components) :
    (p.interleave t schedule).IsWritten p component ∨
      ∃ e, (component, e) ∈ ((p.interleave t schedule).report components).failures := by
  obtain ⟨result, hstage⟩ := hend component hc
  cases result with
  | ok path =>
    have hpath := p.written_subset_destination t schedule component (Stage.mem_written.2 hstage)
    obtain rfl := List.mem_singleton.1 hpath
    exact .inl hstage
  | error e => exact .inr ⟨e, Cycles.mem_failures.2 ⟨hc, hstage⟩⟩

/-- When all components have ended, the file of each that has not failed holds the document of the component that
was the last to be written there. Any other whose path leads to the file has failed or had been written before. -/
theorem interleave_document {components : List String} (hm : schedule ⊆ components)
    (hend : (p.interleave t schedule).Finished components) {component : String} (hc : component ∈ components)
    (hf : ∀ e, (component, e) ∉ ((p.interleave t schedule).report components).failures) :
    let s := p.interleave t schedule
    ∃ front last back formatted, schedule = front ++ last :: back ∧ p.IsDocumentWithin t front last formatted ∧
      s.tree.readText p.here (p.destination component) = .ok formatted ∧
      ¬ (p.interleave t front).IsWritten p last ∧ p.destination last ∈ (s.report components).written ∧
      s.tree.SameFile p.here (p.destination last) (p.destination component) ∧
      ∀ other ∈ components, s.tree.SameFile p.here (p.destination other) (p.destination component) →
        (∃ e, (other, e) ∈ (s.report components).failures) ∨
          (p.interleave t (front ++ [last])).IsWritten p other := by
  have hw := (isWritten_or_mem_failures hend hc).resolve_right fun ⟨e, he⟩ => hf e he
  obtain ⟨l, formatted, hfind, front, last, back, hs, hdoc, hnot, hlast, hsame, hback⟩ :=
    p.find_of_isWritten t schedule hw
  refine ⟨front, last, back, formatted, hs, hdoc, readText_of_find hfind, hnot, ?_, hsame, fun other ho hs => ?_⟩
  · exact Cycles.mem_written.2 ⟨last, hm (by simp [hs]), Cycles.mem_written_destination.2 hlast⟩
  · rcases isWritten_or_mem_failures hend ho with hw | hfailed
    · exact .inr (hback other hw hs)
    · exact .inl hfailed

end

/-! The files that people write, and what becomes of them. A run knows the files of the components by
one rule and the files it writes by another, and never compares the two. -/

/-- The files that are written by hand for a component: its source, and the supplementary file. -/
def inputs (p : Project) (component : String) : List Path :=
  let source := p.config.componentsDir.join (.ofString component)
  source :: (p.config.supplement source.normalize).toList

theorem mem_written_writeEach {p : Project} {rs : Renderings} {t : FileTree} {w : Path}
    (h : w ∈ (p.writeEach rs t).2.written) : ∃ r ∈ rs, w = p.destination r.1 := by
  induction rs generalizing t with
  | nil => simp [writeEach] at h
  | cons r rest ih =>
    obtain ⟨component, rendered⟩ := r
    cases rendered with
    | error e =>
      obtain ⟨r, hr, hw⟩ := ih (t := t) h
      exact ⟨r, List.mem_cons_of_mem _ hr, hw⟩
    | ok text =>
      have hrest (h : w ∈ (p.writeEach rest (p.write t text (p.destination component)).tree).2.written) :
          ∃ r ∈ (component, Except.ok text) :: rest, w = p.destination r.1 := by
        obtain ⟨r, hr, hw⟩ := ih h
        exact ⟨r, List.mem_cons_of_mem _ hr, hw⟩
      unfold writeEach at h
      dsimp only at h
      split at h
      · rcases List.mem_cons.1 h with hw | h
        · exact ⟨_, List.mem_cons_self, hw⟩
        · exact hrest h
      · exact hrest h

theorem mem_written_generateTogether {p : Project} {t : FileTree} {components : List String} {file w : Path}
    (h : w ∈ (p.generateTogether t components file).written) : w = file := by
  unfold generateTogether at h
  dsimp only at h
  split at h
  · simp [Outcome.written] at h
  · cases ho : (p.write t ("\n\n".intercalate (p.renderings t components).texts) file).result <;>
      simp_all [Outcome.written, Outcome.map, Except.map]

theorem mem_targets_of_generateAll {p : Project} {t : FileTree} {components : List String} {w : Path}
    (hd : p.discover t = .ok components) (h : w ∈ (p.generateAll t).written) : w ∈ p.targets components := by
  unfold generateAll at h
  rw [hd] at h
  dsimp only at h
  split at h
  · next hf =>
    simpa [targets, hf] using mem_written_generateTogether h
  · next hf =>
    obtain ⟨r, hr, rfl⟩ := mem_written_writeEach h
    obtain ⟨component, hc, rfl⟩ := List.mem_map.1 hr
    rw [targets, hf]
    exact List.mem_map_of_mem hc

theorem mem_targets_of_regenerateFor {p : Project} {t : FileTree} {path w : Path}
    (h : w ∈ (p.regenerateFor t path).written) :
    ∃ component, p.componentFor t path = .ok (some component) ∧ w ∈ p.targets [component] := by
  unfold regenerateFor at h
  split at h
  · simp [Outcome.written] at h
  · simp [Outcome.written] at h
  · next component hc =>
    refine ⟨component, hc, ?_⟩
    unfold targets
    split at h
    · next hf =>
      obtain ⟨file, hf⟩ := Option.isSome_iff_exists.1 hf
      simp only [hf]
      cases hd : p.discover t with
      | error e => simp [generateAll, hd, Outcome.written] at h
      | ok components => simpa [targets, hf] using mem_targets_of_generateAll hd h
    · next hf =>
      simp only [Option.not_isSome_iff_eq_none.1 hf]
      cases hg : (p.generate t component).result with
      | error e => simp [Outcome.written, hg] at h
      | ok path =>
        obtain rfl : w = path := by simpa [Outcome.written, hg] using h
        simp [(generate_eq_ok hg).1]

theorem mem_written_interleave {p : Project} {t : FileTree} {components schedule : List String} {w : Path}
    (h : w ∈ ((p.interleave t schedule).report components).written) : ∃ c ∈ components, w = p.destination c := by
  obtain ⟨c, hc, hw⟩ := Cycles.mem_written.1 h
  exact ⟨c, hc, List.mem_singleton.1 (p.written_subset_destination t schedule c hw)⟩

/-- The project in a directory, by the settings that are found there. -/
def inDirectory? (t : FileTree) (dir : Location) : Option Project :=
  (Config.load t dir none none).toOption.bind fun c => (ofConfig t dir c).toOption

/-- A directory with a component and a text about it. -/
def sampleTree : FileTree :=
  ⟨[([['w']], .directory), ([['w'], "A.vue".toList], .file (.text "")),
    ([['w'], "A.md".toList], .file (.text "By hand.\n"))]⟩

end ComponentDocs.Project
