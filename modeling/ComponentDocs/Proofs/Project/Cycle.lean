import ComponentDocs.Project.Cycle
import ComponentDocs.Proofs.Project.Discovery
/-! Components whose documents are generated side by side. Each goes through its own steps, and those of
others may come between them. A run over all components is one order of the steps. -/
namespace ComponentDocs.Project
open FileTree

theorem Stage.isSome_result?_iff (stage : Stage) : stage.result?.isSome = true ↔ ∃ result, stage = .ended result := by
  cases stage <;> simp [Stage.result?]

/-- Some steps of a component that has the files for itself. -/
def alone (p : Project) (t : FileTree) (component : String) : Nat → FileTree × Stage
  | 0 => (t, .waiting)
  | k + 1 => p.advance component (p.alone t component k)

theorem step_eq (p : Project) (s : Cycles) (component : String) :
    p.step s component =
      let (tree, stage) := p.advance component (s.tree, s.stage component)
      ⟨tree, Function.update s.stage component stage⟩ := by
  unfold step
  rcases p.advance component (s.tree, s.stage component) with ⟨tree, stage⟩
  dsimp only
  congr 1
  funext other
  rw [Function.update_apply]

theorem step_stage_self (p : Project) (s : Cycles) (component : String) :
    (p.step s component).stage component = (p.advance component (s.tree, s.stage component)).2 :=
  if_pos rfl

theorem step_stage_of_ne (p : Project) (s : Cycles) {component other : String} (h : other ≠ component) :
    (p.step s component).stage other = s.stage other :=
  if_neg h

theorem interleave_concat (p : Project) (t : FileTree) (schedule : List String) (component : String) :
    p.interleave t (schedule ++ [component]) = p.step (p.interleave t schedule) component := by
  rw [interleave, List.foldl_append]
  rfl

namespace Cycles

def Finished (s : Cycles) (components : List String) : Prop :=
  ∀ component ∈ components, ∃ result, s.stage component = .ended result

instance (s : Cycles) (components : List String) : Decidable (s.Finished components) :=
  decidable_of_iff (∀ component ∈ components, (s.stage component).result?.isSome = true)
    (forall₂_congr fun _ _ => Stage.isSome_result?_iff _)

theorem results_cons {s : Cycles} {component : String} {result : Except Error Path}
    (h : s.stage component = .ended result) (rest : List String) :
    s.results (component :: rest) = (component, result) :: s.results rest := by
  simp [results, h, Stage.result?]

theorem results_eq_map {s : Cycles} {components : List String} {result : String → Except Error Path}
    (h : ∀ component ∈ components, s.stage component = .ended (result component)) :
    s.results components = components.map fun component => (component, result component) := by
  induction components with
  | nil => rfl
  | cons component rest ih =>
    rw [results_cons (h component (by simp)), ih fun c hc => h c (by simp [hc]), List.map_cons]

theorem report_cons_ok {s : Cycles} {component : String} {path : Path} (h : s.stage component = .ended (.ok path))
    (rest : List String) : s.report (component :: rest) = (s.report rest).withFile path := by
  rw [report, results_cons h]
  rfl

theorem report_cons_error {s : Cycles} {component : String} {e : Error} (h : s.stage component = .ended (.error e))
    (rest : List String) : s.report (component :: rest) = (s.report rest).withFailure component e := by
  rw [report, results_cons h]
  rfl

end Cycles

/-- What is left of the cycle once the document is formatted, or has failed. -/
theorem advance_prepare (p : Project) (t t' : FileTree) (component : String) :
    p.advance component (p.advance component (t', p.prepare component (p.config.request t p.here component))) =
      match (p.render t component).result with
      | .error e => (t', .ended (.error e))
      | .ok text =>
        let o := (p.write t' text (p.destination component)).map fun _ => p.destination component
        (o.tree, .ended o.result) := by
  rw [render, compile, prepare]
  dsimp only
  cases p.engine (p.config.request t p.here component) with
  | error e => rfl
  | ok text =>
    simp only [Except.mapError, write_eq]
    cases p.formatter text with
    | error e => rfl
    | ok formatted =>
      simp only [advance, writeFile]
      rcases makeParent p.here t' (p.destination component) with ⟨t₁, e | _⟩
      · rfl
      · simp only [Stage.afterParent]
        cases t₁.write p.here (p.destination component) (.text formatted) <;> rfl

theorem alone_four (p : Project) (t : FileTree) (component : String) :
    p.alone t component 4 = ((p.generate t component).tree, .ended (p.generate t component).result) := by
  have h := p.advance_prepare t t component
  rw [alone, alone, alone, alone, alone, advance, advance, h, generate]
  dsimp only
  cases (p.render t component).result <;> rfl

theorem alone_of_ended {p : Project} {t : FileTree} {component : String} {k : Nat} {result : Except Error Path}
    (h : (p.alone t component k).2 = .ended result) (j : Nat) :
    p.alone t component (k + j) = p.alone t component k := by
  induction j with
  | zero => rfl
  | succ j ih =>
    rw [← Nat.add_assoc, alone, ih]
    rcases hk : p.alone t component k with ⟨t', stage⟩
    rw [hk] at h
    obtain rfl : stage = .ended result := h
    rfl

theorem alone_of_four_le (p : Project) (t : FileTree) (component : String) {k : Nat} (h : 4 ≤ k) :
    p.alone t component k = ((p.generate t component).tree, .ended (p.generate t component).result) := by
  obtain ⟨j, rfl⟩ := Nat.exists_eq_add_of_le h
  rw [alone_of_ended (congrArg Prod.snd (p.alone_four t component)), alone_four]

/-- A component that has ended has gone through the whole cycle. -/
theorem alone_ended {p : Project} {t : FileTree} {component : String} {k : Nat} {result : Except Error Path}
    (h : (p.alone t component k).2 = .ended result) :
    p.alone t component k = ((p.generate t component).tree, .ended (p.generate t component).result) := by
  rw [← alone_of_ended h 4]
  exact p.alone_of_four_le t component (Nat.le_add_left 4 k)

theorem foldl_step {p : Project} {components : List String} (hn : components.Nodup) (s : Cycles)
    (next : String → Stage) (h : ∀ c ∈ components, p.advance c (s.tree, s.stage c) = (s.tree, next c)) :
    components.foldl p.step s = ⟨s.tree, fun c => if c ∈ components then next c else s.stage c⟩ := by
  induction components generalizing s with
  | nil => simp
  | cons a rest ih =>
    obtain ⟨ha, hrest⟩ := List.nodup_cons.1 hn
    have hstep : p.step s a = ⟨s.tree, Function.update s.stage a (next a)⟩ := by
      rw [step_eq, h a (by simp)]
    rw [List.foldl_cons, hstep, ih hrest _ fun c hc => ?_]
    · congr 1
      funext c
      by_cases hca : c = a
      · simp [hca, ha]
      · simp [hca]
    · have hca : c ≠ a := fun he => ha (he ▸ hc)
      simpa [hca] using h c (by simp [hc])

theorem step_step (p : Project) (s : Cycles) (component : String) :
    p.step (p.step s component) component =
      let done := p.advance component (p.advance component (s.tree, s.stage component))
      ⟨done.1, Function.update s.stage component done.2⟩ := by
  simp [step_eq]

/-- The last two steps of a component end it, with what writing its rendering adds to the report. -/
theorem exists_advance_write (p : Project) {t : FileTree} {component : String} {s : FileTree × Stage}
    (hs : s.2 = p.prepare component (p.config.request t p.here component)) :
    ∃ tree result, p.advance component (p.advance component s) = (tree, .ended result) ∧
      ∀ rs, (∀ path, result = .ok path → p.writeEach ((component, (p.render t component).result) :: rs) s.1 =
          ((p.writeEach rs tree).1, (p.writeEach rs tree).2.withFile path)) ∧
        (∀ e, result = .error e → p.writeEach ((component, (p.render t component).result) :: rs) s.1 =
          ((p.writeEach rs tree).1, (p.writeEach rs tree).2.withFailure component e)) := by
  obtain ⟨u, stage⟩ := s
  obtain rfl : stage = p.prepare component (p.config.request t p.here component) := hs
  rw [p.advance_prepare]
  cases (p.render t component).result with
  | error e =>
    refine ⟨_, _, rfl, fun rs => ⟨fun _ h => (by cases h), ?_⟩⟩
    rintro _ ⟨⟩
    rfl
  | ok text =>
    refine ⟨_, _, rfl, fun rs => ?_⟩
    simp only [writeEach, Outcome.map]
    cases (p.write u text (p.destination component)).result with
    | ok _ =>
      refine ⟨?_, fun _ h => (by cases h)⟩
      rintro _ ⟨⟩
      rfl
    | error e =>
      refine ⟨fun _ h => (by cases h), ?_⟩
      rintro _ ⟨⟩
      rfl

theorem foldl_step_write (p : Project) (t : FileTree) {components : List String} (hn : components.Nodup) (s : Cycles)
    (hs : ∀ c ∈ components, s.stage c = p.prepare c (p.config.request t p.here c)) :
    let s' := (components.flatMap fun c => [c, c]).foldl p.step s
    (∀ c, c ∉ components → s'.stage c = s.stage c) ∧ s'.Finished components ∧
      p.writeEach (p.renderings t components) s.tree = (s'.tree, s'.report components) := by
  induction components generalizing s with
  | nil => exact ⟨fun _ _ => rfl, by simp [Cycles.Finished], rfl⟩
  | cons a rest ih =>
    obtain ⟨ha, hrest⟩ := List.nodup_cons.1 hn
    obtain ⟨tree, result, hdone, hwrite⟩ := p.exists_advance_write (s := (s.tree, s.stage a)) (hs a (by simp))
    have hne {c : String} (hc : c ∈ rest) : c ≠ a := fun he => ha (he ▸ hc)
    obtain ⟨hkept, hended, hrun⟩ := ih hrest ⟨tree, Function.update s.stage a (.ended result)⟩ fun c hc => by
      simpa [hne hc] using hs c (by simp [hc])
    have hfirst := (hkept a ha).trans (Function.update_self a _ _)
    simp only [List.flatMap_cons, List.foldl_append, List.foldl_cons, List.foldl_nil, step_step, hdone]
    refine ⟨fun c hc => ?_, fun c hc => ?_, ?_⟩
    · rw [List.mem_cons, not_or] at hc
      exact (hkept c hc.2).trans (Function.update_of_ne hc.1 _ _)
    · rcases List.mem_cons.1 hc with rfl | hc
      · exact ⟨result, hfirst⟩
      · exact hended c hc
    · obtain ⟨hfile, hfailure⟩ := hwrite (p.renderings t rest)
      rw [renderings, List.map_cons, ← renderings]
      cases result with
      | ok path => rw [hfile path rfl, hrun, Cycles.report_cons_ok hfirst]
      | error e => rw [hfailure e rfl, hrun, Cycles.report_cons_error hfirst]

theorem interleave_inOrder (p : Project) (t : FileTree) {components : List String} (hn : components.Nodup) :
    let s := p.interleave t (inOrder components)
    s.Finished components ∧ (p.generateEach t components).tree = s.tree ∧
      (p.generateEach t components).result = .ok (s.report components) := by
  have hread := foldl_step (p := p) hn ⟨t, fun _ => .waiting⟩ (fun c => .asked (p.config.request t p.here c))
    fun _ _ => rfl
  have hformat := foldl_step (p := p) hn
    ⟨t, fun c => if c ∈ components then .asked (p.config.request t p.here c) else .waiting⟩
    (fun c => p.prepare c (p.config.request t p.here c)) fun c hc => by simp [hc, advance]
  obtain ⟨-, hended, hrun⟩ := p.foldl_step_write t hn
    ⟨t, fun c => if c ∈ components then p.prepare c (p.config.request t p.here c)
      else if c ∈ components then .asked (p.config.request t p.here c) else .waiting⟩
    fun c hc => by simp [hc]
  simp only [interleave, Cycles.start, inOrder, List.foldl_append, hread, hformat]
  refine ⟨hended, ?_, ?_⟩
  · exact congrArg Prod.fst hrun
  · exact congrArg (fun x => Except.ok x.2) hrun

/-- A run over all components goes by the empty schedule, in which all of them follow in order. -/
theorem generateBy_nil {p : Project} {t : FileTree} (ht : t.WellFormed) :
    p.generateBy [] t = ((p.generateAll t).tree, (p.generateAll t).result) := by
  unfold generateBy generateAll
  cases hd : p.discover t with
  | error e => rfl
  | ok components =>
    cases p.config.outFile with
    | some file => rfl
    | none =>
      obtain ⟨-, htree, hresult⟩ := p.interleave_inOrder t (nodup_of_discover ht hd)
      exact Prod.ext htree.symm hresult.symm

/-! What the operations on a project touch, whichever of them it is and however it ends. The same holds while the
documents of several components are generated side by side. -/

open FileTree ComponentDocs.Path

inductive Operation
  | generate (component : String)
  | generateAll
  | regenerateFor (path : Path)
  | handle (event : Event)
deriving DecidableEq, Repr

namespace Operation

/-- An operation with its report. That of a single component reports the file that it returns. -/
def perform (p : Project) (t : FileTree) : Operation → Outcome Report
  | generate component => (p.generate t component).map fun path => { written := [path] }
  | generateAll => p.generateAll t
  | regenerateFor path => p.regenerateFor t path
  | handle event => p.handle t event

/-- The operation that an event sets off. Its errors are not passed on. -/
def inner : Operation → Operation
  | handle (.changed path) => regenerateFor path
  | operation => operation

def Fails (p : Project) (t : FileTree) (operation : Operation) : Prop :=
  ∃ e, (operation.inner.perform p t).result = .error e

/-- The files that an operation is out to write: those of the components that it goes through. -/
def targets (p : Project) (t : FileTree) : Operation → List Path
  | generate component => [p.destination component]
  | generateAll => p.targets (p.discovered t)
  | regenerateFor path | handle (.changed path) => (p.affected t path).flatMap fun component => p.targets [component]
  | handle (.removed _) => []

theorem perform_footprint (p : Project) (t : FileTree) (operation : Operation) :
    Footprint p.here t (operation.perform p t).tree (operation.perform p t).written (operation.targets p t) := by
  cases operation with
  | generate component =>
    have hwritten : ((p.generate t component).map fun path => { written := [path] }).written =
        (p.generate t component).result.toOption.toList := by
      cases h : (p.generate t component).result <;> simp [Outcome.written, Outcome.map, h, Except.map, Except.toOption]
    exact hwritten ▸ generate_footprint p t component
  | generateAll => exact generateAll_footprint p t
  | regenerateFor path => exact regenerateFor_footprint p t path
  | handle event =>
    cases event with
    | removed path => exact .rfl p.here t
    | changed path =>
      rw [perform, tree_handle_changed, written_handle_changed]
      exact regenerateFor_footprint p t path

theorem perform_inner (p : Project) (t : FileTree) (operation : Operation) :
    (operation.inner.perform p t).tree = (operation.perform p t).tree ∧
      (operation.inner.perform p t).written = (operation.perform p t).written := by
  unfold inner
  split
  · next path => exact ⟨(tree_handle_changed p t path).symm, (written_handle_changed p t path).symm⟩
  · exact ⟨rfl, rfl⟩

theorem written_of_fails {p : Project} {t : FileTree} {operation : Operation} (h : operation.Fails p t) :
    (operation.perform p t).written = [] := by
  obtain ⟨e, he⟩ := h
  rw [← (perform_inner p t operation).2, Outcome.written, he]

end Operation

/-- The file that a component was written to, once it has come to its end. -/
def Stage.written (stage : Stage) : List Path := (stage.result?.bind Except.toOption).toList

theorem Stage.mem_written {stage : Stage} {path : Path} : path ∈ stage.written ↔ stage = .ended (.ok path) := by
  rcases stage with _ | _ | _ | _ | (_ | _) <;> simp [Stage.written, Stage.result?, Except.toOption, eq_comm]

theorem Cycles.mem_written {s : Cycles} {components : List String} {path : Path} :
    path ∈ (s.report components).written ↔ ∃ c ∈ components, path ∈ (s.stage c).written := by
  simp [Cycles.report, Report.ofResults, Cycles.results, Stage.written, List.mem_filterMap, Option.bind_eq_some_iff,
    and_assoc]

theorem Cycles.mem_failures {s : Cycles} {components : List String} {component : String} {e : Error} :
    (component, e) ∈ (s.report components).failures ↔ component ∈ components ∧ s.stage component = .ended (.error e) := by
  have hresult (stage : Stage) (result : Except Error Path) : stage.result? = some result ↔ stage = .ended result := by
    cases stage <;> simp [Stage.result?]
  constructor
  · intro h
    obtain ⟨⟨c, result⟩, hr, hc⟩ := List.mem_filterMap.1 h
    obtain ⟨c', hc', hr⟩ := List.mem_filterMap.1 hr
    obtain ⟨result', hstage, he⟩ := Option.map_eq_some_iff.1 hr
    cases he
    cases result with
    | ok path => cases hc
    | error e' =>
      cases hc
      exact ⟨hc', (hresult _ _).1 hstage⟩
  · rintro ⟨hc, hstage⟩
    refine List.mem_filterMap.2 ⟨(component, .error e), List.mem_filterMap.2 ⟨component, hc, ?_⟩, rfl⟩
    rw [(hresult _ _).2 hstage]
    rfl

/-- One step of a component touches its file, and what is on the way there. -/
theorem advance_footprint (p : Project) (t : FileTree) (component : String) (stage : Stage) :
    Footprint p.here t (p.advance component (t, stage)).1 (p.advance component (t, stage)).2.written
      [p.destination component] := by
  have hsame {files : List Path} : Footprint p.here t t files [p.destination component] :=
    (Footprint.rfl p.here t).mono (List.nil_subset _) (List.nil_subset _)
  cases stage with
  | waiting => exact hsame
  | asked request => exact hsame
  | ended result => exact hsame
  | formatted text =>
    exact (makeParent_footprint p.here t (p.destination component)).mono (List.nil_subset _) (List.Subset.refl _)
  | housed text =>
    unfold advance
    dsimp only
    split
    · next hw => exact (FileTree.write_footprint hw).mono (List.Subset.refl _) (List.nil_subset _)
    · exact hsame

theorem written_subset_step (p : Project) (s : Cycles) (component other : String) :
    (s.stage other).written ⊆ ((p.step s component).stage other).written := by
  intro path hp
  by_cases hother : other = component
  · subst hother
    simpa [step_eq, Stage.mem_written.1 hp, advance] using hp
  · simpa [step_eq, hother] using hp

theorem step_footprint (p : Project) (s : Cycles) {components : List String} {component : String}
    (hc : component ∈ components) :
    Footprint p.here s.tree (p.step s component).tree ((p.step s component).report components).written
      (components.map p.destination) := by
  refine (p.advance_footprint s.tree component (s.stage component)).mono (fun path hp => ?_) ?_
  · exact Cycles.mem_written.2 ⟨component, hc, by simpa [step_eq] using hp⟩
  · simpa using ⟨component, hc, rfl⟩

/-- However far the components have come, and in whatever order, all that is new or changed are the files of those
that have been written, and what is on the way to their files. -/
theorem interleave_footprint (p : Project) (t : FileTree) {components schedule : List String}
    (hm : schedule ⊆ components) :
    Footprint p.here t (p.interleave t schedule).tree ((p.interleave t schedule).report components).written
      (components.map p.destination) := by
  induction schedule using List.reverseRecOn with
  | nil => exact (Footprint.rfl p.here t).mono (List.nil_subset _) (List.nil_subset _)
  | append_singleton schedule c ih =>
    have hstep := p.step_footprint (p.interleave t schedule) (hm (by simp : c ∈ schedule ++ [c]))
    have hkept : ((p.interleave t schedule).report components).written ⊆
        ((p.step (p.interleave t schedule) c).report components).written := by
      intro path hp
      obtain ⟨other, ho, hw⟩ := Cycles.mem_written.1 hp
      exact Cycles.mem_written.2 ⟨other, ho, p.written_subset_step _ c other hw⟩
    rw [interleave_concat]
    refine ((ih fun a ha => hm (List.mem_append_left _ ha)).trans hstep).mono ?_ ?_
    · exact List.append_subset.2 ⟨hkept, List.Subset.refl _⟩
    · exact List.append_subset.2 ⟨List.Subset.refl _, List.Subset.refl _⟩

/-- Whatever the operation, the files that are new or changed are those that its report leads to, nothing is gone,
and a directory that is new lies on the way to a file that it is out to write. One that fails leaves all files as
they are, also where an event hides the error. And so do documents that are generated side by side, in whatever
order their steps come and wherever they stand. -/
theorem operations_framed (p : Project) (t : FileTree) (operation : Operation) :
    Footprint p.here t (operation.perform p t).tree (operation.perform p t).written (operation.targets p t) ∧
    (operation.Fails p t → ∀ l, (operation.perform p t).tree.fileAt? l = t.fileAt? l) ∧
    ∀ components schedule, schedule ⊆ components →
      Footprint p.here t (p.interleave t schedule).tree ((p.interleave t schedule).report components).written
        (components.map p.destination) := by
  have hfoot := operation.perform_footprint p t
  refine ⟨hfoot, fun hfails l => ?_, fun components schedule hm => p.interleave_footprint t hm⟩
  rw [Operation.written_of_fails hfails] at hfoot
  exact hfoot.addsDirectories.fileAt?_eq l

/-- The one file for all components is a directory, which is noticed when the directories above it are there. -/
theorem operations_framed_hidden_failure :
    let p := siteProject { siteConfig "src" "/w/docs" "*.vue" with outFile := some (.ofString "/w/docs/new/..") }
    let t := siteTree [(["src"], .directory), (["src", "A.vue"], .file (.text ""))]
    let operation := Operation.handle (.changed (.ofString "/w/src/A.vue"))
    let schedule := ["B.vue", "A.vue", "A.vue", "A.vue", "B.vue", "A.vue"]
    operation.Fails p t ∧ (operation.perform p t).result = .ok {} ∧
      (operation.perform p t).tree.get? [['w'], "docs".toList, "new".toList] = some .directory ∧
      (∀ l, (operation.perform p t).tree.fileAt? l = t.fileAt? l) ∧
      ((p.interleave t schedule).report ["A.vue", "B.vue"]).written = [.ofString "/w/docs/A.md"] ∧
      Footprint p.here t (p.interleave t schedule).tree [.ofString "/w/docs/A.md"]
        [.ofString "/w/docs/A.md", .ofString "/w/docs/B.md"] := by
  intro p t operation schedule
  have hfails : operation.Fails p t :=
    ⟨.output (.ofString "/w/docs/new/..") .isDirectory, by decide +kernel⟩
  have hwritten : ((p.interleave t schedule).report ["A.vue", "B.vue"]).written = [.ofString "/w/docs/A.md"] := by
    decide +kernel
  have hways : ["A.vue", "B.vue"].map p.destination = [.ofString "/w/docs/A.md", .ofString "/w/docs/B.md"] := by
    decide +kernel
  obtain ⟨-, hkept, hside⟩ := operations_framed p t operation
  have hfoot := hside ["A.vue", "B.vue"] schedule (by decide)
  rw [hwritten, hways] at hfoot
  exact ⟨hfails, by decide +kernel, by decide +kernel, hkept hfails, hwritten, hfoot⟩

end ComponentDocs.Project
