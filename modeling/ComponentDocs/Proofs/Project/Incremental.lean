import ComponentDocs.Proofs.Project.Change
/-! Documents that are up to date: a run over all components would change none of them. -/
namespace ComponentDocs.Project
open FileTree ComponentDocs.Path

/-- The document of a component is in its place, if there is one that can be written there. -/
def UpToDate (p : Project) (docs : Location) (t : FileTree) (names : List (List Char)) : Prop :=
  ∀ formatted, p.IsDocument t (componentAt names) formatted → t.Writable (docs ++ beside names) →
    t.fileAt? (docs ++ beside names) = some (.text formatted)

def generateInTurn (p : Project) (t : FileTree) (components : List String) : FileTree :=
  components.foldl (fun t component => (p.generate t component).tree) t

def AtNames (components : List String) : Prop :=
  ∀ component ∈ components, ∃ names, names ≠ [] ∧ AreNames names ∧ component = componentAt names

theorem writeEach_render_tree (p : Project) (t : FileTree) (component : String) (rest : Renderings) :
    (p.writeEach ((component, (p.render t component).result) :: rest) t).1 =
      (p.writeEach rest (p.generate t component).tree).1 := by
  rw [generate_tree]
  cases (p.render t component).result with
  | error e => rfl
  | ok text => exact writeEach_text_tree p t component text rest

namespace Separate
variable {p : Project} {source docs : Location} (hs : p.Separate source docs)
include hs

section Component
variable {t : FileTree} (ht : Plain t) {names : List (List Char)} (hne : names ≠ []) (h : AreNames names)
include ht hne h

theorem generate_cases :
    (∃ formatted, p.IsDocument t (componentAt names) formatted ∧ t.Writable (docs ++ beside names) ∧
      WrittenAt t (docs ++ beside names) (p.generate t (componentAt names)).tree ∧
      (p.generate t (componentAt names)).tree.fileAt? (docs ++ beside names) = some (.text formatted)) ∨
    ((∀ formatted, p.IsDocument t (componentAt names) formatted → ¬ t.Writable (docs ++ beside names)) ∧
      Plain (p.generate t (componentAt names)).tree ∧
      AddsDirectories t (p.generate t (componentAt names)).tree) :=
  generate_path ht (by simp [beside_ne_nil hne]) (hs.docsNames.append h.beside) (hs.destination_eq hne h)

theorem generate_writtenAt : WrittenAt t (docs ++ beside names) (p.generate t (componentAt names)).tree := by
  rcases hs.generate_cases ht hne h with ⟨_, _, _, hw, _⟩ | ⟨_, hp, ha⟩
  · exact hw
  · exact ha.writtenAt hp _

theorem upToDate_generate : p.UpToDate docs (p.generate t (componentAt names)).tree names := by
  have hw := hs.generate_writtenAt ht hne h
  intro formatted hd hwrite
  rw [hs.isDocument_congr ht hw.plain hne h (hw.elsewhere _ fun he => hs.ne_of_append _ _ he.symm)] at hd
  rcases hs.generate_cases ht hne h with ⟨formatted', hd', -, -, hc⟩ | ⟨hno, -⟩
  · rw [hc, hd.unique hd']
  · exact absurd (hwrite.of_grows hw.grows) (hno formatted hd)

theorem generate_fileAt? (hu : p.UpToDate docs t names) (l : Location) :
    (p.generate t (componentAt names)).tree.fileAt? l = t.fileAt? l := by
  rcases hs.generate_cases ht hne h with ⟨formatted, hd, hwrite, hw, hc⟩ | ⟨-, -, ha⟩
  · by_cases hl : l = docs ++ beside names
    · rw [hl, hc, hu formatted hd hwrite]
    · exact hw.elsewhere l hl
  · exact ha.fileAt?_eq l

end Component

theorem upToDate_of_grows {t t' : FileTree} (ht : Plain t) (ht' : Plain t') (hg : Grows t t')
    {names : List (List Char)} (hne : names ≠ []) (h : AreNames names) (hu : p.UpToDate docs t names)
    (hf : t'.fileAt? (source ++ beside names) = t.fileAt? (source ++ beside names))
    (hd : t'.fileAt? (docs ++ beside names) = t.fileAt? (docs ++ beside names)) : p.UpToDate docs t' names := by
  intro formatted hdoc hwrite
  rw [hs.isDocument_congr ht ht' hne h hf] at hdoc
  rw [hd, hu formatted hdoc (hwrite.of_grows hg)]

/-- What generating some components leaves alone: all that is not a document. -/
theorem inTurn_grows {t : FileTree} (ht : Plain t) {components : List String} (hc : AtNames components) :
    Plain (p.generateInTurn t components) ∧ Grows t (p.generateInTurn t components) ∧
      ∀ l, (p.generateInTurn t components).fileAt? (source ++ l) = t.fileAt? (source ++ l) := by
  induction components generalizing t with
  | nil => exact ⟨ht, .rfl t, fun _ => rfl⟩
  | cons component rest ih =>
    obtain ⟨names, hne, h, rfl⟩ := hc component (by simp)
    have hw := hs.generate_writtenAt ht hne h
    obtain ⟨hp, hg, hk⟩ := ih hw.plain fun c hc' => hc c (by simp [hc'])
    refine ⟨hp, hw.grows.trans hg, fun l => (hk l).trans ?_⟩
    exact hw.elsewhere _ fun he => hs.ne_of_append _ _ he.symm

theorem inTurn_upToDate {t : FileTree} (ht : Plain t) {components : List String} (hc : AtNames components)
    {names : List (List Char)} (hne : names ≠ []) (h : AreNames names)
    (hd : ∀ names', names' ≠ [] → AreNames names' → componentAt names' ∈ components →
      beside names' = beside names → names' = names)
    (hu : p.UpToDate docs t names ∨ componentAt names ∈ components) :
    p.UpToDate docs (p.generateInTurn t components) names := by
  induction components generalizing t with
  | nil => exact hu.resolve_right (by simp)
  | cons component rest ih =>
    obtain ⟨names', hne', h', rfl⟩ := hc component (by simp)
    have hw := hs.generate_writtenAt ht hne' h'
    refine ih hw.plain (fun c hc' => hc c (by simp [hc'])) (fun k hk hk' hm => hd k hk hk' (by simp [hm])) ?_
    by_cases heq : names' = names
    · subst heq
      exact .inl (hs.upToDate_generate ht hne h)
    · rcases hu with hu | hm
      · refine .inl (hs.upToDate_of_grows ht hw.plain hw.grows hne h hu ?_ ?_)
        · exact hw.elsewhere _ fun he => hs.ne_of_append _ _ he.symm
        · refine hw.elsewhere _ fun he => heq (hd names' hne' h' (by simp) ?_)
          exact (List.append_cancel_left he).symm
      · rcases List.mem_cons.1 hm with he | hm
        · exact absurd (componentAt_injective h h' he).symm heq
        · exact .inr hm

theorem inTurn_fileAt? {t : FileTree} (ht : Plain t) {components : List String} (hc : AtNames components)
    (hu : ∀ names, names ≠ [] → AreNames names → componentAt names ∈ components → p.UpToDate docs t names)
    (l : Location) : (p.generateInTurn t components).fileAt? l = t.fileAt? l := by
  induction components generalizing t with
  | nil => rfl
  | cons component rest ih =>
    obtain ⟨names, hne, h, rfl⟩ := hc component (by simp)
    have hw := hs.generate_writtenAt ht hne h
    have hsame := hs.generate_fileAt? ht hne h (hu names hne h (by simp))
    have hrest := ih hw.plain (fun c hc' => hc c (by simp [hc'])) fun k hk hk' hm =>
      hs.upToDate_of_grows ht hw.plain hw.grows hk hk' (hu k hk hk' (by simp [hm])) (hsame _) (hsame _)
    exact hrest.trans (hsame l)

theorem writeEach_tree {t₀ t : FileTree} (ht₀ : Plain t₀) (ht : Plain t) {components : List String}
    (hc : AtNames components) (hk : ∀ l, t.fileAt? (source ++ l) = t₀.fileAt? (source ++ l)) :
    (p.writeEach (p.renderings t₀ components) t).1 = p.generateInTurn t components := by
  induction components generalizing t with
  | nil => rfl
  | cons component rest ih =>
    obtain ⟨names, hne, h, rfl⟩ := hc component (by simp)
    have hw := hs.generate_writtenAt ht hne h
    have hr := hs.render_congr ht₀ ht hne h (hk _)
    rw [renderings, List.map_cons, ← hr, writeEach_render_tree]
    refine ih hw.plain (fun c hc' => hc c (by simp [hc'])) fun l => ?_
    rw [hw.elsewhere _ fun he => hs.ne_of_append _ _ he.symm, hk]

end Separate

/-- The documents of a tree are what a run over all components would write. -/
structure Current (p : Project) (source docs : Location) (t : FileTree) : Prop where
  plain : Plain t
  directory : t.get? source = some .directory
  upToDate : ∀ names, p.Found t source names → p.UpToDate docs t names

/-- No two components have the same document. -/
def Distinct (p : Project) (source : Location) (t : FileTree) : Prop :=
  ∀ names names', p.Found t source names → p.Found t source names' → beside names = beside names' →
    names = names'

theorem Found.of_grows {p : Project} {t t' : FileTree} {source : Location} {names : List (List Char)}
    (h : p.Found t source names) (hg : Grows t t') : p.Found t' source names :=
  ⟨h.ne_nil, fun hn => h.file (hg.fileAt?_eq_none hn), h.kept, h.component⟩

theorem Distinct.of_grows {p : Project} {t t' : FileTree} {source : Location} (h : p.Distinct source t')
    (hg : Grows t t') : p.Distinct source t :=
  fun names names' hn hn' he => h names names' (hn.of_grows hg) (hn'.of_grows hg) he

theorem found_congr {p : Project} {t t' : FileTree} {source : Location}
    (h : ∀ l, t'.fileAt? (source ++ l) = t.fileAt? (source ++ l)) (names : List (List Char)) :
    p.Found t' source names ↔ p.Found t source names :=
  ⟨fun hf => ⟨hf.ne_nil, h names ▸ hf.file, hf.kept, hf.component⟩,
    fun hf => ⟨hf.ne_nil, (h names).symm ▸ hf.file, hf.kept, hf.component⟩⟩

namespace Separate
variable {p : Project} {source docs : Location} (hs : p.Separate source docs)
include hs

theorem generateAll_tree {t : FileTree} (ht : Plain t) (hd : t.get? source = some .directory) :
    ∃ components, p.discover t = .ok components ∧ AtNames components ∧
      (∀ names, names ≠ [] → AreNames names → (componentAt names ∈ components ↔ p.Found t source names)) ∧
      (p.generateAll t).tree = p.generateInTurn t components := by
  obtain ⟨components, hok, hm⟩ := hs.discover ht hd
  have hnames : AtNames components := by
    intro c hc
    obtain ⟨names, hf, rfl⟩ := (hm c).1 hc
    exact ⟨names, hf.ne_nil, hf.areNames ht, rfl⟩
  refine ⟨components, hok, hnames, fun names hne h => ?_, ?_⟩
  · rw [hm]
    constructor
    · rintro ⟨names', hf, he⟩
      rwa [componentAt_injective h (hf.areNames ht) he]
    · exact fun hf => ⟨names, hf, rfl⟩
  · rw [generateAll_eq_generateEach hs.outFile hok]
    exact hs.writeEach_tree ht ht hnames fun _ => rfl

theorem current_generateAll {t : FileTree} (ht : Plain t) (hd : t.get? source = some .directory)
    (hdist : p.Distinct source t) : p.Current source docs (p.generateAll t).tree := by
  obtain ⟨components, -, hc, hm, htree⟩ := hs.generateAll_tree ht hd
  rw [htree]
  obtain ⟨hp, hg, hk⟩ := hs.inTurn_grows ht hc
  refine ⟨hp, hg.get?_directory hd, fun names hf => ?_⟩
  rw [found_congr hk] at hf
  have h := hf.areNames ht
  refine hs.inTurn_upToDate ht hc hf.ne_nil h (fun names' hne' h' hm' he => ?_)
    (.inr ((hm names hf.ne_nil h).2 hf))
  exact hdist names' names ((hm names' hne' h').1 hm') hf he

theorem generateAll_fileAt? {t : FileTree} (h : p.Current source docs t) (l : Location) :
    (p.generateAll t).tree.fileAt? l = t.fileAt? l := by
  obtain ⟨components, -, hc, hm, htree⟩ := hs.generateAll_tree h.plain h.directory
  rw [htree]
  exact hs.inTurn_fileAt? h.plain hc (fun names hne hn hmem => h.upToDate names ((hm names hne hn).1 hmem)) l

/-- After a file was saved, what does not depend on it is still up to date. -/
theorem upToDate_of_writtenAt {t t' : FileTree} (h : p.Current source docs t) {saved : List (List Char)}
    (hw : WrittenAt t (source ++ saved) t') {names : List (List Char)} (hf : p.Found t' source names)
    (hne : names ≠ saved) (hb : beside names ≠ saved) : p.UpToDate docs t' names := by
  have hother (l : List (List Char)) (hl : l ≠ saved) : t'.fileAt? (source ++ l) = t.fileAt? (source ++ l) :=
    hw.elsewhere _ fun he => hl (List.append_cancel_left he)
  have hft : p.Found t source names := ⟨hf.ne_nil, hother names hne ▸ hf.file, hf.kept, hf.component⟩
  exact hs.upToDate_of_grows h.plain hw.plain hw.grows hf.ne_nil (hf.areNames hw.plain) (h.upToDate names hft)
    (hother _ hb) (hw.elsewhere _ (hs.ne_of_append _ _))

/-- Generating the one component that is not up to date. -/
theorem current_generate {t : FileTree} (ht : Plain t) (hd : t.get? source = some .directory)
    (hdist : p.Distinct source t) {names : List (List Char)} (hf : p.Found t source names)
    (hu : ∀ names', p.Found t source names' → names' ≠ names → p.UpToDate docs t names') :
    p.Current source docs (p.generate t (componentAt names)).tree := by
  have hn := hf.areNames ht
  have hw := hs.generate_writtenAt ht hf.ne_nil hn
  have hk (l : List (List Char)) :
      (p.generate t (componentAt names)).tree.fileAt? (source ++ l) = t.fileAt? (source ++ l) :=
    hw.elsewhere _ fun he => hs.ne_of_append _ _ he.symm
  refine ⟨hw.plain, hw.grows.get?_directory hd, fun names' hf' => ?_⟩
  rw [found_congr hk] at hf'
  by_cases heq : names' = names
  · subst heq
    exact hs.upToDate_generate ht hf.ne_nil hn
  · refine hs.upToDate_of_grows ht hw.plain hw.grows hf'.ne_nil (hf'.areNames ht) (hu names' hf' heq) (hk _) ?_
    exact hw.elsewhere _ fun he => heq (hdist names' names hf' hf (List.append_cancel_left he))

end Separate

/-! Documents that are kept up to date one at a time are those that a run over all components gives. -/

namespace Separate
variable {p : Project} {source docs : Location} (hs : p.Separate source docs)
include hs

theorem isOutput_source (names : List (List Char)) (h : AreNames names) :
    p.isOutput (Location.path (source ++ names)) = false := by
  simp only [isOutput, hs.outFile, hs.outDir]
  rw [← Bool.not_eq_true, Location.startsWith_path_iff (hs.sourceNames.append h) hs.docsNames]
  rintro ⟨rest, he⟩
  exact hs.ne_of_append rest names he

theorem namedComponent?_source {names : List (List Char)} (hne : names ≠ []) (h : AreNames names) :
    p.namedComponent? (Location.path (source ++ names)) =
      if p.config.isComponent (ofNames names) then some (componentAt names) else none := by
  rw [← Location.join_path source hne h hs.sourceNames, ← hs.componentsDir, namedComponent?_join h]

theorem isSupplementOf_iff {names names' : List (List Char)} (h : AreNames names) (hne' : names' ≠ [])
    (h' : AreNames names') :
    p.isSupplementOf (Location.path (source ++ names)).normalize (componentAt names') = true ↔
      beside names' = names := by
  rw [isSupplementOf, hs.supplement_eq hne' h', Option.any_some,
    Location.normalize_path (hs.sourceNames.append h),
    Location.same_path_iff (hs.sourceNames.append h) (hs.sourceNames.append h'.beside), List.append_cancel_left_eq]
  exact eq_comm

theorem handle_changed_tree (t : FileTree) (path : Path) :
    (p.handle t (.changed path)).tree =
      match p.componentFor t path with
      | .ok (some component) => (p.generate t component).tree
      | _ => t := by
  rw [tree_handle_changed]
  unfold regenerateFor
  cases p.componentFor t path with
  | error e => rfl
  | ok component =>
    cases component with
    | none => rfl
    | some component => simp [hs.outFile]

/-- The component for a file that is there: its own, or else the one it is the supplementary file of. -/
theorem componentFor_cases {t : FileTree} (ht : Plain t) (hd : t.get? source = some .directory)
    {names : List (List Char)} (hne : names ≠ []) (hn : AreNames names)
    (hk : ∀ n ∈ names.dropLast, isSkipped n = false) (hf : t.fileAt? (source ++ names) ≠ none) :
    (∃ own, p.Found t source own ∧
      p.componentFor t (Location.path (source ++ names)) = .ok (some (componentAt own)) ∧
      (own = names ∨ ¬ p.Found t source names ∧ beside own = names)) ∨
    (p.componentFor t (Location.path (source ++ names)) = .ok none ∧ ¬ p.Found t source names ∧
      ∀ own, p.Found t source own → beside own ≠ names) := by
  rw [componentFor, hs.isOutput_source names hn, hs.namedComponent?_source hne hn]
  simp only [Bool.false_eq_true, if_false]
  by_cases hc : p.config.isComponent (ofNames names) = true
  · rw [if_pos hc]
    exact .inl ⟨names, ⟨hne, hf, hk, hc⟩, rfl, .inl rfl⟩
  · have hnot : ¬ p.Found t source names := fun h => hc h.component
    obtain ⟨components, hok, hm⟩ := hs.discover ht hd
    rw [if_neg hc, hok]
    simp only [bind, Except.bind]
    cases hfind : components.find? (p.isSupplementOf (Location.path (source ++ names)).normalize) with
    | none =>
      refine .inr ⟨rfl, hnot, fun own ho hb => ?_⟩
      have := List.find?_eq_none.1 hfind _ ((hm _).2 ⟨own, ho, rfl⟩)
      exact this ((hs.isSupplementOf_iff hn ho.ne_nil (ho.areNames ht)).2 hb)
    | some owner =>
      obtain ⟨own, ho, rfl⟩ := (hm owner).1 (List.mem_of_find?_eq_some hfind)
      have hb := (hs.isSupplementOf_iff hn ho.ne_nil (ho.areNames ht)).1 (List.find?_some hfind)
      exact .inl ⟨own, ho, rfl, .inr ⟨hnot, hb⟩⟩

theorem plain_handle {t : FileTree} (ht : Plain t) (hd : t.get? source = some .directory)
    {names : List (List Char)} (hne : names ≠ []) (hn : AreNames names)
    (hk : ∀ n ∈ names.dropLast, isSkipped n = false) (hf : t.fileAt? (source ++ names) ≠ none) :
    Plain (p.handle t (.changed (Location.path (source ++ names)))).tree := by
  rw [hs.handle_changed_tree]
  rcases hs.componentFor_cases ht hd hne hn hk hf with ⟨own, ho, hc, -⟩ | ⟨hc, -⟩
  · rw [hc]
    exact (hs.generate_writtenAt ht ho.ne_nil (ho.areNames ht)).plain
  · rw [hc]
    exact ht

/-- After one event all is up to date again, if it tells of the one file that was saved. -/
theorem current_handle {t t' : FileTree} (h : p.Current source docs t) {names : List (List Char)}
    (hne : names ≠ []) (hn : AreNames names) (hk : ∀ n ∈ names.dropLast, isSkipped n = false)
    (hw : WrittenAt t (source ++ names) t') (hf : t'.fileAt? (source ++ names) ≠ none)
    (hdist : p.Distinct source t') :
    p.Current source docs (p.handle t' (.changed (Location.path (source ++ names)))).tree := by
  have hd := hw.grows.get?_directory h.directory
  rw [hs.handle_changed_tree]
  rcases hs.componentFor_cases hw.plain hd hne hn hk hf with ⟨own, ho, hc, hown⟩ | ⟨hc, hnot, hno⟩
  · rw [hc]
    refine hs.current_generate hw.plain hd hdist ho fun names' hf' hne' => ?_
    refine hs.upToDate_of_writtenAt h hw hf' ?_ fun hb => hne' (hdist names' own hf' ho ?_)
    · rcases hown with rfl | ⟨hnot, -⟩
      · exact hne'
      · exact fun he => hnot (he ▸ hf')
    · rcases hown with rfl | ⟨-, hb'⟩
      · rw [← hb, beside_beside (hf'.areNames hw.plain)]
      · rw [hb, hb']
  · rw [hc]
    exact ⟨hw.plain, hd, fun names' hf' =>
      hs.upToDate_of_writtenAt h hw hf' (fun he => hnot (he ▸ hf')) (hno names' hf')⟩

end Separate

def sourcePath (p : Project) (names : List (List Char)) : Path := p.config.componentsDir.join (ofNames names)

/-- A file is put below the directory of the components, with the directories above it. -/
def save (p : Project) (t : FileTree) (names : List (List Char)) (content : Content) : FileTree :=
  t.put p.here (p.sourcePath names) (.file content)

/-- Files are saved below the directory of the components, and each is told of before the next. None
is in a directory that is skipped. -/
inductive Saves (p : Project) (t : FileTree) : FileTree → Prop
  | start : Saves p t t
  | save {t' : FileTree} {names : List (List Char)} {content : Content} (before : Saves p t t')
      (ne_nil : names ≠ []) (areNames : AreNames names) (kept : ∀ n ∈ names.dropLast, isSkipped n = false)
      (done : (p.save t' names content).read p.here (p.sourcePath names) = .ok content) :
      Saves p t (p.handle (p.save t' names content) (.changed (p.sourcePath names))).tree

namespace Separate
variable {p : Project} {source docs : Location} (hs : p.Separate source docs)
include hs

theorem sourcePath_eq {names : List (List Char)} (hne : names ≠ []) (hn : AreNames names) :
    p.sourcePath names = Location.path (source ++ names) := by
  rw [sourcePath, hs.componentsDir, Location.join_path source hne hn hs.sourceNames]

theorem save_writtenAt {t : FileTree} (ht : Plain t) {names : List (List Char)} (hne : names ≠ [])
    (hn : AreNames names) (content : Content) : WrittenAt t (source ++ names) (p.save t names content) := by
  rw [save, hs.sourcePath_eq hne hn]
  obtain ⟨front, n, rfl⟩ := exists_eq_append hne
  have hall := hs.sourceNames.append hn
  rw [← List.append_assoc] at hall ⊢
  exact ht.writtenAt_put p.here hall content

theorem fileAt?_of_read {t : FileTree} (ht : Plain t) {names : List (List Char)} (hne : names ≠ [])
    (hn : AreNames names) {content : Content} (h : t.read p.here (p.sourcePath names) = .ok content) :
    t.fileAt? (source ++ names) ≠ none := by
  rw [hs.sourcePath_eq hne hn] at h
  rw [← ht.read_path p.here (hs.sourceNames.append hn), h]
  simp [Except.toOption]

theorem plain_of_saves {t t' : FileTree} (ht : Plain t) (hd : t.get? source = some .directory)
    (h : p.Saves t t') : Plain t' ∧ t'.get? source = some .directory := by
  induction h with
  | start => exact ⟨ht, hd⟩
  | @save t₁ names content _ hne hn hk hdone ih =>
    obtain ⟨ht', hd'⟩ := ih
    have hw := hs.save_writtenAt ht' hne hn content
    have hsaved := hw.grows.get?_directory hd'
    have hg := handle_changed_grows p (p.save t₁ names content) (p.sourcePath names)
    refine ⟨?_, hg.get?_directory hsaved⟩
    have hf := hs.fileAt?_of_read hw.plain hne hn hdone
    rw [hs.sourcePath_eq hne hn]
    exact hs.plain_handle hw.plain hsaved hne hn hk hf

theorem current_of_saves {t t' : FileTree} (ht : p.Distinct source t → p.Current source docs t)
    (h : p.Saves t t') (hdist : p.Distinct source t') : p.Current source docs t' := by
  induction h with
  | start => exact ht hdist
  | @save t₁ names content _ hne hn hk hdone ih =>
    have hsaved := hdist.of_grows (handle_changed_grows p _ _)
    have hcur := ih (hsaved.of_grows (put_file_grows _ _ _ _))
    have hw := hs.save_writtenAt hcur.plain hne hn content
    have hf := hs.fileAt?_of_read hw.plain hne hn hdone
    rw [hs.sourcePath_eq hne hn]
    exact hs.current_handle hcur hne hn hk hw hf hsaved

theorem distinct_of_destinations {t : FileTree} (ht : Plain t) (hd : t.get? source = some .directory)
    (h : ∀ components, p.discover t = .ok components → ∀ a ∈ components, ∀ b ∈ components,
      p.destination a = p.destination b → a = b) : p.Distinct source t := by
  obtain ⟨components, hok, hm⟩ := hs.discover ht hd
  intro names names' hf hf' he
  have hn := hf.areNames ht
  have hn' := hf'.areNames ht
  refine componentAt_injective hn hn' ?_
  refine h components hok _ ((hm _).2 ⟨names, hf, rfl⟩) _ ((hm _).2 ⟨names', hf', rfl⟩) ?_
  rw [hs.destination_eq hf.ne_nil hn, hs.destination_eq hf'.ne_nil hn', he]

end Separate

/-- Keeping documents up to date while files are saved is as good as generating all of them again. -/
theorem generateAll_after_saves {c : Config} (hc : SeparateConfig c) {p : Project}
    (hp : p.config = c.rootedAtComponents) {t t' : FileTree} (ht : Plain t)
    (hd : t.isDirectory p.here c.componentsDir = true) (hsaves : p.Saves (p.generateAll t).tree t')
    (hdist : ∀ components, p.discover t' = .ok components → ∀ a ∈ components, ∀ b ∈ components,
      p.destination a = p.destination b → a = b) (l : Location) :
    (p.generateAll t').tree.fileAt? l = t'.fileAt? l := by
  obtain ⟨source, docs, hroot, hs⟩ := hc.separate hp
  rw [hroot, ht.isDirectory_path p.here hs.sourceNames] at hd
  obtain ⟨components, -, hc, -, htree⟩ := hs.generateAll_tree ht hd
  obtain ⟨hplain, hgrows, -⟩ := hs.inTurn_grows ht hc
  rw [← htree] at hplain hgrows
  obtain ⟨ht', hd'⟩ := hs.plain_of_saves hplain (hgrows.get?_directory hd) hsaves
  refine hs.generateAll_fileAt? (hs.current_of_saves (fun hdist => ?_) hsaves ?_) l
  · exact hs.current_generateAll ht hd (hdist.of_grows hgrows)
  · exact hs.distinct_of_destinations ht' hd' hdist

theorem separate_siteConfig {root docs pattern : String}
    (h : let c := siteConfig root docs pattern
      (c.componentsDir.isAbsolute = true ∧ c.componentsDir.normalize = c.componentsDir) ∧
      (c.outDir.isAbsolute = true ∧ c.outDir.normalize = c.outDir) ∧
      c.outDir.startsWith c.componentsDir = false ∧ c.componentsDir.startsWith c.outDir = false) :
    SeparateConfig (siteConfig root docs pattern) := by
  obtain ⟨⟨hs, hs'⟩, ⟨hd, hd'⟩, ho, hi⟩ := h
  exact ⟨rfl, rfl, rfl, hs, hs', hd, hd', ho, hi⟩

theorem generateAll_after_saves_site :
    let p := siteProject (siteConfig "src" "/w/docs" "*.vue")
    let t := siteTree [(["src"], .directory), (["src", "A.vue"], .file (.text "")), (["docs"], .directory),
      (["docs", "A.md"], .file (.text "# A.vue!")), (["src", "A.md"], .file (.text "!"))]
    (p.generateAll t).tree.fileAt? [['w'], "docs".toList, "A.md".toList] =
      t.fileAt? [['w'], "docs".toList, "A.md".toList] := by
  intro p t
  let before := siteTree [(["src"], .directory), (["src", "A.vue"], .file (.text ""))]
  let middle := siteTree [(["src"], .directory), (["src", "A.vue"], .file (.text "")), (["docs"], .directory),
    (["docs", "A.md"], .file (.text "# A.vue"))]
  have hstart : (p.generateAll before).tree = middle := by decide +kernel
  have hsaved : (p.handle (p.save middle ["A.md".toList] (.text "!"))
      (.changed (p.sourcePath ["A.md".toList]))).tree = t := by decide +kernel
  have hsession : p.Saves (p.generateAll before).tree t := by
    rw [hstart, ← hsaved]
    exact .save .start (by decide) (by decide) (by decide) (by decide +kernel)
  have hsep : SeparateConfig (siteConfig "src" "/w/docs" "*.vue") := separate_siteConfig (by decide +kernel)
  have hplain : Plain before := plain_of_isPlain (by decide +kernel)
  have hdir : before.isDirectory p.here (siteConfig "src" "/w/docs" "*.vue").componentsDir = true := by
    decide +kernel
  refine generateAll_after_saves hsep rfl hplain hdir hsession (fun components hd => ?_) _
  have hone : p.discover t = .ok ["A.vue"] := by decide +kernel
  obtain rfl : ["A.vue"] = components := Except.ok.inj (hone.symm.trans hd)
  simp

/-- Where the directory of the components is a file, its document is its own supplementary file. And
a path with two slashes is not that of the component. -/
theorem generateAll_changes_files :
    (let c := siteConfig "A.vue" "/w/A.docs" "*"
      let p := siteProject c
      let t := siteTree [(["A.vue"], .file (.text ""))]
      let t' := siteTree [(["A.vue"], .file (.text "")), (["A.md"], .file (.text "# "))]
      SeparateConfig c ∧ Plain t ∧ (p.generateAll t).result.toOption.isSome = true ∧
      (p.generateAll t).tree = t' ∧ p.discover t' = .ok [""] ∧
      (p.generateAll t').tree.fileAt? [['w'], "A.md".toList] ≠ t'.fileAt? [['w'], "A.md".toList]) ∧
    (let c := siteConfig "src" "/w/docs" "a/b.vue"
      let p := siteProject c
      let t := siteTree [(["src"], .directory)]
      let relative := Path.ofString "a//b.vue"
      let path := c.componentsDir.join relative
      let saved := t.put p.here path (.file (.text ""))
      SeparateConfig c ∧ Plain t ∧ (p.generateAll t).result.toOption.isSome = true ∧
      (p.generateAll t).tree = t ∧ relative.segments = [.name "a".toList, .name "b.vue".toList] ∧
      saved.read p.here path = .ok (.text "") ∧ p.discover (p.handle saved (.changed path)).tree = .ok ["a/b.vue"] ∧
      (p.generateAll (p.handle saved (.changed path)).tree).tree.fileAt?
          [['w'], "docs".toList, "a".toList, "b.md".toList] ≠
        (p.handle saved (.changed path)).tree.fileAt? [['w'], "docs".toList, "a".toList, "b.md".toList]) := by
  exact ⟨⟨separate_siteConfig (by decide +kernel), plain_of_isPlain (by decide +kernel), by decide +kernel⟩,
    separate_siteConfig (by decide +kernel), plain_of_isPlain (by decide +kernel), by decide +kernel⟩

end ComponentDocs.Project
