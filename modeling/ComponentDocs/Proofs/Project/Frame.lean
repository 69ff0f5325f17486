import ComponentDocs.Project.Watch
import ComponentDocs.Proofs.FileTree.Descent
/-! What the operations on a project leave behind: the only files that are new or changed are those that the
reported paths lead to, and the only directories that are new lie on the way to a destination. -/
namespace ComponentDocs.Project
open FileTree ComponentDocs.Path

/-- The files that an operation reports as written. One that ends in an error reports none. -/
def Outcome.written (o : Outcome Report) : List Path :=
  match o.result with
  | .ok report => report.written
  | .error _ => []

/-- The document of a component by some files, as it is written. -/
def IsDocument (p : Project) (t : FileTree) (component formatted : String) : Prop :=
  ∃ text, (p.render t component).result = .ok text ∧ p.formatter text = .ok formatted

theorem IsDocument.unique {p : Project} {t : FileTree} {component a b : String}
    (ha : p.IsDocument t component a) (hb : p.IsDocument t component b) : a = b := by
  obtain ⟨text, ht, ha⟩ := ha
  obtain ⟨text', ht', hb⟩ := hb
  rw [ht, Except.ok.injEq] at ht'
  subst ht'
  rw [ha, Except.ok.injEq] at hb
  exact hb

/-- The files that the documents of some components are written to. -/
def targets (p : Project) (components : List String) : List Path :=
  match p.config.outFile with
  | some file => [file]
  | none => components.map p.destination

theorem makeParent_footprint (here : Location) (t : FileTree) (path : Path) :
    Footprint here t (makeParent here t path).1 [] [path] := by
  have hsame : Footprint here t t [] [path] :=
    (Footprint.rfl here t).mono (List.Subset.refl _) (List.nil_subset _)
  unfold makeParent
  split
  · exact hsame
  · next parent hparent =>
    split
    · exact hsame
    · have hmade := (makeDirectories_footprint t here parent).of_front (segments_parent? hparent)
      split <;> next hm => rwa [hm] at hmade

theorem makeParent_addsDirectories (here : Location) (t : FileTree) (path : Path) :
    AddsDirectories t (makeParent here t path).1 :=
  (makeParent_footprint here t path).addsDirectories

theorem writeFile_eq_ok {here : Location} {t t' : FileTree} {text : String} {path : Path}
    (h : writeFile here t text path = (t', .ok ())) :
    ∃ l, Grows t t' ∧ t'.find here path = .ok (l, .file (.text text)) ∧
      ∀ m, m ≠ l → t'.fileAt? m = t.fileAt? m := by
  unfold writeFile at h
  have ha := makeParent_addsDirectories here t path
  split at h
  · cases h
  · next t₁ hm =>
    rw [hm] at ha
    split at h
    · next t₂ hw =>
      obtain ⟨rfl, -⟩ := Prod.mk.inj h
      obtain ⟨l, hg, hf, hr⟩ := write_eq_ok hw
      refine ⟨l, ha.grows.trans hg, hf, fun m hl => ?_⟩
      rw [fileAt?_congr (hr m hl), ha.fileAt?_eq m]
    · cases h

theorem writeFile_footprint {here : Location} {t t' : FileTree} {text : String} {path : Path}
    (h : writeFile here t text path = (t', .ok ())) : Footprint here t t' [path] [path] := by
  unfold writeFile at h
  have hmade := makeParent_footprint here t path
  split at h
  · cases h
  · next t₁ hm =>
    rw [hm] at hmade
    split at h
    · next t₂ hw =>
      obtain ⟨rfl, -⟩ := Prod.mk.inj h
      exact hmade.trans (FileTree.write_footprint hw)
    · cases h

theorem writeFile_footprint_error {here : Location} {t t' : FileTree} {text : String} {path : Path} {e : Error}
    (h : writeFile here t text path = (t', .error e)) : Footprint here t t' [] [path] := by
  unfold writeFile at h
  have hmade := makeParent_footprint here t path
  split at h
  · next hm =>
    rw [hm] at hmade
    obtain ⟨rfl, -⟩ := Prod.mk.inj h
    exact hmade
  · next hm =>
    rw [hm] at hmade
    split at h
    · cases h
    · obtain ⟨rfl, -⟩ := Prod.mk.inj h
      exact hmade

/-- What a written document leaves: the formatted text, wherever its path leads. -/
theorem write_eq_ok {p : Project} {t : FileTree} {text : String} {path : Path}
    (h : (p.write t text path).result = .ok ()) :
    ∃ formatted, p.formatter text = .ok formatted ∧
      writeFile p.here t formatted path = ((p.write t text path).tree, .ok ()) := by
  rw [write_eq] at h ⊢
  cases hf : p.formatter text with
  | error e => simp [hf] at h
  | ok formatted =>
    rw [hf] at h
    dsimp only at h ⊢
    exact ⟨formatted, rfl, Prod.ext rfl h⟩

theorem write_footprint {p : Project} {t : FileTree} {text : String} {path : Path}
    (h : (p.write t text path).result = .ok ()) : Footprint p.here t (p.write t text path).tree [path] [path] := by
  obtain ⟨formatted, -, hw⟩ := write_eq_ok h
  exact writeFile_footprint hw

theorem write_footprint_error {p : Project} {t : FileTree} {text : String} {path : Path} {e : Error}
    (h : (p.write t text path).result = .error e) : Footprint p.here t (p.write t text path).tree [] [path] := by
  rw [write_eq] at h ⊢
  cases hf : p.formatter text with
  | error e => exact (Footprint.rfl p.here t).mono (List.Subset.refl _) (List.nil_subset _)
  | ok formatted =>
    rw [hf] at h
    dsimp only at h ⊢
    exact writeFile_footprint_error (Prod.ext rfl h)

theorem write_eq_error {p : Project} {t : FileTree} {text : String} {path : Path} {e : Error}
    (h : (p.write t text path).result = .error e) : AddsDirectories t (p.write t text path).tree :=
  (write_footprint_error h).addsDirectories

theorem writeEach_footprint (p : Project) (rs : Renderings) (t : FileTree) :
    Footprint p.here t (p.writeEach rs t).1 (p.writeEach rs t).2.written (rs.map fun r => p.destination r.1) := by
  induction rs generalizing t with
  | nil => exact .rfl p.here t
  | cons r rest ih =>
    obtain ⟨component, rendered⟩ := r
    cases rendered with
    | error e => exact (ih t).mono (List.Subset.refl _) (List.subset_cons_self _ _)
    | ok text =>
      have ih' := ih (p.write t text (p.destination component)).tree
      unfold writeEach
      dsimp only
      split
      · next ho =>
        exact (write_footprint ho).trans ih'
      · next ho =>
        exact (write_footprint_error ho).trans ih'

theorem generateTogether_footprint (p : Project) (t : FileTree) (components : List String) (file : Path) :
    Footprint p.here t (p.generateTogether t components file).tree
      (p.generateTogether t components file).written [file] := by
  unfold generateTogether
  dsimp only
  split
  · exact (Footprint.rfl p.here t).mono (List.Subset.refl _) (List.nil_subset _)
  · cases ho : (p.write t ("\n\n".intercalate (p.renderings t components).texts) file).result with
    | ok _ => simpa [Outcome.written, Outcome.map, ho, Except.map] using write_footprint ho
    | error e => simpa [Outcome.written, Outcome.map, ho, Except.map] using write_footprint_error ho

def discovered (p : Project) (t : FileTree) : List String := (p.discover t).toOption.getD []

theorem generateAll_footprint (p : Project) (t : FileTree) :
    Footprint p.here t (p.generateAll t).tree (p.generateAll t).written (p.targets (p.discovered t)) := by
  unfold generateAll
  cases hd : p.discover t with
  | error e => exact (Footprint.rfl p.here t).mono (List.Subset.refl _) (List.nil_subset _)
  | ok components =>
    have hfound : p.discovered t = components := by simp [discovered, hd, Except.toOption]
    rw [hfound]
    dsimp only
    cases hf : p.config.outFile with
    | some file => simpa [targets, hf] using generateTogether_footprint p t components file
    | none =>
      have hways : (p.renderings t components).map (fun r => p.destination r.1) = p.targets components := by
        simp [targets, hf, renderings]
      rw [← hways]
      exact writeEach_footprint p _ t

theorem generate_eq_ok {p : Project} {t : FileTree} {component : String} {path : Path}
    (h : (p.generate t component).result = .ok path) :
    path = p.destination component ∧ ∃ text, (p.render t component).result = .ok text ∧
      (p.write t text path).result = .ok () ∧ (p.generate t component).tree = (p.write t text path).tree := by
  unfold generate at h ⊢
  dsimp only at h ⊢
  cases hr : (p.render t component).result with
  | error e => simp [hr] at h
  | ok text =>
    rw [hr] at h
    dsimp only at h ⊢
    cases ho : (p.write t text (p.destination component)).result with
    | error e => simp [Outcome.map, ho, Except.map] at h
    | ok _ =>
      obtain rfl : p.destination component = path := by simpa [Outcome.map, ho, Except.map] using h
      exact ⟨rfl, text, rfl, ho, rfl⟩

theorem generate_footprint (p : Project) (t : FileTree) (component : String) :
    Footprint p.here t (p.generate t component).tree (p.generate t component).result.toOption.toList
      [p.destination component] := by
  unfold generate
  dsimp only
  split
  · exact (Footprint.rfl p.here t).mono (List.Subset.refl _) (List.nil_subset _)
  · next text _ =>
    cases ho : (p.write t text (p.destination component)).result with
    | ok _ => simpa [Outcome.map, ho, Except.map, Except.toOption] using write_footprint ho
    | error e => simpa [Outcome.map, ho, Except.map, Except.toOption] using write_footprint_error ho

/-- The component that is generated again for a changed file, if there is one. -/
def affected (p : Project) (t : FileTree) (path : Path) : List String :=
  ((p.componentFor t path).toOption.getD none).toList

theorem regenerateFor_footprint (p : Project) (t : FileTree) (path : Path) :
    Footprint p.here t (p.regenerateFor t path).tree (p.regenerateFor t path).written
      ((p.affected t path).flatMap fun component => p.targets [component]) := by
  have hsame : Footprint p.here t t [] ((p.affected t path).flatMap fun component => p.targets [component]) :=
    (Footprint.rfl p.here t).mono (List.Subset.refl _) (List.nil_subset _)
  unfold regenerateFor
  cases hc : p.componentFor t path with
  | error e => exact hsame
  | ok owner =>
    cases owner with
    | none => exact hsame
    | some component =>
      have haffected : p.affected t path = [component] := by simp [affected, hc, Except.toOption]
      rw [haffected, List.flatMap_singleton]
      dsimp only
      split
      · next hf =>
        obtain ⟨file, hf⟩ := Option.isSome_iff_exists.1 hf
        simpa [targets, hf] using generateAll_footprint p t
      · next hf =>
        have hgen := generate_footprint p t component
        rw [Option.not_isSome_iff_eq_none] at hf
        cases ho : (p.generate t component).result <;>
          simpa [Outcome.written, targets, hf, ho, Except.toOption] using hgen

theorem regenerateFor_frame (p : Project) (t : FileTree) (path : Path) :
    Frame p.here t (p.regenerateFor t path).tree (p.regenerateFor t path).written :=
  (regenerateFor_footprint p t path).frame

theorem tree_handle_changed (p : Project) (t : FileTree) (path : Path) :
    (p.handle t (.changed path)).tree = (p.regenerateFor t path).tree := by
  unfold handle
  dsimp only
  split <;> rfl

theorem written_handle_changed (p : Project) (t : FileTree) (path : Path) :
    (p.handle t (.changed path)).written = (p.regenerateFor t path).written := by
  unfold handle
  dsimp only
  split
  · rfl
  · next h => simp [Outcome.written, h]

theorem handle_changed_grows (p : Project) (t : FileTree) (path : Path) :
    Grows t (p.handle t (.changed path)).tree :=
  tree_handle_changed p t path ▸ (regenerateFor_frame p t path).grows

/-! Writing a text to the path of a place, in a tree without links. -/

/-- A text that is written is at its place. One that cannot be written changes no file. -/
theorem writeFile_path {t : FileTree} (ht : Plain t) (here : Location) {l : Location} (hne : l ≠ []) (hl : AreNames l)
    (text : String) :
    (t.Writable l ∧ ∃ t', writeFile here t text l.path = (t', .ok ()) ∧ WrittenAt t l t' ∧
      t'.fileAt? l = some (.text text)) ∨
    (¬ t.Writable l ∧ ∃ t' e, writeFile here t text l.path = (t', .error e) ∧ Plain t' ∧
      AddsDirectories t t') := by
  obtain ⟨dir, n, rfl⟩ := exists_eq_append hne
  have he : (Location.path dir).isEmpty = false := rfl
  have hm := ht.made_makeDirectories here hl.left
  have ha := makeDirectories_addsDirectories t here (Location.path dir)
  unfold writeFile makeParent
  rw [Location.parent?_path hl, writable_append_iff]
  simp only [he, Bool.false_eq_true, if_false]
  cases hr : t.makeDirectories here (Location.path dir) with
  | mk t₁ r =>
    rw [hr] at hm ha
    cases r with
    | error e =>
      refine .inr ⟨fun h => ?_, t₁, _, rfl, hm.plain, ha⟩
      exact absurd (hm.ok h.1) (by simp)
    | ok _ =>
      have hdir := hm.directory rfl
      dsimp only at hm ha hdir ⊢
      rcases hm.plain.write_path here hl (.text text) with ⟨-, hn, hnd, hw⟩ | ⟨hno, e, hw⟩
      · rw [hw]
        refine .inl ⟨⟨(hm.plain.passable hdir).of_grows ha.grows, hn, fun h => hnd (ha.grows.get?_directory h)⟩,
          _, rfl, (hm.plain.writtenAt_set hdir hn hnd _).of_addsDirectories ha, ?_⟩
        exact fileAt?_eq_some_iff.2 (get?_set_self t₁ (by simp) _)
      · rw [hw]
        refine .inr ⟨fun h => hno ⟨hdir, h.2.1, ?_⟩, t₁, _, rfl, hm.plain, ha⟩
        rw [hm.elsewhere _ fun hp => absurd hp.length_le (by simp)]
        exact h.2.2

theorem write_tree (p : Project) (t : FileTree) (text : String) (path : Path) :
    (p.write t text path).tree =
      match p.formatter text with
      | .error _ => t
      | .ok formatted => (writeFile p.here t formatted path).1 := by
  rw [write_eq]
  cases p.formatter text <;> rfl

theorem generate_tree (p : Project) (t : FileTree) (component : String) :
    (p.generate t component).tree =
      match (p.render t component).result with
      | .error _ => t
      | .ok text => (p.write t text (p.destination component)).tree := by
  unfold generate
  dsimp only
  cases (p.render t component).result <;> rfl

theorem writeEach_text_tree (p : Project) (t : FileTree) (component text : String) (rest : Renderings) :
    (p.writeEach ((component, .ok text) :: rest) t).1 =
      (p.writeEach rest (p.write t text (p.destination component)).tree).1 := by
  simp only [writeEach]
  split <;> rfl

theorem generate_path {p : Project} {t : FileTree} (ht : Plain t) {l : Location} (hne : l ≠ []) (hl : AreNames l)
    {component : String} (hp : p.destination component = l.path) :
    (∃ formatted, p.IsDocument t component formatted ∧ t.Writable l ∧
      WrittenAt t l (p.generate t component).tree ∧
      (p.generate t component).tree.fileAt? l = some (.text formatted)) ∨
    ((∀ formatted, p.IsDocument t component formatted → ¬ t.Writable l) ∧
      Plain (p.generate t component).tree ∧ AddsDirectories t (p.generate t component).tree) := by
  rw [generate_tree]
  cases hr : (p.render t component).result with
  | error e => exact .inr ⟨by simp [IsDocument, hr], ht, .rfl t⟩
  | ok text =>
    simp only [write_tree, hp]
    cases hf : p.formatter text with
    | error e => exact .inr ⟨by simp [IsDocument, hr, hf], ht, .rfl t⟩
    | ok formatted =>
      rcases writeFile_path ht p.here hne hl formatted with ⟨hw, t', he, ha, hc⟩ | ⟨hw, t', e, he, hpl, ha⟩
      · simp only [he]
        exact .inl ⟨formatted, ⟨text, hr, hf⟩, hw, ha, hc⟩
      · simp only [he]
        exact .inr ⟨fun _ _ => hw, hpl, ha⟩

end ComponentDocs.Project
