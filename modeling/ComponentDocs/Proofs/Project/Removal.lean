import ComponentDocs.Proofs.Project.Feedback
import ComponentDocs.Proofs.Project.Interleaving
/-! What comes of taking a supplementary file away from a tree at rest. If the file gets another name, the document of
its component is written anew, and the tree is at rest again. If it is removed, nothing is written: the documents stay
as they are until the next run over all components. -/
namespace ComponentDocs.Project
open FileTree ComponentDocs.Path

/-- A change of the files that concerns the document of one component at most: the components are the same, all documents
go where they went, and no component reads the one. With a file for each component, the others read what they read. -/
structure ConcernsOnly (p : Project) (t u : FileTree) (components : List String) (c : String) : Prop where
  discover : p.discover u = .ok components
  ways : ∀ w ∈ p.targets components, ∀ q ∈ w.ways, ∀ fl, u.resolve p.here q fl = t.resolve p.here q fl
  others : p.config.outFile = none → ∀ x ∈ components, x ≠ c →
    p.config.request u p.here x = p.config.request t p.here x
  unread : ∀ w ∈ p.targets [c], ∀ x ∈ components, ∀ file ∈ p.supplementOf? x, ¬ u.SameFile p.here w file

/-- The document of a component is in its place: to write it makes nothing new. With a file for each component, no
other document goes to the same file. -/
structure InPlace (p : Project) (t : FileTree) (components : List String) (c : String) : Prop where
  settled : ∀ w ∈ p.targets [c], Settled p.here t w
  alone : p.config.outFile = none → ∀ x ∈ components, x ≠ c →
    ¬ t.SameFile p.here (p.destination x) (p.destination c)

/-- The place of the file with the document of a component. -/
def IsDocumentPlace (p : Project) (t : FileTree) (c : String) (m : Location) : Prop :=
  ∃ w ∈ p.targets [c], landing? p.here t w = some m

/-- A tree at rest, with the document of a component in its place, and what it is changed to by something that concerns
this component only. -/
structure Disturbed (p : Project) (t u : FileTree) (components : List String) (c : String) : Prop
    extends ConcernsOnly p t u components c, InPlace p t components c where
  rests : p.Rests t
  found : p.discover t = .ok components
  mem : c ∈ components
  nodup_before : (t.entries.map Prod.fst).Nodup
  nodup_after : (u.entries.map Prod.fst).Nodup

namespace Disturbed
variable {p : Project} {t u : FileTree} {components : List String} {c : String} (h : p.Disturbed t u components c)
include h

theorem targets_subset : p.targets [c] ⊆ p.targets components := targets_mono (by simpa using h.mem)

/-- What is written after the change goes to paths that were settled before. -/
theorem settled_before {x : Path × String} (hx : x ∈ p.documents u components) : Settled p.here t x.1 := by
  obtain ⟨hsettled, -⟩ := (rests_iff h.nodup_before h.found).1 h.rests
  cases ho : p.config.outFile with
  | some file =>
    apply h.settled
    have htarget := mem_targets_of_documents hx
    simpa [targets, ho] using htarget
  | none =>
    obtain ⟨a, ha, hm⟩ := (mem_documents_iff ho).1 hx
    by_cases hac : a = c
    · obtain ⟨text, -, rfl⟩ := Option.map_eq_some_iff.1 hm
      apply h.settled
      simp [targets, ho, hac]
    · apply hsettled
      rw [document?_congr (h.others ho a ha hac)] at hm
      exact (mem_documents_iff ho).2 ⟨a, ha, hm⟩

/-- What is written after the change goes to the file that it went to before, and finds there what was there. -/
theorem goes {x : Path × String} (hx : x ∈ p.documents u components) :
    Settled p.here u x.1 ∧ landing? p.here u x.1 = landing? p.here t x.1 ∧
      ∀ l, landing? p.here t x.1 = some l → u.get? l = t.get? l :=
  (h.settled_before hx).of_ways (h.ways x.1 (mem_targets_of_documents hx))

theorem goes_own {w : Path} (hw : w ∈ p.targets [c]) :
    Settled p.here u w ∧ landing? p.here u w = landing? p.here t w :=
  have hgoes := (h.settled w hw).of_ways (h.ways w (h.targets_subset hw))
  ⟨hgoes.1, hgoes.2.1⟩

/-- What is written last to a file that is not the document of the component is what it was before the change. -/
theorem lastFile?_elsewhere (ho : p.config.outFile = none) {m : Location} (hm : ¬ p.IsDocumentPlace t c m) :
    lastFile? p.here u (p.documents u components) m = lastFile? p.here t (p.documents t components) m := by
  rw [lastFile?_congr fun x hx => (h.goes hx).2.1]
  unfold documents
  rw [ho]
  apply lastFile?_filterMap_congr
  intro a ha
  by_cases hac : a = c
  · have hfar (v : FileTree) : ∀ x ∈ (p.document? v a).map fun text => (p.destination a, text),
        landing? p.here t x.1 ≠ some m := by
      intro x hx hland
      obtain ⟨text, -, rfl⟩ := Option.map_eq_some_iff.1 hx
      exact hm ⟨p.destination a, by simp [targets, ho, hac], hland⟩
    exact .inr ⟨hfar u, hfar t⟩
  · rw [document?_congr (h.others ho a ha hac)]
    exact .inl rfl

/-- After the change a run writes nothing new to files other than the document of the component. -/
theorem get?_of_lastFile? {m : Location} (hm : ¬ p.IsDocumentPlace t c m) {e : Entry}
    (hlast : lastFile? p.here u (p.documents u components) m = some e) : u.get? m = some e := by
  obtain ⟨x, hx, hland, -⟩ := exists_of_lastFile? hlast
  obtain ⟨-, hsame, hget⟩ := h.goes hx
  rw [hsame] at hland
  cases ho : p.config.outFile with
  | some file =>
    have htarget := mem_targets_of_documents hx
    rw [targets, ho] at htarget
    exact absurd ⟨x.1, by simpa [targets, ho] using htarget, hland⟩ hm
  | none =>
    rw [h.lastFile?_elsewhere ho hm] at hlast
    rw [hget m hland, ((rests_iff h.nodup_before h.found).1 h.rests).2 m e hlast]

theorem generateAll_tree : (p.generateAll u).tree.outline = u.outline ∧ ∀ m,
    (p.generateAll u).tree.get? m = (lastFile? p.here u (p.documents u components) m).or (u.get? m) := by
  rw [Project.generateAll_tree h.discover]
  apply inscribe_all h.nodup_after
  intro x hx
  exact (h.goes hx).1

theorem generateAll_elsewhere {m : Location} (hm : ¬ p.IsDocumentPlace t c m) :
    (p.generateAll u).tree.get? m = u.get? m := by
  rw [h.generateAll_tree.2]
  cases hlast : lastFile? p.here u (p.documents u components) m with
  | none => rfl
  | some e => exact (h.get?_of_lastFile? hm hlast).symm

/-- A tree with the documents that a run would write after the change is at rest, because no component reads the one
document that is new. -/
theorem rests_of_documents {v : FileTree} (hout : v.outline = u.outline)
    (hv : ∀ m, v.get? m = (p.generateAll u).tree.get? m) : p.discover v = .ok components ∧ p.Rests v := by
  have hrequest : ∀ x ∈ components, p.config.request v p.here x = p.config.request u p.here x := by
    intro x hx
    apply request_congr
    intro file hfile
    have hfind : v.find p.here file = u.find p.here file := by
      apply find_of_outline hout
      intro l content hl
      rw [hv]
      apply h.generateAll_elsewhere
      rintro ⟨w, hw, hland⟩
      obtain ⟨hs, hsame⟩ := h.goes_own hw
      obtain ⟨old, hold⟩ := hs.find_of_landing? (hsame.trans hland)
      exact h.unread w hw x hx file hfile (sameFile_of_find hold hl)
    rw [FileTree.read, FileTree.read, hfind]
  have hdiscover : p.discover v = .ok components := (discover_of_outline hout).trans h.discover
  have hnodup : (v.entries.map Prod.fst).Nodup := by
    rw [← keys_outline, hout, keys_outline]
    exact h.nodup_after
  refine ⟨hdiscover, (rests_iff hnodup hdiscover).2 ?_⟩
  rw [documents_congr hrequest]
  refine ⟨fun x hx => (h.goes hx).1.of_outline hout, fun m e hlast => ?_⟩
  rw [lastFile?_congr fun x _ => landing?_of_outline hout] at hlast
  rw [hv, h.generateAll_tree.2, hlast, Option.some_or]

theorem rests_generateAll : p.Rests (p.generateAll u).tree :=
  (h.rests_of_documents h.generateAll_tree.1 fun _ => rfl).2

section Each
variable (ho : p.config.outFile = none)
include ho

theorem mem_of_landing? {m : Location} (hm : landing? p.here t (p.destination c) = some m) {x : Path × String}
    (hx : x ∈ p.documents u components) (hland : landing? p.here u x.1 = some m) :
    x ∈ (p.document? u c).map fun text => (p.destination c, text) := by
  obtain ⟨a, ha, hdocument⟩ := (mem_documents_iff ho).1 hx
  obtain rfl : a = c := by
    by_contra hac
    rw [(h.goes hx).2.1] at hland
    obtain ⟨_, hfind⟩ := (h.settled_before hx).find_of_landing? hland
    obtain ⟨_, hown⟩ := (h.settled (p.destination c) (by simp [targets, ho])).find_of_landing? hm
    obtain ⟨text, -, rfl⟩ := Option.map_eq_some_iff.1 hdocument
    exact h.alone ho a ha hac (sameFile_of_find hfind hown)
  exact hdocument

/-- The document of the component alone makes up for the change. -/
theorem generate_tree : (p.generate u c).tree.outline = u.outline ∧
    ∀ m, (p.generate u c).tree.get? m = (p.generateAll u).tree.get? m := by
  have htarget : p.destination c ∈ p.targets [c] := by simp [targets, ho]
  obtain ⟨hs, hsame⟩ := h.goes_own htarget
  have hone := documents_singleton ho u c
  have hpath : ∀ x ∈ p.documents u [c], x.1 = p.destination c := by
    intro x hx
    simpa [targets, ho] using mem_targets_of_documents hx
  have hall : ∀ x ∈ p.documents u [c], Settled p.here u x.1 := fun x hx => (hpath x hx).symm ▸ hs
  obtain ⟨hout, hget⟩ := inscribe_all h.nodup_after hall
  rw [← generate_tree_eq ho] at hout hget
  refine ⟨hout, fun m => ?_⟩
  by_cases hm : landing? p.here t (p.destination c) = some m
  · have hlast : lastFile? p.here u (p.documents u components) m = lastFile? p.here u (p.documents u [c]) m := by
      rw [hone]
      apply lastFile?_toList
      · intro x hx
        exact (mem_documents_iff ho).2 ⟨c, h.mem, hx⟩
      · intro x hx hland
        exact h.mem_of_landing? ho hm hx hland
    rw [hget, h.generateAll_tree.2, hlast]
  · have hplace : ¬ p.IsDocumentPlace t c m := by
      rintro ⟨w, hw, hland⟩
      simp only [targets, ho, List.map_cons, List.map_nil, List.mem_singleton] at hw
      exact hm (hw ▸ hland)
    rw [hget, h.generateAll_elsewhere hplace, lastFile?_eq_none, Option.none_or]
    intro x hx hland
    rw [hpath x hx, hsame] at hland
    exact hm hland

end Each

/-- Two changes after which all components read the same come to the same documents, and a run writes something new after
the one if it does after the other. -/
theorem generateAll_twice {v : FileTree} (h' : p.Disturbed t v components c)
    (hsame : ∀ x ∈ components, p.config.request u p.here x = p.config.request v p.here x) (m : Location) :
    ((p.generateAll u).tree.get? m = u.get? m ↔ (p.generateAll v).tree.get? m = v.get? m) ∧
      (u.get? m = v.get? m → (p.generateAll u).tree.get? m = (p.generateAll v).tree.get? m) := by
  have hdocuments := documents_congr hsame
  have hlast : lastFile? p.here u (p.documents u components) m = lastFile? p.here v (p.documents v components) m := by
    rw [← hdocuments]
    apply lastFile?_congr
    intro x hx
    rw [(h.goes hx).2.1, (h'.goes (hdocuments ▸ hx)).2.1]
  rw [h.generateAll_tree.2, h'.generateAll_tree.2, hlast]
  cases he : lastFile? p.here v (p.documents v components) m with
  | none => simp
  | some e =>
    obtain ⟨x, hx, hland, -⟩ := exists_of_lastFile? he
    obtain ⟨-, hv, hgetv⟩ := h'.goes hx
    obtain ⟨-, -, hgetu⟩ := h.goes (hdocuments ▸ hx)
    rw [hv] at hland
    rw [hgetu m hland, hgetv m hland]
    simp

end Disturbed

/-- A path that is that of the supplementary file of a component. It is no output, the patterns name nothing by it and,
with a file for each component, no other component has it. -/
structure OwnSupplement (p : Project) (components : List String) (c : String) (file : Path) : Prop where
  supplement : p.isSupplementOf file.normalize c = true
  outside : p.isOutput file = false
  unnamed : p.namedComponent? file = none
  alone : p.config.outFile = none → ∀ x ∈ components, x ≠ c → p.isSupplementOf file.normalize x = false

/-- A path that stands for no component and is no supplementary file. -/
structure Unused (p : Project) (components : List String) (path : Path) : Prop where
  unnamed : p.namedComponent? path = none
  unread : ∀ x ∈ components, p.isSupplementOf path.normalize x = false

section Events
variable {p : Project} {t : FileTree} {components : List String} (hd : p.discover t = .ok components)
include hd

theorem componentFor_unused {path : Path} (h : p.Unused components path) : p.componentFor t path = .ok none := by
  have hfind : components.find? (p.isSupplementOf path.normalize) = none := by
    rw [List.find?_eq_none]
    intro x hx
    simp [h.unread x hx]
  rw [componentFor, h.unnamed, hd]
  split
  · rfl
  · simp only [bind, Except.bind, hfind]

theorem tree_handle_unused {path : Path} (h : p.Unused components path) : (p.handle t (.changed path)).tree = t := by
  rw [handle_of_componentFor (componentFor_unused hd h)]

theorem componentFor_of_find {file : Path} (hout : p.isOutput file = false) (hunnamed : p.namedComponent? file = none)
    {x : String} (hfind : components.find? (p.isSupplementOf file.normalize) = some x) :
    p.componentFor t file = .ok (some x) := by
  rw [componentFor, hout, if_neg Bool.false_ne_true, hunnamed, hd]
  simp only [bind, Except.bind, hfind]

theorem componentFor_ownSupplement {c : String} (hc : c ∈ components) {file : Path}
    (h : p.OwnSupplement components c file) :
    ∃ x, p.componentFor t file = .ok (some x) ∧ (p.config.outFile = none → x = c) := by
  cases hfind : components.find? (p.isSupplementOf file.normalize) with
  | none => exact absurd h.supplement (List.find?_eq_none.1 hfind c hc)
  | some x =>
    refine ⟨x, componentFor_of_find hd h.outside h.unnamed hfind, fun ho => ?_⟩
    by_contra hne
    have hx := List.find?_some hfind
    rw [h.alone ho x (List.mem_of_find?_eq_some hfind) hne] at hx
    cases hx

end Events

/-- Handling the change of the supplementary file does what a run over all components would do. -/
theorem Disturbed.tree_handle {p : Project} {t u : FileTree} {components : List String} {c : String}
    (h : p.Disturbed t u components c) {file : Path} (hfile : p.OwnSupplement components c file) :
    (p.handle u (.changed file)).tree.outline = u.outline ∧
      ∀ m, (p.handle u (.changed file)).tree.get? m = (p.generateAll u).tree.get? m := by
  obtain ⟨x, hx, hown⟩ := componentFor_ownSupplement h.discover h.mem hfile
  rw [tree_handle_changed]
  cases ho : p.config.outFile with
  | some out =>
    have htree : p.regenerateFor u file = p.generateAll u := by
      unfold regenerateFor
      rw [hx]
      simp [ho]
    rw [htree]
    exact ⟨h.generateAll_tree.1, fun _ => rfl⟩
  | none =>
    obtain rfl := hown ho
    rw [regenerateFor_of_componentFor ho hx]
    exact h.generate_tree ho

/-- What is left when the events of a renaming have been handled. -/
def handleRenamed (p : Project) (t : FileTree) (file goal : Path) : FileTree :=
  (p.handle (p.handle t (.changed file)).tree (.changed goal)).tree

/-- In a tree at rest, the supplementary file of a component is given another name or removed. When the events of the
renaming are handled, in either order, the tree is at rest again. The event of the removal is not answered: the tree is
at rest then if and only if the renaming has changed no document. In any case a run over all components leaves the
documents that the renaming leaves, and a tree at rest. -/
theorem handle_renamed_and_removed {p : Project} {t : FileTree} (ht : t.WellFormed) {components : List String}
    (hd : p.discover t = .ok components) (hrest : p.Rests t) {c : String} (hc : c ∈ components)
    (hplace : p.InPlace t components c) {file goal : Path} (hfile : p.OwnSupplement components c file)
    (hgoal : p.Unused components goal) {renamed removed : FileTree} (hmove : t.move p.here file goal = .ok renamed)
    (hremove : t.remove p.here file = .ok removed) (hrenamed : p.ConcernsOnly t renamed components c)
    (hremoved : p.ConcernsOnly t removed components c)
    (hsame : ∀ x ∈ components, p.config.request removed p.here x = p.config.request renamed p.here x) :
    let now := p.handleRenamed renamed file goal
    p.Rests now ∧ (p.handle (p.handle renamed (.changed goal)).tree (.changed file)).tree = now ∧
      p.handle removed (.removed file) = { tree := removed, result := .ok {} } ∧
      (p.Rests removed ↔ ∀ l, now.get? l = renamed.get? l) ∧ p.Rests (p.generateAll removed).tree ∧
      ∀ l, removed.get? l = renamed.get? l → (p.generateAll removed).tree.get? l = now.get? l := by
  intro now
  have hm : p.Disturbed t renamed components c :=
    ⟨hrenamed, hplace, hrest, hd, hc, ht.nodup, nodup_move ht.nodup hmove⟩
  have hr : p.Disturbed t removed components c :=
    ⟨hremoved, hplace, hrest, hd, hc, ht.nodup, nodup_remove ht.nodup hremove⟩
  obtain ⟨hout, hget⟩ := hm.tree_handle hfile
  obtain ⟨hdiscover, hrests⟩ := hm.rests_of_documents hout hget
  have hnow : now = (p.handle renamed (.changed file)).tree := tree_handle_unused hdiscover hgoal
  have hother : (p.handle (p.handle renamed (.changed goal)).tree (.changed file)).tree = now := by
    rw [tree_handle_unused hm.discover hgoal, hnow]
  have htwice := hr.generateAll_twice hm hsame
  refine ⟨hnow ▸ hrests, hother, rfl, ?_, hr.rests_generateAll, ?_⟩
  · apply forall_congr'
    intro l
    rw [hnow, hget, (htwice l).1]
  · intro l hl
    rw [hnow, hget, (htwice l).2 hl]

/-- A directory with the documents behind a link. -/
def linkedTree (document : String) (entries : List (List String × Entry)) : FileTree :=
  siteTree ([(["docs"], .link (.ofString "out")), (["out"], .directory), (["out", "A.md"], .file (.text document)),
    (["src"], .directory), (["src", "A.vue"], .file (.text ""))] ++ entries)

theorem handle_renamed_and_removed_linked :
    let p := siteProject (siteConfig "src" "/w/./docs/" "*.vue")
    let file := Path.ofString "/w/src/A.md"
    let goal := Path.ofString "/w/src/notes.txt"
    let t := linkedTree "# A.vue!" [(["src", "A.md"], .file (.text "!"))]
    let renamed := linkedTree "# A.vue!" [(["src", "notes.txt"], .file (.text "!"))]
    let removed := linkedTree "# A.vue!" []
    let now := p.handleRenamed renamed file goal
    p.Rests t ∧ t.move p.here file goal = .ok renamed ∧ t.remove p.here file = .ok removed ∧
      p.Rests now ∧ now.readText p.here (.ofString "/w/docs/A.md") = .ok "# A.vue" ∧
      (p.Rests removed ↔ ∀ l, now.get? l = renamed.get? l) ∧
      ∀ l, removed.get? l = renamed.get? l → (p.generateAll removed).tree.get? l = now.get? l := by
  intro p file goal t renamed removed now
  have ht : t.WellFormed := wellFormed_of_entries (by decide +kernel) (by decide +kernel)
  have hd : p.discover t = .ok ["A.vue"] := by decide +kernel
  have hrun : (p.generateAll t).tree = t := by decide +kernel
  have hrest : p.Rests t := fun l => by rw [hrun]
  have htargets : p.targets ["A.vue"] = [.ofString "/w/./docs/A.md"] := by decide +kernel
  have hsupplement : p.supplementOf? "A.vue" = some file := by decide +kernel
  have hplace : p.InPlace t ["A.vue"] "A.vue" := by
    refine ⟨fun w hw => ?_, fun _ x hx hne => absurd (List.mem_singleton.1 hx) hne⟩
    have hdocuments : p.documents t ["A.vue"] = [(.ofString "/w/./docs/A.md", "# A.vue!")] := by decide +kernel
    have hsettled := ((rests_iff ht.nodup hd).1 hrest).1
    rw [hdocuments] at hsettled
    rw [htargets] at hw
    rw [List.mem_singleton.1 hw]
    exact hsettled _ (List.mem_singleton_self _)
  have hfile : p.OwnSupplement ["A.vue"] "A.vue" file :=
    ⟨by decide +kernel, by decide +kernel, by decide +kernel, fun _ x hx hne => absurd (List.mem_singleton.1 hx) hne⟩
  have hgoal : p.Unused ["A.vue"] goal := ⟨by decide +kernel, by decide +kernel⟩
  have hconcerns (u : FileTree) (hu : p.discover u = .ok ["A.vue"])
      (hways : ∀ w ∈ p.targets ["A.vue"], ∀ q ∈ w.ways, ∀ fl, u.resolve p.here q fl = t.resolve p.here q fl)
      (hgone : u.find p.here file = .error .notFound) : p.ConcernsOnly t u ["A.vue"] "A.vue" := by
    refine ⟨hu, hways, fun _ x hx hne => absurd (List.mem_singleton.1 hx) hne, ?_⟩
    rintro w - x hx q hq ⟨l, content, -, hfind⟩
    rw [List.mem_singleton.1 hx, hsupplement] at hq
    rw [← Option.some.inj hq, hgone] at hfind
    cases hfind
  have hmove : t.move p.here file goal = .ok renamed := by decide +kernel
  have hremove : t.remove p.here file = .ok removed := by decide +kernel
  obtain ⟨hrests, -, -, hiff, -, hrun⟩ := handle_renamed_and_removed ht hd hrest (List.mem_singleton_self _) hplace hfile
    hgoal hmove hremove (hconcerns renamed (by decide +kernel) (by decide +kernel) (by decide +kernel))
    (hconcerns removed (by decide +kernel) (by decide +kernel) (by decide +kernel)) (by decide +kernel)
  exact ⟨hrest, hmove, hremove, hrests, by decide +kernel, hiff, hrun⟩

/-- A tree at rest to which the events of a renaming do not bring rest, though the supplementary file of a component gets
a name that stands for nothing. -/
structure Restless (p : Project) (t renamed : FileTree) (components : List String) (c : String) (file goal : Path) : Prop
    where
  found : p.discover t = .ok components
  mem : c ∈ components
  rests : p.Rests t
  supplement : p.supplementOf? c = some file
  unnamed : p.namedComponent? file = none
  unused : p.Unused components goal
  move : t.move p.here file goal = .ok renamed
  restless : ¬ p.Rests (p.handleRenamed renamed file goal)

section Runs
variable {p : Project} {t : FileTree} {components : List String}

theorem discover_of_map (h : (t.filesBelow p.here p.config.componentsDir isSkipped).map p.componentsOf = .ok components)
    (hs : components.Pairwise (· ≤ ·)) : p.discover t = .ok components := by
  cases hf : t.filesBelow p.here p.config.componentsDir isSkipped with
  | error e =>
    rw [hf] at h
    cases h
  | ok files =>
    rw [hf] at h
    exact discover_of_pairwise hf (Except.ok.inj h) hs

theorem rests_of_foldl (hd : p.discover t = .ok components)
    (h : (p.documents t components).foldl (inscribe p.here) t = t) : p.Rests t := by
  intro l
  rw [generateAll_tree hd, h]

theorem not_rests_of_foldl (hd : p.discover t = .ok components) {l : Location}
    (h : ((p.documents t components).foldl (inscribe p.here) t).get? l ≠ t.get? l) : ¬ p.Rests t := by
  intro hrest
  apply h
  rw [← generateAll_tree hd, hrest l]

theorem handleRenamed_eq (ho : p.config.outFile = none) (hd : p.discover t = .ok components) {file goal : Path}
    (hout : p.isOutput file = false) (hunnamed : p.namedComponent? file = none) {x : String}
    (hfind : components.find? (p.isSupplementOf file.normalize) = some x) {now : FileTree}
    (hnow : (p.generate t x).tree = now) {later : List String} (hlater : p.discover now = .ok later)
    (hgoal : p.Unused later goal) : p.handleRenamed t file goal = now := by
  have hfile : (p.handle t (.changed file)).tree = now := by
    rw [tree_handle_changed, regenerateFor_of_componentFor ho (componentFor_of_find hd hout hunnamed hfind)]
    exact hnow
  rw [handleRenamed, hfile]
  exact tree_handle_unused hlater hgoal

/-- The document that the renaming has written is not enough: a run changes what is at a place. -/
theorem restless_of_generate {renamed now : FileTree} {later : List String} {c x : String} {file goal : Path}
    {l : Location} (ho : p.config.outFile = none) (hd : p.discover t = .ok components)
    (hd' : p.discover renamed = .ok components) (hlater : p.discover now = .ok later) (hc : c ∈ components)
    (hrun : (p.documents t components).foldl (inscribe p.here) t = t) (hsupplement : p.supplementOf? c = some file)
    (hout : p.isOutput file = false) (hunnamed : p.namedComponent? file = none) (hgoal : p.namedComponent? goal = none)
    (hunread : ∀ y ∈ components ++ later, p.isSupplementOf goal.normalize y = false)
    (hmove : t.move p.here file goal = .ok renamed)
    (hfind : components.find? (p.isSupplementOf file.normalize) = some x) (hnow : (p.generate renamed x).tree = now)
    (hl : ((p.documents now later).foldl (inscribe p.here) now).get? l ≠ now.get? l) :
    p.Restless t renamed components c file goal where
  found := hd
  mem := hc
  rests := rests_of_foldl hd hrun
  supplement := hsupplement
  unnamed := hunnamed
  unused := ⟨hgoal, fun y hy => hunread y (List.mem_append_left _ hy)⟩
  move := hmove
  restless := by
    have hunused : p.Unused later goal := ⟨hgoal, fun y hy => hunread y (List.mem_append_right _ hy)⟩
    rw [handleRenamed_eq ho hd' hout hunnamed hfind hnow hlater hunused]
    exact not_rests_of_foldl hlater hl

end Runs

/-- A directory with a component and a file beside it, with some entries before and some after them. -/
def sourceTree (first : List (List String × Entry)) (name text : String) (rest : List (List String × Entry)) : FileTree :=
  siteTree (first ++
    (["src"], .directory) :: (["src", "A.vue"], .file (.text "")) :: (["src", name], .file (.text text)) :: rest)

/-- After a removal the document still has what was in the file. A renaming does not bring the tree to rest where the
event of the file is taken for one of a document, where an earlier component has the same supplementary file and the
same document, where a link from elsewhere led to the file, where the document of another component was a link to it,
where another component reads the document, and where the document is new and becomes a component. -/
theorem removal_leaves_document :
    let file := Path.ofString "/w/src/A.md"
    let goal := Path.ofString "/w/src/notes.txt"
    (let p := siteProject (siteConfig "src" "/w/docs" "*.vue")
      let docs : List (List String × Entry) := [(["docs"], .directory), (["docs", "A.md"], .file (.text "# A.vue!"))]
      let t := sourceTree [] "A.md" "!" docs
      let removed := siteTree ((["src"], .directory) :: (["src", "A.vue"], .file (.text "")) :: docs)
      p.discover t = .ok ["A.vue"] ∧ p.Rests t ∧ p.supplementOf? "A.vue" = some file ∧ p.namedComponent? file = none ∧
        t.remove p.here file = .ok removed ∧ ¬ p.Rests (p.handle removed (.removed file)).tree) ∧
    (let p := siteProject (siteConfig "src" "/w" "*.vue")
      let tree (name : String) := sourceTree [] name "!" [(["A.md"], .file (.text "# A.vue!"))]
      p.Restless (tree "A.md") (tree "notes.txt") ["A.vue"] "A.vue" file goal) ∧
    (let p := siteProject (siteConfig "src" "/w/docs" "*.{tsx,vue}")
      let tree (name document : String) := sourceTree [(["src", "A.tsx"], .file (.text ""))] name "!"
        [(["docs"], .directory), (["docs", "A.md"], .file (.text document))]
      p.Restless (tree "A.md" "# A.vue!") (tree "notes.txt" "# A.vue!") ["A.tsx", "A.vue"] "A.vue" file goal) ∧
    (let p := siteProject (siteConfig "src" "/w/docs" "*.vue")
      let tree (name document : String) := sourceTree [] name "!" [(["src", "B.vue"], .file (.text "")),
        (["src", "B.md"], .link (.ofString "A.md")), (["docs"], .directory), (["docs", "A.md"], .file (.text document)),
        (["docs", "B.md"], .file (.text "# B.vue!"))]
      p.Restless (tree "A.md" "# A.vue!") (tree "notes.txt" "# A.vue!") ["A.vue", "B.vue"] "A.vue" file goal) ∧
    (let p := siteProject (siteConfig "src" "/w/docs" "*.vue")
      let tree (name document : String) := sourceTree [] name "# B.vue" [(["src", "B.vue"], .file (.text "")),
        (["docs"], .directory), (["docs", "A.md"], .file (.text document)), (["docs", "B.md"], .link (.ofString "../src/A.md"))]
      p.Restless (tree "A.md" "# A.vue# B.vue") (tree "notes.txt" "# A.vue# B.vue") ["A.vue", "B.vue"] "A.vue" file goal) ∧
    (let p := siteProject (siteConfig "src" "/w/src/B" "{A.vue,B/A.vue}")
      let tree (name document : String) := sourceTree [] name "!" [(["src", "B"], .directory),
        (["src", "B", "A.vue"], .file (.text "")), (["src", "B", "A.md"], .file (.text document)),
        (["src", "B", "B"], .directory), (["src", "B", "B", "A.md"], .file (.text "# B/A.vue# A.vue!"))]
      p.Restless (tree "A.md" "# A.vue!") (tree "notes.txt" "# A.vue!") ["A.vue", "B/A.vue"] "A.vue" file goal) ∧
    (let p := { siteProject (siteConfig "src" "/w/src/B" "{A.vue,B/A.md}") with
        engine := fun r => if r.extra = some "!" then .error (.other "") else .ok ("# " ++ r.component) }
      let tree (name : String) := sourceTree [] name "!" []
      p.Restless (tree "A.md") (tree "notes.txt") ["A.vue"] "A.vue" file goal) := by
  intro file goal
  refine ⟨?_, ?_, ?_, ?_, ?_, ?_, ?_⟩
  · intro p docs t removed
    have hd : p.discover t = .ok ["A.vue"] := by decide +kernel
    have hd' : p.discover removed = .ok ["A.vue"] := by decide +kernel
    refine ⟨hd, rests_of_foldl hd (by decide +kernel), by decide +kernel, by decide +kernel, by decide +kernel, ?_⟩
    exact not_rests_of_foldl hd' (l := [['w'], "docs".toList, "A.md".toList]) (by decide +kernel)
  · intro p tree
    have hd : p.discover (tree "A.md") = .ok ["A.vue"] := by decide +kernel
    have hd' : p.discover (tree "notes.txt") = .ok ["A.vue"] := by decide +kernel
    have hnow : p.handleRenamed (tree "notes.txt") file goal = tree "notes.txt" := by decide +kernel
    refine ⟨hd, by decide, rests_of_foldl hd (by decide +kernel), by decide +kernel, by decide +kernel,
      ⟨by decide +kernel, by decide +kernel⟩, by decide +kernel, ?_⟩
    rw [hnow]
    exact not_rests_of_foldl hd' (l := [['w'], "A.md".toList]) (by decide +kernel)
  · intro p tree
    have hd : p.discover (tree "A.md" "# A.vue!") = .ok ["A.tsx", "A.vue"] := discover_of_map (by decide +kernel) (by decide)
    have hd' : p.discover (tree "notes.txt" "# A.vue!") = .ok ["A.tsx", "A.vue"] := discover_of_map (by decide +kernel) (by decide)
    have hlater : p.discover (tree "notes.txt" "# A.tsx") = .ok ["A.tsx", "A.vue"] := discover_of_map (by decide +kernel) (by decide)
    apply restless_of_generate (x := "A.tsx") (l := [['w'], "docs".toList, "A.md".toList]) rfl hd hd'
      hlater <;> decide +kernel
  · intro p tree
    have hd : p.discover (tree "A.md" "# A.vue!") = .ok ["A.vue", "B.vue"] := discover_of_map (by decide +kernel) (by decide)
    have hd' : p.discover (tree "notes.txt" "# A.vue!") = .ok ["A.vue", "B.vue"] := discover_of_map (by decide +kernel) (by decide)
    have hlater : p.discover (tree "notes.txt" "# A.vue") = .ok ["A.vue", "B.vue"] := discover_of_map (by decide +kernel) (by decide)
    apply restless_of_generate (x := "A.vue") (l := [['w'], "docs".toList, "B.md".toList]) rfl hd hd'
      hlater <;> decide +kernel
  · intro p tree
    have hd : p.discover (tree "A.md" "# A.vue# B.vue") = .ok ["A.vue", "B.vue"] := discover_of_map (by decide +kernel) (by decide)
    have hd' : p.discover (tree "notes.txt" "# A.vue# B.vue") = .ok ["A.vue", "B.vue"] := discover_of_map (by decide +kernel) (by decide)
    have hlater : p.discover (tree "notes.txt" "# A.vue") = .ok ["A.vue", "B.vue"] := discover_of_map (by decide +kernel) (by decide)
    apply restless_of_generate (x := "A.vue") (l := [['w'], "src".toList, "A.md".toList]) rfl hd hd'
      hlater <;> decide +kernel
  · intro p tree
    have hd : p.discover (tree "A.md" "# A.vue!") = .ok ["A.vue", "B/A.vue"] := discover_of_map (by decide +kernel) (by decide)
    have hd' : p.discover (tree "notes.txt" "# A.vue!") = .ok ["A.vue", "B/A.vue"] := discover_of_map (by decide +kernel) (by decide)
    have hlater : p.discover (tree "notes.txt" "# A.vue") = .ok ["A.vue", "B/A.vue"] := discover_of_map (by decide +kernel) (by decide)
    apply restless_of_generate (x := "A.vue") (l := [['w'], "src".toList, "B".toList, "B".toList, "A.md".toList]) rfl hd hd'
      hlater <;> decide +kernel
  · intro p tree
    let now := sourceTree [] "notes.txt" "!" [(["src", "B"], .directory), (["src", "B", "A.md"], .file (.text "# A.vue"))]
    have hd : p.discover (tree "A.md") = .ok ["A.vue"] := by decide +kernel
    have hd' : p.discover (tree "notes.txt") = .ok ["A.vue"] := by decide +kernel
    have hlater : p.discover now = .ok ["A.vue", "B/A.md"] := discover_of_map (by decide +kernel) (by decide)
    apply restless_of_generate (x := "A.vue") (l := [['w'], "src".toList, "B".toList, "B".toList, "A.md".toList]) rfl hd hd'
      hlater <;> decide +kernel

end ComponentDocs.Project
