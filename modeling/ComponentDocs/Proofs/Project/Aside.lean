import ComponentDocs.Proofs.Project.Removal
/-! Files that come and go without being components. Where documents are kept apart and there are no links, they concern
the document of one component at most. -/
namespace ComponentDocs.Project
open FileTree ComponentDocs.Path

/-- A place away from the documents, that of no component and of no supplementary file but that of `c`. -/
structure Aside (p : Project) (t : FileTree) (source docs : Location) (c : String) (l : Location) : Prop where
  outside : ¬ docs <+: l
  above : ¬ l <+: docs
  unnamed : ∀ names, l = source ++ names → p.config.isComponent (ofNames names) = false
  unread : ∀ own, p.Found t source own → componentAt own ≠ c → l ≠ source ++ beside own

theorem path_mem_upward {q : Path} {fuel : Nat} {l : Location} (hl : AreNames l) (h : q ∈ l.path.upward fuel) :
    ∃ front, front <+: l ∧ q = Location.path front := by
  induction fuel generalizing l with
  | zero => cases h
  | succ fuel ih =>
    rcases List.mem_cons.1 h with rfl | h
    · exact ⟨l, List.prefix_refl l, rfl⟩
    · by_cases hne : l = []
      · subst hne
        cases h
      · obtain ⟨dir, n, rfl⟩ := exists_eq_append hne
        rw [Location.parent?_path hl] at h
        obtain ⟨front, hf, rfl⟩ := ih hl.left h
        exact ⟨front, hf.trans (List.prefix_append _ _), rfl⟩

/-- The paths that are followed to a place of names are those of the places above it. -/
theorem path_mem_ways {q : Path} {l : Location} (hl : AreNames l) (h : q ∈ l.path.ways) :
    ∃ front, front <+: l ∧ q = Location.path front := by
  rcases List.mem_cons.1 h with rfl | h
  · exact ⟨l, List.prefix_refl l, rfl⟩
  · by_cases hne : l = []
    · subst hne
      cases h
    · obtain ⟨dir, n, rfl⟩ := exists_eq_append hne
      rw [Location.parent?_path hl] at h
      obtain ⟨front, hf, rfl⟩ := path_mem_upward hl.left h
      exact ⟨front, hf.trans (List.prefix_append _ _), rfl⟩

theorem eq_of_discover {p : Project} {t u : FileTree} (ht : t.WellFormed) (hu : u.WellFormed)
    {components components' : List String} (hd : p.discover t = .ok components) (hd' : p.discover u = .ok components')
    (h : ∀ x, x ∈ components' ↔ x ∈ components) : components' = components := by
  obtain ⟨_, hok, hs, -⟩ := exists_discover ht (exists?_of_discover hd)
  obtain rfl := Except.ok.inj (hd.symm.trans hok)
  obtain ⟨_, hok', hs', -⟩ := exists_discover hu (exists?_of_discover hd')
  obtain rfl := Except.ok.inj (hd'.symm.trans hok')
  refine List.Perm.eq_of_pairwise (fun a b _ _ hab hba => absurd (String.lt_trans hab hba) (String.lt_irrefl a)) hs' hs ?_
  exact (List.perm_ext_iff_of_nodup (nodup_of_discover hu hd') (nodup_of_discover ht hd)).2 h

namespace Separate
variable {p : Project} {source docs : Location} (hs : p.Separate source docs)
include hs

section Change
variable {t u : FileTree} (ht : Plain t) (hu : Plain u) (hd : t.get? source = some .directory) {c : String}
  (h : ∀ l, u.get? l ≠ t.get? l → t.get? l ≠ some .directory ∧ p.Aside t source docs c l)
include ht hu hd h

theorem discover_aside : p.discover u = p.discover t := by
  have hd' : u.get? source = some .directory := by
    by_contra hne
    exact (h source fun hsame => hne (hsame.trans hd)).1 hd
  have hfile {names : List (List Char)} (hc : p.config.isComponent (ofNames names) = true) :
      u.get? (source ++ names) = t.get? (source ++ names) := by
    by_contra hne
    rw [(h _ hne).2.unnamed names rfl] at hc
    cases hc
  have hfound (names : List (List Char)) : p.Found u source names ↔ p.Found t source names := by
    constructor
    · rintro ⟨hne, hf, hk, hc⟩
      exact ⟨hne, by rwa [fileAt?, ← hfile hc], hk, hc⟩
    · rintro ⟨hne, hf, hk, hc⟩
      exact ⟨hne, by rwa [fileAt?, hfile hc], hk, hc⟩
  obtain ⟨components, hok, hm⟩ := hs.discover ht hd
  obtain ⟨components', hok', hm'⟩ := hs.discover hu hd'
  rw [hok, hok', Except.ok.injEq]
  apply eq_of_discover ht.toWellFormed hu.toWellFormed hok hok'
  intro x
  rw [hm, hm']
  simp only [hfound]

/-- Such a change concerns the document of one component at most. -/
theorem concernsOnly {components : List String} (hok : p.discover t = .ok components) (hc : c ∈ components) :
    p.ConcernsOnly t u components c := by
  have hnamed : ∀ x ∈ components, ∃ names, names ≠ [] ∧ AreNames names ∧ p.Found t source names ∧
      x = componentAt names := by
    intro x hx
    obtain ⟨components', hok', hm⟩ := hs.discover ht hd
    obtain rfl := Except.ok.inj (hok.symm.trans hok')
    obtain ⟨names, hf, rfl⟩ := (hm x).1 hx
    exact ⟨names, hf.ne_nil, hf.areNames ht, hf, rfl⟩
  have htarget : ∀ w ∈ p.targets components, ∃ l, AreNames l ∧ w = Location.path (docs ++ l) := by
    intro w hw
    rw [targets, hs.outFile] at hw
    obtain ⟨x, hx, rfl⟩ := List.mem_map.1 hw
    obtain ⟨names, hne, hn, -, rfl⟩ := hnamed x hx
    exact ⟨beside names, hn.beside, hs.destination_eq hne hn⟩
  have hsupplement : ∀ x ∈ components, ∀ file ∈ p.supplementOf? x, ∃ names, AreNames names ∧ p.Found t source names ∧
      x = componentAt names ∧ file = Location.path (source ++ beside names) := by
    intro x hx file hfile
    obtain ⟨names, hne, hn, hf, rfl⟩ := hnamed x hx
    rw [supplementOf?, hs.supplement_eq hne hn] at hfile
    exact ⟨names, hn, hf, rfl, (Option.some.inj hfile).symm⟩
  refine ⟨(hs.discover_aside ht hu hd h).trans hok, fun w hw q hq fl => ?_, fun _ x hx hne => ?_,
    fun w hw x hx file hfile => ?_⟩
  · obtain ⟨l, hl, rfl⟩ := htarget w hw
    obtain ⟨front, hfront, rfl⟩ := path_mem_ways (hs.docsNames.append hl) hq
    have hnames : AreNames front := fun n hn => hs.docsNames.append hl n (hfront.subset hn)
    refine ht.resolve_congr hnames (fun m hm => ?_) fl
    by_contra hne
    obtain ⟨-, haside⟩ := h m hne
    rcases List.prefix_or_prefix_of_prefix (List.prefix_append docs l) (hm.trans hfront) with hp | hp
    · exact haside.outside hp
    · exact haside.above hp
  · apply request_congr
    intro file hfile
    obtain ⟨names, hn, hf, rfl, rfl⟩ := hsupplement x hx file hfile
    have hl := hs.sourceNames.append hn.beside
    rw [hu.read_path p.here hl, ht.read_path p.here hl, fileAt?, fileAt?]
    by_cases hsame : u.get? (source ++ beside names) = t.get? (source ++ beside names)
    · rw [hsame]
    · exact absurd rfl ((h _ hsame).2.unread names hf hne)
  · obtain ⟨l, hl, rfl⟩ := htarget w (targets_mono (by simpa using hc) hw)
    obtain ⟨names, hn, -, -, rfl⟩ := hsupplement x hx file hfile
    rintro ⟨m, content, hw, hf⟩
    obtain ⟨hm, -⟩ := (hu.find_path_iff (hs.docsNames.append hl)).1 hw
    obtain ⟨hm', -⟩ := (hu.find_path_iff (hs.sourceNames.append hn.beside)).1 hf
    exact hs.ne_of_append l (beside names) (hm.symm.trans hm')

end Change

section File
variable {t u : FileTree} (ht : Plain t) (hd : t.get? source = some .directory) {components : List String}
  (hok : p.discover t = .ok components) {c : String} (hc : c ∈ components) {l : Location} {content : Content}
  (hl : t.get? l = some (.file content)) (haside : p.Aside t source docs c l)
include ht hd hok hc hl haside

/-- The removal of a file that is no component. -/
theorem concernsOnly_remove (h : t.remove p.here l.path = .ok u) : p.ConcernsOnly t u components c := by
  refine hs.concernsOnly ht (ht.remove hl h) hd (fun m hm => ?_) hok hc
  rw [ht.get?_remove hl h] at hm
  split at hm
  · next heq =>
    subst heq
    exact ⟨by simp [hl], haside⟩
  · exact absurd rfl hm

/-- Another name for a file that is no component before and after. -/
theorem concernsOnly_move {g : Location} (hg : AreNames g) (hdir : t.get? g ≠ some .directory)
    (hgoal : p.Aside t source docs c g) (h : t.move p.here l.path g.path = .ok u) :
    p.ConcernsOnly t u components c := by
  refine hs.concernsOnly ht (ht.move hl hg hdir h) hd (fun m hm => ?_) hok hc
  rw [(ht.get?_move hl hg hdir h).2] at hm
  split at hm
  · next heq =>
    subst heq
    exact ⟨hdir, hgoal⟩
  · split at hm
    · next heq =>
      subst heq
      exact ⟨by simp [hl], haside⟩
    · exact absurd rfl hm

end File

end Separate

end ComponentDocs.Project
