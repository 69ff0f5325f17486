import ComponentDocs.Proofs.Settings.Places
/-! Whether a project answers to the files that it writes itself. A file is known for a document by the spelling of
its path, and is looked for in normal form. The two agree as long as there are no steps up in the path. -/
namespace ComponentDocs.Project
open FileTree ComponentDocs.Path

variable {p : Project} {t : FileTree} {w : Path}

/-- Where the documents of a project are: the one file, or else the directory. -/
def outputPlace (p : Project) : Path := p.config.outFile.getD p.config.outDir

/-- A file that is written by a run over all components, or after the change of some file. -/
inductive Writes (p : Project) (t : FileTree) (w : Path) : Prop
  | generateAll (h : w ∈ (p.generateAll t).written)
  | regenerateFor (path : Path) (h : w ∈ (p.regenerateFor t path).written)

theorem exists_key_of_discover {components : List String} (hd : p.discover t = .ok components) {c : String}
    (hc : c ∈ components) : ∃ q : Path, c = q.key := by
  obtain ⟨files, -, rfl⟩ := discover_eq_ok_iff.1 hd
  rw [List.mem_mergeSort] at hc
  obtain ⟨q, -, rfl⟩ := List.mem_map.1 hc
  exact ⟨q, rfl⟩

theorem exists_key_of_componentFor {path : Path} {c : String} (h : p.componentFor t path = .ok (some c)) :
    ∃ q : Path, c = q.key := by
  rcases componentFor_cases h with hnamed | ⟨-, components, hd, hc⟩
  · unfold namedComponent? at hnamed
    split at hnamed
    · next q _ =>
      split at hnamed
      · exact ⟨q, (Option.some.inj hnamed).symm⟩
      · cases hnamed
    · cases hnamed
  · exact exists_key_of_discover hd hc

/-- What is written is written for a component, which is known by the steps of a path. -/
theorem Writes.exists_key (h : p.Writes t w) : ∃ q : Path, w ∈ p.targets [q.key] := by
  cases h with
  | generateAll h =>
    cases hd : p.discover t with
    | error e => simp [Outcome.written, Project.generateAll, hd] at h
    | ok components =>
      have htarget := mem_targets_of_generateAll hd h
      unfold targets at htarget ⊢
      cases hf : p.config.outFile with
      | some file =>
        rw [hf] at htarget
        exact ⟨⟨[]⟩, htarget⟩
      | none =>
        rw [hf] at htarget
        obtain ⟨c, hc, rfl⟩ := List.mem_map.1 htarget
        obtain ⟨q, rfl⟩ := exists_key_of_discover hd hc
        exact ⟨q, List.mem_singleton_self _⟩
  | regenerateFor path h =>
    obtain ⟨c, hc, htarget⟩ := mem_targets_of_regenerateFor h
    obtain ⟨q, rfl⟩ := exists_key_of_componentFor hc
    exact ⟨q, htarget⟩

section File
variable {file : Path} (hf : p.config.outFile = some file) (hfile : file.IsAnchored)
include hf hfile

/-- The one file of all documents is known in normal form too if its path has no steps up, and only then. -/
theorem isOutput_normalize_file : p.isOutput file.normalize = true ↔ .up ∉ file.segments := by
  unfold isOutput
  simp only [hf, same_iff]
  constructor
  · intro hsame hup
    obtain habs | hempty := hfile
    · exact up_notMem_normalize habs (hsame ▸ hup)
    · rw [Path.isEmpty_iff.1 hempty] at hup
      cases hup
  · exact hfile.segments_normalize

end File

section Directory
variable (hf : p.config.outFile = none) (hdest : p.config.destination = Config.defaultDestination)
  (hdir : p.config.outDir.IsAnchored)

include hdest in
theorem outDir_above_destination {q : Path} (hne : q.key ≠ "") :
    p.config.outDir.segments <+: (p.destination q.key).segments := by
  have hsteps : q.steps ≠ [] := by
    intro hnil
    rw [key_eq_steps, hnil] at hne
    exact hne rfl
  rw [destination, Config.destFile, hdest]
  exact prefix_segments_withExtension (by decide) (by decide) (segments_join_key _ q) hsteps

include hf hdest hdir

/-- A document without steps up in its path is known in normal form too. -/
theorem isOutput_normalize_destination {q : Path} (hne : q.key ≠ "") (hup : .up ∉ (p.destination q.key).segments) :
    p.isOutput (p.destination q.key).normalize = true := by
  unfold isOutput
  simp only [hf, startsWith_iff]
  obtain habs | hempty := hdir
  · have hdestination : (p.destination q.key).isAbsolute = true := by
      rw [destination, Config.destFile, hdest]
      exact isAbsolute_withExtension (isAbsolute_join_left habs _) _
    rw [segments_normalize hdestination hup]
    exact outDir_above_destination hdest hne
  · rw [Path.isEmpty_iff.1 hempty]
    exact List.nil_prefix

/-- Below a directory whose path has steps up, no document is known in normal form. -/
theorem not_isOutput_normalize_destination (c : String) (hup : .up ∈ p.config.outDir.segments) :
    p.isOutput (p.destination c).normalize = false := by
  have habs : p.config.outDir.isAbsolute = true := by
    apply hdir.resolve_right
    intro hempty
    rw [Path.isEmpty_iff.1 hempty] at hup
    cases hup
  have hdestination : (p.destination c).isAbsolute = true := by
    rw [destination, Config.destFile, hdest]
    exact isAbsolute_withExtension (isAbsolute_join_left habs _) _
  rw [← Bool.not_eq_true]
  unfold isOutput
  simp only [hf, startsWith_iff]
  intro habove
  exact up_notMem_normalize hdestination (habove.subset hup)

end Directory

theorem componentFor_of_isOutput {path : Path} (h : p.isOutput path = true) (t : FileTree) :
    p.componentFor t path = .ok none := by
  rw [componentFor, h, if_pos rfl]

theorem handle_of_componentFor {path : Path} (h : p.componentFor t path = .ok none) :
    p.handle t (.changed path) = { tree := t, result := .ok {} } := by
  have hnothing : p.regenerateFor t path = { tree := t, result := .ok {} } := by
    rw [regenerateFor, h]
  rw [handle, hnothing]

/-- Settings that are loaded name a place for the documents from the root, or none at all. -/
theorem isAnchored_of_load {t : FileTree} {here : Location} {start named : Option Path} {c : Config}
    (h : Config.load t here start named = .ok c) :
    c.outDir.IsAnchored ∧ (∀ file ∈ c.outFile, file.IsAnchored) ∧ c.destination = Config.defaultDestination := by
  obtain ⟨_, -, _, -, hplaces⟩ := Config.namesPlaces_of_load h
  obtain ⟨_, _, -, -, -, hc⟩ := Config.load_isMadeOf h
  refine ⟨(hplaces.place .outDir c.outDir rfl).isAnchored, ?_, ?_⟩
  · intro file hfile
    exact (hplaces.place .outFile file hfile).isAnchored
  · rw [hc]
    rfl

/-- A project does not answer to a file that it wrote when its path is reported in normal form, unless it was written
by a path with steps up, or for the component without a name. Where the place of the documents is given with steps
up, no such file is known for one of its own. -/
theorem handle_written {here : Location} {start named : Option Path} {c : Config} {t₀ : FileTree}
    (h : Config.load t₀ here start named = .ok c) (hp : p.config = c.rootedAtComponents) (hw : p.Writes t w) :
    (.up ∉ w.segments → (p.config.outFile = none → w ≠ p.destination "") → ∀ now,
      p.componentFor now w.normalize = .ok none ∧
        p.handle now (.changed w.normalize) = { tree := now, result := .ok {} }) ∧
    (.up ∈ p.outputPlace.segments → p.isOutput w.normalize = false) := by
  obtain ⟨hdir, hfile, hdest⟩ := isAnchored_of_load h
  replace hdir : p.config.outDir.IsAnchored := hp ▸ hdir
  replace hfile : ∀ file ∈ p.config.outFile, file.IsAnchored := hp ▸ hfile
  replace hdest : p.config.destination = Config.defaultDestination := hp ▸ hdest
  obtain ⟨q, htarget⟩ := hw.exists_key
  have hknown : (.up ∉ w.segments → (p.config.outFile = none → w ≠ p.destination "") → p.isOutput w.normalize = true) ∧
      (.up ∈ p.outputPlace.segments → p.isOutput w.normalize = false) := by
    unfold targets at htarget
    unfold outputPlace
    cases hf : p.config.outFile with
    | some file =>
      rw [hf] at htarget
      obtain rfl := List.mem_singleton.1 htarget
      have hiff := isOutput_normalize_file hf (hfile w hf)
      refine ⟨fun hup _ => hiff.2 hup, fun hup => ?_⟩
      rw [← Bool.not_eq_true, hiff]
      exact not_not.2 hup
    | none =>
      rw [hf] at htarget
      obtain rfl := List.mem_singleton.1 htarget
      refine ⟨fun hup hroot => ?_, not_isOutput_normalize_destination hf hdest hdir q.key⟩
      apply isOutput_normalize_destination hf hdest hdir _ hup
      intro hkey
      exact hroot rfl (congrArg p.destination hkey)
  refine ⟨fun hup hroot now => ?_, hknown.2⟩
  have hnone := componentFor_of_isOutput (hknown.1 hup hroot) now
  exact ⟨hnone, handle_of_componentFor hnone⟩

/-- A directory with a component and a file of settings. -/
def componentTree (settings : String) : FileTree :=
  siteTree [(["A.vue"], .file (.text "")), (["docgen.config.toml"], .file (.text settings))]

theorem handle_written_spelled :
    let t := componentTree "out_dir = \"./docs//out\"\n"
    let w := Path.ofString "/w/./docs//out/A.md"
    ∃ c, Config.load t [['w']] none none = .ok c ∧ (siteProject c).Writes t w ∧
      w.normalize = .ofString "/w/docs/out/A.md" ∧
      ∀ now, (siteProject c).handle now (.changed w.normalize) = { tree := now, result := .ok {} } := by
  intro t w
  obtain ⟨c, hc, hpaths⟩ := exists_eq_ok (r := Config.load t [['w']] none none)
    (fun c => (((siteProject c).generateAll t).written, (siteProject c).destination ""))
    (show _ = some ([w], .ofString "/w/./docs//out.md") by decide +kernel)
  obtain ⟨hwritten, hroot⟩ := Prod.mk.inj hpaths
  have hw : (siteProject c).Writes t w := .generateAll (by simp [hwritten])
  have hquiet := (handle_written hc rfl hw).1 (by decide +kernel) fun _ => by
    rw [hroot]
    decide +kernel
  exact ⟨c, hc, hw, by decide +kernel, fun now => (hquiet now).2⟩

/-- With these settings the event of a document that was just written is taken for one of a supplementary file, and the
document is written again. -/
def WritesAgain (settings : String) : Prop :=
  let t := componentTree settings
  let w := Path.ofString "/w/x/../A.md"
  ∃ c, Config.load t [['w']] none none = .ok c ∧
    let p := siteProject c
    let now := (p.generateAll t).tree
    ((p.generateAll t).written, w.normalize, p.componentFor now w.normalize,
        (p.handle now (.changed w.normalize)).written) =
      ([w], .ofString "/w/A.md", .ok (some "A.vue"), [w])

/-- Steps up in the place of the documents have this effect, in either mode. -/
theorem handle_written_again : WritesAgain "out_dir = \"x/..\"\n" ∧ WritesAgain "out_file = \"x/../A.md\"\n" := by
  constructor
  · exact exists_eq_ok _ (by decide +kernel)
  · exact exists_eq_ok _ (by decide +kernel)

end ComponentDocs.Project
