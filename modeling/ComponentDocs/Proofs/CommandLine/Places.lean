import ComponentDocs.Proofs.CommandLine.Elsewhere
/-! The places that settings name once flags are on top of them. -/
namespace ComponentDocs

/-- The flag that gives a path, if there is one. -/
def Settings.PathSetting.flag? : Settings.PathSetting → Option CommandLine.Flag
  | .outDir => some .outDir
  | .outFile => some .outFile
  | .template => none

namespace CommandLine
open Settings ComponentDocs.Path

namespace Given

def given? (g : Given) (s : PathSetting) : Option String := s.flag?.bind g.value?

/-- A path that a flag gives starts from the directory of the settings. Every other one stays as it is. -/
theorem chosen_pathsOnto (g : Given) (c : Config) (s : PathSetting) : s.chosen (g.pathsOnto c) =
    ((g.given? s).map fun text => c.cwd.join (.ofString text)).or (s.chosen c) := by
  cases s with
  | outDir =>
    change some (g.pathsOnto c).outDir = ((g.value? .outDir).map _).or (some c.outDir)
    unfold pathsOnto
    cases g.value? .outDir <;> rfl
  | outFile => rfl
  | template => rfl

/-- With paths from flags, places stay definite, and fewer of them are left empty. -/
theorem namesPlaces_pathsOnto {c : Config} {leftEmpty : PathSetting → Prop} (h : c.NamesPlaces leftEmpty) (g : Given) :
    (g.pathsOnto c).NamesPlaces fun s => g.given? s = none ∧ leftEmpty s := by
  refine ⟨h.cwd, h.componentsDir, h.components, fun s p hp => ?_⟩
  rw [chosen_pathsOnto] at hp
  cases hg : g.given? s with
  | none =>
    rw [hg] at hp
    exact (h.place s p hp).congr (by simp)
  | some text =>
    obtain rfl : c.cwd.join (.ofString text) = p := by simpa [hg] using hp
    exact .of_isAbsolute (isAbsolute_join_left h.cwd _) (by simp)

end Given

theorem namesPlaces_patternsOnto {g : Given} {c c' : Config} {leftEmpty : PathSetting → Prop}
    (h : c.NamesPlaces leftEmpty) (hc : g.patternsOnto c = .ok c') : c'.NamesPlaces leftEmpty := by
  unfold Given.patternsOnto at hc
  split at hc
  · cases hc
    exact h
  · next hne =>
    split at hc
    · next hparse =>
      cases hc
      refine ⟨h.cwd, h.componentsDir, ?_, h.place⟩
      rw [PatternList.isEmpty_parse hparse, List.isEmpty_eq_false_iff]
      exact hne
    · cases hc

/-- Settings that are loaded name definite places, and so they do with flags on top. A path is empty where the
highest layer that has it leaves it empty and no flag gives it, and only there. -/
theorem load_namesPlaces {t : FileTree} {here : Location} {start named : Option Path} {c : Config}
    (h : Config.load t here start named = .ok c) :
    ∃ dir, Settings.workingDir t here start = .ok dir ∧ ∃ files : FileLayers t here dir named,
      c.NamesPlaces (LeftEmpty files.all) ∧
      ∀ g : Given, (g.value? .cwd).map .ofString = start → (g.value? .config).map .ofString = named →
        ∀ c', loadConfig t here g = .ok c' → c'.NamesPlaces fun s => g.given? s = none ∧ LeftEmpty files.all s := by
  obtain ⟨dir, hdir, files, -, hplaces⟩ := Config.namesPlaces_of_load h
  refine ⟨dir, hdir, files, hplaces, fun g hstart hnamed c' hc' => ?_⟩
  rw [loadConfig_eq, hstart, hnamed, h] at hc'
  cases hlisted : g.patternsOnto c with
  | error e =>
    simp only [bind, Except.bind, hlisted] at hc'
    cases hc'
  | ok listed =>
    simp only [bind, Except.bind, hlisted] at hc'
    cases hc'
    exact Given.namesPlaces_pathsOnto (namesPlaces_patternsOnto hplaces hlisted) g

def emptiedTree : FileTree :=
  ⟨[(["w".toList], .directory), (["w".toList, "docgen.config.toml".toList],
      .file (.text "out_dir = \"\"\nout_file = \"\"\n[templates]\ncomponent = \"\"\n"))]⟩

theorem load_namesPlaces_emptied :
    ∃ c c', Config.load emptiedTree [['w']] none none = .ok c ∧ c.outDir = ⟨[]⟩ ∧
      loadConfig emptiedTree [['w']] [(.outDir, "site")] = .ok c' ∧
      (c'.outDir, c'.outFile) = (.ofString "/w/site", some ⟨[]⟩) ∧
      ∃ files : FileLayers emptiedTree [['w']] (.ofString "/w") none, c.NamesPlaces (LeftEmpty files.all) ∧
        c'.NamesPlaces fun s => Given.given? [(.outDir, "site")] s = none ∧ LeftEmpty files.all s := by
  obtain ⟨c, hc, hout⟩ := exists_eq_ok (r := Config.load emptiedTree [['w']] none none) (·.outDir)
    (show _ = some ⟨[]⟩ by decide +kernel)
  obtain ⟨c', hc', hpaths⟩ := exists_eq_ok (r := loadConfig emptiedTree [['w']] [(.outDir, "site")])
    (fun c => (c.outDir, c.outFile)) (show _ = some (.ofString "/w/site", some ⟨[]⟩) by decide +kernel)
  obtain ⟨dir, hdir, files, hplaces, hflags⟩ := load_namesPlaces hc
  cases hdir.symm.trans (show Settings.workingDir emptiedTree [['w']] none = .ok (.ofString "/w") from rfl)
  exact ⟨c, c', hc, hout, hc', hpaths, files, hplaces, hflags _ rfl rfl c' hc'⟩

/-- A path that a file leaves empty is not given from the root. -/
theorem load_leaves_empty : ∃ c, Config.load emptiedTree [['w']] none none = .ok c ∧
    (c.outDir.isAbsolute, c.outFile.map Path.isAbsolute, c.template.map Path.isAbsolute) =
      (false, some false, some false) :=
  exists_eq_ok _ (by decide +kernel)

end CommandLine

end ComponentDocs
