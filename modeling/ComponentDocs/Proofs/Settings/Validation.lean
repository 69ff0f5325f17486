import ComponentDocs.Proofs.Settings.Places
/-! Patterns are checked one by one. Each invalid one is reported, with its text and with the layer it is from, and
only the layer that counts is checked. -/
namespace ComponentDocs
open Settings

namespace Glob

def isValid (text : String) : Bool := (Glob.parse text).isOk

theorem pattern_of_parse {text : String} {e : Glob.Error} (h : Glob.parse text = .error e) : e.pattern = text := by
  unfold Glob.parse at h
  split at h
  · cases h
  · cases h
    rfl

end Glob

namespace PatternList

/-- A problem that reports one text of a layer as an invalid pattern. -/
def Rejects (source : Source) (text : String) (problem : Problem) : Prop :=
  ∃ e, Glob.parse text = .error e ∧
    problem = ⟨some "components", "invalid glob pattern '" ++ text ++ "': " ++ e.message, some source⟩

variable {texts : List String} {globs : List Glob} {failed : List (String × Glob.Error)}

theorem compile_cons (text : String) (texts : List String) (source : Source) :
    compile ⟨text :: texts, source⟩ =
      match Glob.parse text with
      | .ok g => (⟨g :: (compile ⟨texts, source⟩).1.globs⟩, (compile ⟨texts, source⟩).2)
      | .error e => ((compile ⟨texts, source⟩).1, problem source e :: (compile ⟨texts, source⟩).2) := by
  dsimp only [compile]
  rw [List.map_cons]
  cases Glob.parse text <;> rfl

theorem compile_of_sifted (h : Sifted Glob.parse texts globs failed) (source : Source) :
    compile ⟨texts, source⟩ = (⟨globs⟩, failed.map fun x => problem source x.2) := by
  induction h with
  | nil => rfl
  | ok h _ ih => rw [compile_cons, h, ih]
  | error h _ ih => rw [compile_cons, h, ih, List.map_cons]

/-- Each invalid text has one problem, and all problems are there in the order of the texts. -/
theorem rejects_of_sifted (h : Sifted Glob.parse texts globs failed) (source : Source) :
    List.Forall₂ (Rejects source) (texts.filter fun text => !Glob.isValid text)
      (failed.map fun x => problem source x.2) := by
  rw [List.forall₂_map_right_iff]
  refine h.forall₂_failed.imp fun text x hx => ⟨x.2, hx.2, ?_⟩
  rw [problem, Glob.pattern_of_parse hx.2]

theorem parse_of_sifted (h : Sifted Glob.parse texts globs failed) :
    parse texts = if failed = [] then .ok ⟨globs⟩
      else .error (failed.map fun x => problem ⟨.overrideFile, none, .ofString "."⟩ x.2) := by
  rw [parse, compile_of_sifted h]
  cases failed <;> rfl

theorem parse_eq_ok_iff (h : Sifted Glob.parse texts globs failed) {l : PatternList} :
    parse texts = .ok l ↔ (∀ text ∈ texts, Glob.isValid text = true) ∧ l = ⟨globs⟩ := by
  have hvalid : failed = [] ↔ ∀ text ∈ texts, Glob.isValid text = true := h.failed_eq_nil_iff
  rw [parse_of_sifted h, ← hvalid]
  split
  · next hnone => simp [hnone, eq_comm]
  · next hsome => simp [hsome]

theorem parse_singleton_eq_ok_iff {text : String} {l : PatternList} :
    parse [text] = .ok l ↔ ∃ g, Glob.parse text = .ok g ∧ l = ⟨[g]⟩ := by
  cases hg : Glob.parse text with
  | ok g => simp [parse_of_sifted (.ok hg .nil), eq_comm]
  | error e => simp [parse_of_sifted (.error hg .nil)]

end PatternList

namespace Settings
variable {t : FileTree} {here : Location} {kind : SourceKind} {file : Path} {l : Located Written} {dir : Path}
  {named : Option Path}

theorem IsFileLayer.source_eq (h : IsFileLayer t here kind file l) : l.source = .ofFile kind file := by
  obtain ⟨value, kind', path, baseDir⟩ := l
  obtain ⟨hkind, hpath, hbase, -⟩ := h
  dsimp only at hkind hpath hbase
  rw [hkind, hpath, Source.ofFile, hbase]
  rfl

theorem IsFileLayer.exists? (h : IsFileLayer t here kind file l) : t.exists? here file = true := by
  obtain ⟨text, htext, -⟩ := h.value
  obtain ⟨content, hread, -⟩ := bind_eq_ok htext
  obtain ⟨x, hfind, -⟩ := bind_eq_ok hread
  simp [FileTree.exists?, hfind, Except.toOption]

theorem foldlM_readOnto {files : List (SourceKind × Path)} {layers : List (Located Written)}
    (h : List.Forall₂ (fun f l => IsFileLayer t here f.1 f.2 l) files layers) (below : List (Located Written)) :
    (files.map fun f => Source.ofFile f.1 f.2).foldlM (readOnto t here) (stacked below) =
      .ok (stacked (below ++ layers)) := by
  induction h generalizing below with
  | nil =>
    rw [List.append_nil]
    rfl
  | @cons f l files layers hl _ ih =>
    have hpath : (Source.ofFile f.1 f.2).path.getD fileName = f.2 := rfl
    have hread : readOnto t here (stacked below) (.ofFile f.1 f.2) = .ok (stacked (below ++ [l])) := by
      rw [readOnto, hpath, hl.readLayer hl.source_eq, stacked_concat]
      rfl
    have hrest := ih (below ++ [l])
    rw [← List.append_cons] at hrest
    rw [List.map_cons, List.foldlM_cons, hread]
    exact hrest

theorem FileLayers.forall₂_files (files : FileLayers t here dir named) :
    List.Forall₂ (fun f l => IsFileLayer t here f.1 f.2 l) (filesOf (ownCounts t here dir named) dir named)
      (files.own.toList ++ files.override.toList) := by
  apply List.rel_append
  · have hown : files.own.isSome ↔ ownCounts t here dir named = true := files.isSome_own.trans ownCounts_iff.symm
    cases ho : files.own with
    | none =>
      have hno : ownCounts t here dir named = false := by simpa [ho] using hown
      rw [hno]
      exact .nil
    | some l =>
      have hyes : ownCounts t here dir named = true := by simpa [ho] using hown
      rw [hyes]
      exact .cons (files.isFileLayer_own l ho) .nil
  · have hover := files.isSome_override
    cases ho : files.override with
    | none =>
      have hno : named = none := by simpa [ho] using hover
      rw [hno]
      exact .nil
    | some l =>
      obtain ⟨file, hnamed⟩ : ∃ file, named = some file := Option.isSome_iff_exists.1 (hover.1 (by simp [ho]))
      rw [hnamed]
      exact .cons (files.isFileLayer_override l file ho hnamed) .nil

theorem FileLayers.checkNamed_eq (files : FileLayers t here dir named) :
    checkNamed t here (named.map dir.join) = .ok () := by
  cases hnamed : named with
  | none => rfl
  | some file =>
    obtain ⟨l, hl⟩ := Option.isSome_iff_exists.1 (files.isSome_override.2 (by simp [hnamed]))
    simp [checkNamed, (files.isFileLayer_override l file hl hnamed).exists?]

end Settings

namespace Config
variable {t : FileTree} {here : Location} {start named : Option Path} {dir : Path}

theorem load_of_fileLayers (hdir : Settings.workingDir t here start = .ok dir) (files : FileLayers t here dir named) :
    Config.load t here start named =
      validated (Config.ofLayers (stacked files.all) dir (files.all.map (·.source))) := by
  have hsources : sources t here dir (named.map dir.join) =
      (files.own.toList ++ files.override.toList).map (·.source) := by
    rw [sources_eq, ← List.forall₂_eq_eq_eq, List.forall₂_map_left_iff, List.forall₂_map_right_iff]
    exact files.forall₂_files.imp fun _ _ h => h.source_eq.symm
  have hmerged := foldlM_readOnto files.forall₂_files [⟨Written.defaults, .defaults, none, dir⟩]
  rw [← sources_eq, stacked_defaults] at hmerged
  rw [load_eq, hdir]
  simp only [bind, Except.bind, files.checkNamed_eq, hmerged]
  rw [hsources]
  rfl

/-- What settings come to, by the patterns that count. -/
inductive Verdict (patterns : Located (List String)) : Except LoadError Config → Prop
  | missing (h : patterns.value = []) :
    Verdict patterns (.error (.invalid [⟨none, "at least one component pattern is required", none⟩]))
  | rejected {problems : List Problem} (h : ∃ text ∈ patterns.value, Glob.isValid text = false)
    (hp : List.Forall₂ (PatternList.Rejects patterns.source) (patterns.value.filter fun text => !Glob.isValid text)
      problems) : Verdict patterns (.error (.invalid problems))
  | accepted {c : Config} (hne : patterns.value ≠ []) (h : ∀ text ∈ patterns.value, Glob.isValid text = true)
    (hc : c.components.texts = patterns.value) : Verdict patterns (.ok c)

theorem verdict_of_components {merged : Layer} {patterns : Located (List String)}
    (h : merged.components = some patterns) (dir : Path) (layers : List Source) : Verdict patterns (validated (ofLayers merged dir layers)) := by
  obtain ⟨globs, failed, hs⟩ := exists_sifted Glob.parse patterns.value
  have hcompile : PatternList.compile patterns = _ := PatternList.compile_of_sifted hs patterns.source
  have hp := PatternList.rejects_of_sifted hs patterns.source
  have hvalid : failed = [] ↔ ∀ text ∈ patterns.value, Glob.isValid text = true := hs.failed_eq_nil_iff
  simp only [ofLayers, h, Option.getD_some, hcompile]
  cases failed with
  | cons x rest =>
    rw [if_neg (by simp)]
    exact .rejected (by simpa using hvalid) hp
  | nil =>
    have hmap := hs.map_of_none_failed
    cases globs with
    | nil => exact .missing (by simpa using hmap)
    | cons g globs =>
      refine .accepted ?_ (hvalid.1 rfl) (PatternList.texts_of_map_parse hmap)
      intro hno
      simp [hno] at hmap

theorem Verdict.isInvalid_iff {patterns : Located (List String)} {result : Except LoadError Config}
    (h : Verdict patterns result) : (∃ problems, result = .error (.invalid problems)) ↔
      patterns.value = [] ∨ ∃ text ∈ patterns.value, Glob.isValid text = false := by
  cases h with
  | missing h => simp [h]
  | rejected h => simpa using .inr h
  | accepted hne h =>
    have hok : ∀ text ∈ patterns.value, Glob.isValid text ≠ false := fun text hm => by simp [h text hm]
    simpa [hne] using hok

end Config

open PatternList in
/-- A list of patterns is accepted if every one of them is valid, and otherwise each invalid one is reported, in
order and by its text. Of the layers, only the patterns of the highest that has any are checked, and the problems
are told with that layer. -/
theorem pattern_problems_exact :
    (∀ patterns : List String,
      ((∃ l, parse patterns = .ok l) ↔ ∀ text ∈ patterns, Glob.isValid text = true) ∧
      (∀ problems, parse patterns = .error problems →
        List.Forall₂ (Rejects ⟨.overrideFile, none, .ofString "."⟩) (patterns.filter fun text => !Glob.isValid text)
          problems) ∧
      ∀ l, parse patterns = .ok l → l.texts = patterns ∧
        ∀ q, l.matchesPath q = true ↔
          ∃ text ∈ patterns, ∃ single, parse [text] = .ok single ∧ single.matchesPath q = true) ∧
    ∀ (t : FileTree) (here : Location) (start named : Option Path) (dir : Path),
      Settings.workingDir t here start = .ok dir → ∀ files : FileLayers t here dir named,
        ∃ winning, highest files.all (·.components) = some winning ∧
          ((∃ problems, Config.load t here start named = .error (.invalid problems)) ↔
            winning.value = [] ∨ ∃ text ∈ winning.value, Glob.isValid text = false) ∧
          Config.Verdict winning (Config.load t here start named) := by
  constructor
  · intro patterns
    obtain ⟨globs, failed, hs⟩ := exists_sifted Glob.parse patterns
    refine ⟨by simp [parse_eq_ok_iff hs], fun problems h => ?_, fun l h => ?_⟩
    · rw [parse_of_sifted hs] at h
      split at h
      · cases h
      · cases h
        exact rejects_of_sifted hs _
    · obtain ⟨hvalid, rfl⟩ := (parse_eq_ok_iff hs).1 h
      obtain rfl := hs.failed_eq_nil_iff.2 hvalid
      refine ⟨texts_of_map_parse hs.map_of_none_failed, fun q => ?_⟩
      simp only [matchesPath, List.any_eq_true, hs.mem_made_iff, parse_singleton_eq_ok_iff]
      constructor
      · rintro ⟨g, ⟨text, hm, hg⟩, hq⟩
        exact ⟨text, hm, ⟨[g]⟩, ⟨g, hg, rfl⟩, g, by simp, hq⟩
      · rintro ⟨text, hm, _, ⟨g, hg, rfl⟩, other, hother, hq⟩
        obtain rfl := List.mem_singleton.1 hother
        exact ⟨other, ⟨text, hm, hg⟩, hq⟩
  · intro t here start named dir hdir files
    obtain ⟨winning, hw⟩ : ∃ winning, highest files.all (·.components) = some winning := exists_highest _ _ rfl
    have hstack : (stacked files.all).components = highest files.all (·.components) :=
      get_stacked_located rfl (fun _ _ => rfl) (fun _ _ => rfl) files.all
    have hverdict := Config.verdict_of_components (hstack.trans hw) dir (files.all.map (·.source))
    rw [← Config.load_of_fileLayers hdir files] at hverdict
    exact ⟨winning, hw, hverdict.isInvalid_iff, hverdict⟩

/-- A directory whose patterns are all invalid, and a file that gives others. -/
def mistakenTree : FileTree :=
  ⟨[(["w".toList], .directory),
    (["w".toList, "docgen.config.toml".toList], .file (.text "components = \"[b-a]\"\n")),
    (["w".toList, "ci.toml".toList], .file (.text "components = [\"a\x7d\", \"*.vue\", \"[\"]\n"))]⟩

theorem pattern_problems_exact_mistaken :
    let named := Path.ofString "ci.toml"
    let source := Source.ofFile .overrideFile (.ofString "/w/ci.toml")
    Settings.workingDir mistakenTree [] (some (.ofString "/w")) = .ok (.ofString "/w") ∧
    ∃ files : FileLayers mistakenTree [] (.ofString "/w") (some named),
      highest files.all (·.components) = some ⟨["a\x7d", "*.vue", "["], source⟩ ∧
      ∃ problems, Config.load mistakenTree [] (some (.ofString "/w")) (some named) = .error (.invalid problems) ∧
        List.Forall₂ (PatternList.Rejects source) ["a\x7d", "["] problems := by
  intro named source
  have hdir : Settings.workingDir mistakenTree [] (some (.ofString "/w")) = .ok (.ofString "/w") := by decide +kernel
  let own : Located Written :=
    ⟨{ components := some ["[b-a]"] }, .ofFile .localFile (.ofString "/w/docgen.config.toml")⟩
  let override : Located Written := ⟨{ components := some ["a\x7d", "*.vue", "["] }, source⟩
  have hown : IsFileLayer mistakenTree [] .localFile (.ofString "/w/docgen.config.toml") own :=
    ⟨rfl, rfl, by decide +kernel, "components = \"[b-a]\"\n", by decide +kernel, by decide +kernel⟩
  have hover : IsFileLayer mistakenTree [] .overrideFile (.ofString "/w/ci.toml") override :=
    ⟨rfl, rfl, by decide +kernel, "components = [\"a\x7d\", \"*.vue\", \"[\"]\n", by decide +kernel, by decide +kernel⟩
  have hcounts : ownCounts mistakenTree [] (.ofString "/w") (some named) = true := by decide +kernel
  let files : FileLayers mistakenTree [] (.ofString "/w") (some named) :=
    { own := some own
      override := some override
      isSome_own := by simpa using ownCounts_iff.1 hcounts
      isSome_override := by simp
      isFileLayer_own := by
        rintro _ ⟨⟩
        exact hown
      isFileLayer_override := by
        rintro _ _ ⟨⟩ ⟨⟩
        exact hover }
  obtain ⟨winning, hw, -, hverdict⟩ := pattern_problems_exact.2 _ _ _ _ _ hdir files
  obtain rfl : (⟨["a\x7d", "*.vue", "["], source⟩ : Located (List String)) = winning := Option.some.inj hw
  have hrejected : (["a\x7d", "*.vue", "["].filter fun text => !Glob.isValid text) = ["a\x7d", "["] := by decide +kernel
  refine ⟨hdir, files, hw, ?_⟩
  generalize Config.load mistakenTree [] (some (.ofString "/w")) (some named) = result at hverdict ⊢
  cases hverdict with
  | missing h => cases h
  | rejected _ hp => exact ⟨_, rfl, hrejected ▸ hp⟩
  | accepted _ h => exact absurd (h "[" (by simp)) (by decide +kernel)

end ComponentDocs
