import ComponentDocs.Settings.Config
import ComponentDocs.Proofs.Path.Join
import ComponentDocs.Proofs.Glob.Language
import ComponentDocs.Proofs.Text.Basic
import Mathlib.Data.List.ModifyLast
/-! The rules by which files belong to a component, on paths that are made of names. -/
namespace ComponentDocs

namespace Path

def beside (names : List (List Char)) : List (List Char) := names.modifyLast (retitle Config.markdown)

theorem beside_append (front : List (List Char)) (n : List Char) :
    beside (front ++ [n]) = front ++ [retitle Config.markdown n] := List.modifyLast_concat _ _ _

theorem IsName.markdown {n : List Char} (h : IsName n) : IsName (Path.retitle Config.markdown n) :=
  h.retitle (by decide) (by decide)

theorem AreNames.beside {names : List (List Char)} (h : AreNames names) : AreNames (beside names) := by
  by_cases hne : names = []
  · subst hne
    exact h
  · obtain ⟨front, n, rfl⟩ := exists_eq_append hne
    rw [beside_append]
    exact h.left.append fun m hm => by
      rw [List.mem_singleton.1 hm]
      exact (h n (by simp)).markdown

theorem beside_ne_nil {names : List (List Char)} (hne : names ≠ []) : beside names ≠ [] := by
  obtain ⟨front, n, rfl⟩ := exists_eq_append hne
  simp [beside_append]

theorem beside_beside {names : List (List Char)} (h : AreNames names) : beside (beside names) = beside names := by
  by_cases hne : names = []
  · subst hne
    rfl
  · obtain ⟨front, n, rfl⟩ := exists_eq_append hne
    rw [beside_append, beside_append, retitle_retitle (by decide) (h n (by simp))]

end Path

namespace Config
open ComponentDocs.Path

theorem withExtension_markdown {base names : List (List Char)} (hb : AreNames base) (hne : names ≠ [])
    (h : AreNames names) :
    (Location.path (base ++ names)).withExtension markdown = Location.path (base ++ beside names) := by
  obtain ⟨front, n, rfl⟩ := exists_eq_append hne
  rw [beside_append, ← List.append_assoc, ← List.append_assoc, Location.withExtension_path]
  rw [List.append_assoc]
  exact hb.append h

theorem defaultSupplement_path {source names : List (List Char)} (hs : AreNames source) (hne : names ≠ [])
    (h : AreNames names) :
    defaultSupplement (Location.path (source ++ names)) = some (Location.path (source ++ beside names)) := by
  rw [defaultSupplement, withExtension_markdown hs hne h]

/-- The document lies below the directory of the documents as the supplementary file does below that
of the components. -/
theorem defaultDestination_path {s : ProjectSettings} {docs names : List (List Char)}
    (hd : s.outDir = Location.path docs) (hs : AreNames docs) (hne : names ≠ []) (h : AreNames names) :
    defaultDestination s (ofNames names) = Location.path (docs ++ beside names) := by
  rw [defaultDestination, hd, Location.join_path docs hne h hs, withExtension_markdown hs hne h]

end Config

/-! Settings whose component paths start from the directory of the components. They are meant to name the
same places as the settings they come from. That holds for a directory that is given by an absolute path, or
by a path without steps. Any other relative path is taken twice, the second time from itself on. -/

namespace Path

/-- A path that leads nowhere but to where it starts. -/
def IsStart (p : Path) : Prop := ∀ s ∈ p.segments, s = .here

instance (p : Path) : Decidable p.IsStart := inferInstanceAs (Decidable (∀ s ∈ p.segments, s = .here))

theorem isStart_iff {p : Path} (ha : p.isAbsolute = false) :
    p.IsStart ↔ (pieces p.chars).filterMap segment? = [] := by
  obtain ⟨front, hfront, hs⟩ := segments_relative ha
  rw [IsStart, hs]
  constructor
  · intro h
    refine List.eq_nil_iff_forall_not_mem.2 fun s hm => ?_
    obtain ⟨piece, -, hp⟩ := List.mem_filterMap.1 hm
    exact ne_here_of_segment? hp (h s (List.mem_append_right _ hm))
  · intro h
    rwa [h, List.append_nil]

/-- A path that is joined to itself is the same path if it is absolute or has no steps. -/
theorem same_join_self_iff {p : Path} (hp : p.isEmpty = false) :
    (p.join p).same p = true ↔ p.isAbsolute = true ∨ p.IsStart := by
  cases ha : p.isAbsolute with
  | true => simp [join_absolute p ha, same_iff]
  | false => simp [same_iff, segments_join hp ha, isStart_iff ha]

end Path

namespace Config
open ComponentDocs.Path

/-- The settings that start from the directory of the components name what the settings `c` name: the same
directory, once and for all, and each component in it. -/
structure IsKeptByRooting (c : Config) : Prop where
  componentsDir : c.rootedAtComponents.componentsDir.same c.componentsDir = true
  rooted_again : ∃ dir, dir.same c.componentsDir = true ∧
    c.rootedAtComponents.rootedAtComponents = { c with cwd := dir, componentsRoot := dir }
  join_cwd : ∀ component, (c.rootedAtComponents.cwd.join component).same (c.componentsDir.join component) = true
  join_componentsRoot : ∀ component,
    (c.rootedAtComponents.componentsRoot.join component).same (c.componentsDir.join component) = true

theorem componentsDir_rooted (c : Config) : c.rootedAtComponents.componentsDir =
    if c.componentsDir.isEmpty then c.componentsDir else c.componentsDir.join c.componentsDir := rfl

theorem same_componentsDir_rooted_iff (c : Config) :
    c.rootedAtComponents.componentsDir.same c.componentsDir = true ↔
      c.componentsDir.isAbsolute = true ∨ c.componentsDir.IsStart := by
  rw [componentsDir_rooted]
  cases he : c.componentsDir.isEmpty with
  | true =>
    have hstart : c.componentsDir.IsStart := by
      rw [isEmpty_iff.1 he]
      decide
    simp [same_iff, hstart]
  | false => exact same_join_self_iff he

/-- Rooting settings at the directory of the components keeps them in place if that directory is given by an
absolute path or by a path without steps, and only then. -/
theorem isKeptByRooting_iff (c : Config) :
    c.IsKeptByRooting ↔ c.componentsDir.isAbsolute = true ∨ c.componentsDir.IsStart := by
  rw [← same_componentsDir_rooted_iff]
  constructor
  · exact fun h => h.componentsDir
  · intro h
    exact ⟨h, ⟨_, h, rfl⟩, fun _ => same_iff.2 rfl, fun _ => same_iff.2 rfl⟩

/-- The settings for a directory that is given by a relative path look for components in another one. -/
theorem not_isKeptByRooting_relative :
    (forWorkingDir (.ofString "here")).componentsDir = .ofString "here" ∧
      (forWorkingDir (.ofString "here")).rootedAtComponents.componentsDir = .ofString "here/here" ∧
      ¬ (forWorkingDir (.ofString "here")).IsKeptByRooting := by
  have hdir : (forWorkingDir (.ofString "here")).componentsDir = .ofString "here" := by decide +kernel
  have hrooted : (forWorkingDir (.ofString "here")).rootedAtComponents.componentsDir = .ofString "here/here" := by
    decide +kernel
  refine ⟨hdir, hrooted, fun h => ?_⟩
  have hsame := h.componentsDir
  rw [hdir, hrooted] at hsame
  exact absurd hsame (by decide +kernel)

end Config

/-! The components of a project without a pattern of its own: files whose name begins with a letter and has one of
three extensions, in whatever directories they are. -/

namespace Glob
open String (utf8EncodeChar)
open Text

def defaultExtensions : List String := ["vue", "jsx", "tsx"]

/-- The default pattern after the directories. -/
def nameTokens : List Token :=
  [.oneOf false [('a', 'z'), ('A', 'Z')], .run, .literal '.',
    .choice (defaultExtensions.map fun e => e.toList.map .literal)]

theorem parse_defaultPattern :
    Glob.parse Settings.Layer.defaultPattern = .ok ⟨Settings.Layer.defaultPattern, .anyFront :: nameTokens⟩ := rfl

variable {s : List UInt8}

theorem allFit_literals_iff {cs : List Char} : AllFit (cs.map .literal) s ↔ s = cs.flatMap utf8EncodeChar := by
  induction cs generalizing s with
  | nil => simp
  | cons c cs ih => simp [ih]

theorem anyFits_defaultExtensions_iff :
    AnyFits (defaultExtensions.map fun e => e.toList.map .literal) s ↔
      ∃ e ∈ defaultExtensions, s = e.toList.flatMap utf8EncodeChar := by
  have hlive : ∀ e ∈ defaultExtensions, isVoid (e.toList.map .literal) = false := by decide
  constructor
  · rintro ⟨_, hm, -, hs⟩
    obtain ⟨e, he, rfl⟩ := List.mem_map.1 hm
    exact ⟨e, he, allFit_literals_iff.1 hs⟩
  · rintro ⟨e, he, hs⟩
    exact ⟨_, List.mem_map_of_mem he, hlive e he, allFit_literals_iff.2 hs⟩

theorem inRange_ascii {first last : Char} (hfirst : first.toNat < 128) (hlast : last.toNat < 128) (hne : first ≠ last)
    {b : UInt8} : inRange (first, last) b = true ↔ first.toNat ≤ b.toNat ∧ b.toNat ≤ last.toNat := by
  simp [inRange, hne, utf8EncodeChar_ascii hfirst, utf8EncodeChar_ascii hlast, UInt8.le_iff_toNat_le, toNat_byte hfirst,
    toNat_byte hlast]

theorem fits_letter_iff :
    (Token.oneOf false [('a', 'z'), ('A', 'Z')]).Fits s ↔ ∃ c : Char, c.isAlpha = true ∧ s = utf8EncodeChar c := by
  have hclass (b : UInt8) : ([('a', 'z'), ('A', 'Z')].any fun r => inRange r b) = true ↔
      97 ≤ b.toNat ∧ b.toNat ≤ 122 ∨ 65 ≤ b.toNat ∧ b.toNat ≤ 90 := by
    have hlower : inRange ('a', 'z') b = true ↔ 97 ≤ b.toNat ∧ b.toNat ≤ 122 :=
      inRange_ascii (by decide) (by decide) (by decide)
    have hupper : inRange ('A', 'Z') b = true ↔ 65 ≤ b.toNat ∧ b.toNat ≤ 90 :=
      inRange_ascii (by decide) (by decide) (by decide)
    simp only [List.any_cons, List.any_nil, Bool.or_false, Bool.or_eq_true, hlower, hupper]
  simp only [fits_oneOf_iff, Bool.bne_false, hclass]
  constructor
  · rintro ⟨b, rfl, hb⟩
    have hascii : b.toNat < 128 := by omega
    exact ⟨Char.ofUInt8 b, isAlpha_iff.2 hb, (utf8EncodeChar_ofUInt8 hascii).symm⟩
  · rintro ⟨c, hc, rfl⟩
    have hrange := isAlpha_iff.1 hc
    have hascii : c.toNat < 128 := by omega
    exact ⟨byte c, utf8EncodeChar_ascii hascii, by rwa [toNat_byte hascii]⟩

theorem allFit_nameTokens_iff : AllFit nameTokens s ↔
    ∃ c rest e, s = utf8EncodeChar c ++ (rest ++ ('.' :: String.toList e).flatMap utf8EncodeChar) ∧ c.isAlpha = true ∧
      (∀ b ∈ rest, isNotSlash b = true) ∧ e ∈ defaultExtensions := by
  simp only [nameTokens, allFit_cons_iff, allFit_nil_iff, fits_letter_iff, fits_run_iff, fits_literal_iff,
    fits_choice_iff, anyFits_defaultExtensions_iff]
  have hlive : areVoid (defaultExtensions.map fun e => e.toList.map .literal) = false := by decide
  constructor
  · rintro ⟨_, _, rfl, ⟨c, hc, rfl⟩, rest, _, rfl, hrest, _, _, rfl, rfl, ext, _, rfl, hext, rfl⟩
    rw [hlive] at hext
    obtain ⟨e, he, rfl⟩ : ∃ e ∈ defaultExtensions, ext = e.toList.flatMap utf8EncodeChar := by simpa using hext
    exact ⟨c, rest, e, by simp, hc, hrest, he⟩
  · rintro ⟨c, rest, e, rfl, hc, hrest, he⟩
    exact ⟨_, _, rfl, ⟨c, hc, rfl⟩, rest, _, rfl, hrest, utf8EncodeChar '.', _, rfl, rfl,
      e.toList.flatMap utf8EncodeChar, [], (List.append_nil _).symm, .inl ⟨e, he, rfl⟩, rfl⟩

theorem ascii_of_mem_defaultExtensions {e : String} (he : e ∈ defaultExtensions) :
    ∀ c ∈ '.' :: e.toList, c.toNat < 128 ∧ c ≠ '/' := by
  simp only [defaultExtensions, List.mem_cons, List.not_mem_nil, or_false] at he
  rcases he with rfl | rfl | rfl <;> simp

theorem slash_notMem_of_allFit (h : AllFit nameTokens s) : slash ∉ s := by
  obtain ⟨c, rest, e, rfl, hc, hrest, he⟩ := allFit_nameTokens_iff.1 h
  have hslash : slash = byte '/' := rfl
  simp only [List.mem_append, not_or]
  refine ⟨fun hm => ?_, fun hm => ?_, fun hm => ?_⟩
  · obtain rfl : c = '/' := eq_of_mem_utf8EncodeChar (by decide) hm
    exact absurd hc (by decide)
  · exact absurd (hrest slash hm) (by decide)
  · rw [hslash, byte_mem_iff (by decide)] at hm
    exact (ascii_of_mem_defaultExtensions he _ hm).2 rfl

/-- A name that begins with a letter and ends in one of the extensions, after a dot. -/
def IsDefaultName (name : List Char) : Prop :=
  (∃ c, name.head? = some c ∧ c.isAlpha = true) ∧ ∃ e ∈ defaultExtensions, '.' :: e.toList <:+ name

theorem allFit_name_iff {name : List Char} (hname : '/' ∉ name) :
    AllFit nameTokens (name.flatMap utf8EncodeChar) ↔ IsDefaultName name := by
  rw [allFit_nameTokens_iff]
  constructor
  · rintro ⟨c, rest, e, hs, hc, -, he⟩
    have hascii : c.toNat < 128 := by
      have hrange := isAlpha_iff.1 hc
      omega
    obtain ⟨back, rfl, hback⟩ := exists_cons_of_flatMap hascii hs
    obtain ⟨middle, rfl, -⟩ := exists_append_of_flatMap (fun d hd => (ascii_of_mem_defaultExtensions he d hd).1) hback
    exact ⟨⟨c, rfl, hc⟩, e, he, c :: middle, rfl⟩
  · rintro ⟨⟨c, hhead, hc⟩, e, he, hend⟩
    obtain ⟨back, rfl⟩ := List.head?_eq_some_iff.1 hhead
    rcases List.suffix_cons_iff.1 hend with hall | ⟨middle, rfl⟩
    · obtain ⟨rfl, -⟩ := List.cons.inj hall
      exact absurd hc (by decide)
    · refine ⟨c, middle.flatMap utf8EncodeChar, e, by simp, hc, fun b hb => ?_, he⟩
      have hno : byte '/' ∉ middle.flatMap utf8EncodeChar := by
        rw [byte_mem_iff (by decide)]
        intro hm
        exact hname (by simp [hm])
      simp only [isNotSlash, bne_iff_ne, ne_eq]
      rintro rfl
      exact hno hb

/-- Directories with the slash after them, or none. -/
def IsLead (lead : List UInt8) : Prop := lead = [] ∨ ∃ a, lead = a ++ [slash]

theorem IsLead.eq_nil {lead more : List UInt8} (h : IsLead (lead ++ more)) (hmore : slash ∉ more) : more = [] := by
  rcases List.eq_nil_or_concat more with rfl | ⟨front, b, rfl⟩
  · rfl
  · rw [List.concat_eq_append] at h hmore
    rcases h with hnil | ⟨a, ha⟩
    · simp at hnil
    · rw [← List.append_assoc] at ha
      obtain ⟨-, hlast⟩ := List.append_inj' ha rfl
      cases hlast
      simp at hmore

/-- Directories are told from the name after them by the last slash. -/
theorem IsLead.name_eq {lead lead' name name' : List UInt8} (hlead : IsLead lead) (hlead' : IsLead lead')
    (hname : slash ∉ name) (hname' : slash ∉ name') (h : lead ++ name = lead' ++ name') : name = name' := by
  rcases List.append_eq_append_iff.1 h with ⟨more, rfl, rfl⟩ | ⟨more, rfl, rfl⟩
  · simp [hlead'.eq_nil fun hm => hname (List.mem_append_left _ hm)]
  · simp [hlead.eq_nil fun hm => hname' (List.mem_append_left _ hm)]

end Glob

namespace Config
open Glob

theorem components_forWorkingDir (cwd : Path) :
    (Config.forWorkingDir cwd).components = ⟨[⟨Settings.Layer.defaultPattern, .anyFront :: nameTokens⟩]⟩ := by
  simp [forWorkingDir, ofLayers, Settings.Layer.defaults, PatternList.compile, parse_defaultPattern, Except.toOption]

/-- A path is selected by what stands after its last slash. -/
theorem isComponent_forWorkingDir_iff (cwd : Path) {p : Path} {lead name : List Char} (hp : p.chars = lead ++ name)
    (hlead : lead = [] ∨ ∃ a, lead = a ++ ['/']) (hname : '/' ∉ name) :
    (Config.forWorkingDir cwd).isComponent p = true ↔ IsDefaultName name := by
  have hmatch : (Config.forWorkingDir cwd).isComponent p = true ↔
      AllFit (.anyFront :: nameTokens) ((lead ++ name).flatMap String.utf8EncodeChar) := by
    rw [isComponent, components_forWorkingDir, ← hp]
    simp [PatternList.matchesPath, matchesPath, matchesBytes_iff, nameTokens]
  have hbytes : IsLead (lead.flatMap String.utf8EncodeChar) := by
    rcases hlead with rfl | ⟨a, rfl⟩
    · exact .inl rfl
    · exact .inr ⟨a.flatMap String.utf8EncodeChar, by simp; rfl⟩
  have hno : slash ∉ name.flatMap String.utf8EncodeChar := fun hm =>
    hname ((Text.byte_mem_iff (c := '/') (by decide)).1 hm)
  rw [hmatch, List.flatMap_append, ← allFit_name_iff hname, allFit_cons_iff]
  constructor
  · rintro ⟨front, back, he, hfront, hback⟩
    rwa [hbytes.name_eq (fits_anyFront_iff.1 hfront) hno (slash_notMem_of_allFit hback) he]
  · intro h
    exact ⟨_, _, rfl, fits_anyFront_iff.2 hbytes, h⟩

theorem exists_lead_join (dir : Path) {name : List Char} (h : Path.IsName name) :
    ∃ lead, (dir.join ⟨name⟩).chars = lead ++ name ∧ (lead = [] ∨ ∃ a, lead = a ++ ['/']) := by
  have hrelative := Path.isAbsolute_ofNames (List.cons_ne_nil name []) h.areNames
  rw [Path.ofNames, Path.glue_singleton] at hrelative
  rw [Path.join, hrelative, if_neg Bool.false_ne_true]
  split
  · next hend =>
    refine ⟨dir.chars, rfl, ?_⟩
    rcases List.eq_nil_or_concat dir.chars with hnil | ⟨a, c, hc⟩
    · exact .inl hnil
    · have hslash : c = '/' := by simpa [hc] using hend
      exact .inr ⟨a, by rw [hc, hslash, List.concat_eq_append]⟩
  · exact ⟨dir.chars ++ ['/'], by simp, .inr ⟨dir.chars, rfl⟩⟩

/-- Without a pattern of one's own, the components are the files whose name begins with a letter and ends in one of
three extensions, whatever the directories above are called. It does not matter how the directories are spelled. -/
theorem isComponent_default_iff {dirs : List (List Char)} {last : List Char} (h : Path.AreNames (dirs ++ [last]))
    (cwd : Path) :
    ((Config.forWorkingDir cwd).isComponent (.ofNames (dirs ++ [last])) = true ↔ IsDefaultName last) ∧
      ∀ dir : Path, (Config.forWorkingDir cwd).isComponent (dir.join ⟨last⟩) = true ↔ IsDefaultName last := by
  have hlast : Path.IsName last := h last (by simp)
  constructor
  · cases dirs with
    | nil =>
      have hchars : (Path.ofNames ([] ++ [last])).chars = [] ++ last := by simp [Path.ofNames]
      exact isComponent_forWorkingDir_iff cwd hchars (.inl rfl) hlast.no_slash
    | cons first dirs =>
      have hchars : (Path.ofNames (first :: dirs ++ [last])).chars = (Path.glue (first :: dirs) ++ ['/']) ++ last := by
        rw [Path.ofNames, Path.glue_append (by simp) (by simp), Path.glue_singleton, List.append_assoc]
        rfl
      exact isComponent_forWorkingDir_iff cwd hchars (.inr ⟨_, rfl⟩) hlast.no_slash
  · intro dir
    obtain ⟨lead, hchars, hlead⟩ := exists_lead_join dir hlast
    exact isComponent_forWorkingDir_iff cwd hchars hlead hlast.no_slash

theorem isComponent_default_iff_nested :
    let dirs := [".git".toList, "node_modules".toList, "a\n[b]".toList]
    Path.AreNames (dirs ++ ["B.vue".toList]) ∧
      (Config.forWorkingDir (.ofString "/w")).isComponent (.ofNames (dirs ++ ["B.vue".toList])) = true ∧
      (Config.forWorkingDir (.ofString "/w")).isComponent (Path.join (.ofString "./a//") ⟨"B.vue".toList⟩) = true := by
  intro dirs
  have hnames : Path.AreNames (dirs ++ ["B.vue".toList]) := by decide +kernel
  have hname : IsDefaultName "B.vue".toList := ⟨⟨'B', rfl, by decide⟩, "vue", by decide, by decide⟩
  obtain ⟨hnested, hjoined⟩ := isComponent_default_iff hnames (.ofString "/w")
  exact ⟨hnames, hnested.2 hname, (hjoined _).2 hname⟩

end Config

end ComponentDocs
