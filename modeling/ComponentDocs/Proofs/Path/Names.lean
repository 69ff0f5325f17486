import ComponentDocs.Path.Normal
import ComponentDocs.FileTree.Basic
import Mathlib.Tactic
/-! Paths that are made of names with one slash between them, and the absolute paths of places. -/
namespace ComponentDocs

namespace Path

structure IsName (n : List Char) : Prop where
  ne_nil : n ≠ []
  ne_here : n ≠ ['.']
  ne_up : n ≠ ['.', '.']
  no_slash : '/' ∉ n

def AreNames (names : List (List Char)) : Prop := ∀ n ∈ names, IsName n

instance (n : List Char) : Decidable (IsName n) :=
  decidable_of_iff (n ≠ [] ∧ n ≠ ['.'] ∧ n ≠ ['.', '.'] ∧ '/' ∉ n)
    ⟨fun ⟨h₁, h₂, h₃, h₄⟩ => ⟨h₁, h₂, h₃, h₄⟩, fun ⟨h₁, h₂, h₃, h₄⟩ => ⟨h₁, h₂, h₃, h₄⟩⟩

instance (names : List (List Char)) : Decidable (AreNames names) :=
  inferInstanceAs (Decidable (∀ n ∈ names, IsName n))

theorem IsName.segment? {n : List Char} (h : IsName n) : segment? n = some (.name n) := by
  unfold Path.segment?
  split
  · exact absurd rfl h.ne_nil
  · exact absurd rfl h.ne_here
  · exact absurd rfl h.ne_up
  · rfl

theorem IsName.not_idle {n : List Char} (h : IsName n) : isIdle n = false := by
  simp [isIdle, h.segment?]

theorem areNames_nil : AreNames [] := by simp [AreNames]

theorem IsName.areNames {n : List Char} (h : IsName n) : AreNames [n] := by simpa [AreNames] using h

theorem AreNames.append {a b : List (List Char)} (ha : AreNames a) (hb : AreNames b) : AreNames (a ++ b) := by
  intro n hn
  rcases List.mem_append.1 hn with hn | hn
  · exact ha n hn
  · exact hb n hn

theorem AreNames.left {a b : List (List Char)} (h : AreNames (a ++ b)) : AreNames a :=
  fun n hn => h n (List.mem_append_left _ hn)

theorem AreNames.right {a b : List (List Char)} (h : AreNames (a ++ b)) : AreNames b :=
  fun n hn => h n (List.mem_append_right _ hn)

theorem AreNames.filterMap {names : List (List Char)} (h : AreNames names) :
    names.filterMap segment? = names.map Segment.name := by
  induction names with
  | nil => rfl
  | cons n ns ih =>
    rw [List.filterMap_cons, (h n (by simp)).segment?, ih fun m hm => h m (by simp [hm])]
    rfl

theorem AreNames.trimIdle {names : List (List Char)} (h : AreNames names) : trimIdle names = names := by
  unfold Path.trimIdle
  cases hr : names.reverse with
  | nil => simp_all
  | cons n ns =>
    have hn : n ∈ names := by
      rw [← List.mem_reverse, hr]
      simp
    rw [List.dropWhile_cons, (h n hn).not_idle, ← hr]
    simp

theorem AreNames.dropWhile_isIdle {names : List (List Char)} (h : AreNames names) :
    names.dropWhile isIdle = names := by
  cases names with
  | nil => rfl
  | cons n ns => simp [(h n (by simp)).not_idle]

@[simp] theorem glue_nil : glue [] = [] := rfl

@[simp] theorem glue_singleton (n : List Char) : glue [n] = n := by simp [glue]

theorem glue_cons_cons (n m : List Char) (ns : List (List Char)) :
    glue (n :: m :: ns) = n ++ '/' :: glue (m :: ns) := by
  simp [glue, List.intercalate_cons_cons]

theorem glue_append {a b : List (List Char)} (ha : a ≠ []) (hb : b ≠ []) :
    glue (a ++ b) = glue a ++ '/' :: glue b := by
  induction a with
  | nil => contradiction
  | cons n ns ih =>
    cases ns with
    | nil =>
      obtain ⟨m, ms, rfl⟩ := List.exists_cons_of_ne_nil hb
      simp [glue_cons_cons]
    | cons m ms => simp [glue_cons_cons, ← ih (by simp)]

theorem AreNames.length_le_glue {names : List (List Char)} (h : AreNames names) :
    names.length ≤ (glue names).length := by
  induction names with
  | nil => simp
  | cons n ns ih =>
    have hn := List.length_pos_iff.2 (h n (by simp)).ne_nil
    have ih' := ih fun m hm => h m (by simp [hm])
    cases ns with
    | nil => simpa using Nat.succ_le_of_lt hn
    | cons m ms =>
      simp only [glue_cons_cons, List.length_append, List.length_cons] at ih' ⊢
      omega

theorem mem_glue_iff {c : Char} (hc : c ≠ '/') (names : List (List Char)) :
    c ∈ glue names ↔ ∃ n ∈ names, c ∈ n := by
  induction names with
  | nil => simp
  | cons n ns ih =>
    cases ns with
    | nil => simp
    | cons m ms => simp [glue_cons_cons, hc, ih]

theorem pieces_slash (cs : List Char) : pieces ('/' :: cs) = [] :: pieces cs := by simp [pieces]

theorem pieces_of_no_slash {n : List Char} (h : '/' ∉ n) : pieces n = [n] := by
  induction n with
  | nil => rfl
  | cons c cs ih =>
    simp only [List.mem_cons, not_or] at h
    simp [pieces, ih h.2, Ne.symm h.1]

theorem pieces_append_slash {n : List Char} (h : '/' ∉ n) (cs : List Char) :
    pieces (n ++ '/' :: cs) = n :: pieces cs := by
  induction n with
  | nil => exact pieces_slash cs
  | cons c n ih =>
    simp only [List.mem_cons, not_or] at h
    simp [pieces, ih h.2, Ne.symm h.1]

theorem pieces_glue_of_no_slash {ps : List (List Char)} (hne : ps ≠ []) (h : ∀ p ∈ ps, '/' ∉ p) :
    pieces (glue ps) = ps := by
  induction ps with
  | nil => contradiction
  | cons p ps ih =>
    have hp := h p (by simp)
    cases ps with
    | nil => rw [glue_singleton, pieces_of_no_slash hp]
    | cons q qs => rw [glue_cons_cons, pieces_append_slash hp, ih (by simp) fun k hk => h k (by simp [hk])]

theorem pieces_glue {names : List (List Char)} (hne : names ≠ []) (h : AreNames names) :
    pieces (glue names) = names :=
  pieces_glue_of_no_slash hne fun n hn => (h n hn).no_slash

theorem getLast?_glue {names : List (List Char)} (hne : names ≠ []) (h : AreNames names) :
    ∃ c, (glue names).getLast? = some c ∧ c ≠ '/' := by
  obtain ⟨front, n, rfl⟩ := List.eq_nil_or_concat names |>.resolve_left hne
  have hn := h n (by simp)
  obtain ⟨cs, c, rfl⟩ := List.eq_nil_or_concat n |>.resolve_left hn.ne_nil
  refine ⟨c, ?_, fun hc => hn.no_slash (by simp [hc])⟩
  cases front with
  | nil => simp
  | cons m ms =>
    rw [List.concat_eq_append, glue_append (by simp) (by simp)]
    simp [List.getLast?_append, List.getLast?_cons]

def retitle (extension : String) (name : List Char) : List Char := stem name ++ '.' :: extension.toList

theorem stem_cases (name : List Char) :
    stem name = name ∨ ∃ x xs, stem name = (x :: xs).reverse ∧ ∀ c ∈ (x :: xs), c ∈ name := by
  unfold stem
  split
  · exact .inl rfl
  · next hne =>
    obtain ⟨x, xs, h⟩ := List.exists_cons_of_ne_nil hne
    refine .inr ⟨x, xs, by rw [h], fun c hc => ?_⟩
    rw [← h] at hc
    exact List.mem_reverse.1 ((List.dropWhile_suffix _).subset (List.mem_of_mem_drop hc))

theorem stem_ne_nil {name : List Char} (h : name ≠ []) : stem name ≠ [] := by
  rcases stem_cases name with hs | ⟨x, xs, hs, -⟩
  · rwa [hs]
  · simp [hs]

theorem stem_subset (name : List Char) : stem name ⊆ name := by
  rcases stem_cases name with hs | ⟨x, xs, hs, hm⟩
  · rw [hs]
    exact List.Subset.refl _
  · intro c hc
    rw [hs] at hc
    exact hm c (List.mem_reverse.1 hc)

theorem stem_append {front extension : List Char} (hf : front ≠ []) (he : '.' ∉ extension) :
    stem (front ++ '.' :: extension) = front := by
  have hd : (front ++ '.' :: extension).reverse.dropWhile (· != '.') = '.' :: front.reverse := by
    rw [List.reverse_append, List.reverse_cons, List.append_assoc,
      List.dropWhile_append_of_pos fun c hc => by
        have : c ≠ '.' := fun h => he (h ▸ List.mem_reverse.1 hc)
        simpa using this]
    simp
  unfold stem
  rw [hd, List.drop_one, List.tail_cons]
  split
  · next h => simp_all
  · simp

theorem IsName.retitle {extension : String} (hne : extension.toList ≠ []) (he : '/' ∉ extension.toList)
    {name : List Char} (h : IsName name) : IsName (retitle extension name) := by
  have hs := List.length_pos_iff.2 (stem_ne_nil h.ne_nil)
  have hx := List.length_pos_iff.2 hne
  have hl : (Path.retitle extension name).length = (stem name).length + extension.toList.length + 1 := by
    simp [Path.retitle, Nat.add_assoc]
  have hshort {n : List Char} (hn : n.length < 3) : Path.retitle extension name ≠ n := by
    rintro rfl
    omega
  refine ⟨hshort (by simp), hshort (by simp), hshort (by simp), fun hm => ?_⟩
  rcases List.mem_append.1 hm with hm | hm
  · exact h.no_slash (stem_subset name hm)
  · exact he (by simpa using hm)

theorem retitle_retitle {extension : String} (he : '.' ∉ extension.toList) {name : List Char} (h : IsName name) :
    retitle extension (retitle extension name) = retitle extension name := by
  unfold retitle
  rw [stem_append (stem_ne_nil h.ne_nil) he]

theorem exists_eq_append {names : List (List Char)} (hne : names ≠ []) : ∃ front n, names = front ++ [n] := by
  obtain ⟨front, n, h⟩ := (List.eq_nil_or_concat names).resolve_left hne
  exact ⟨front, n, h.trans (List.concat_eq_append)⟩

theorem withExtension_of_tightBody {p : Path} {front : List (List Char)} {n : List Char} (hn : IsName n)
    (h : p.tightBody = front ++ [n]) (extension : String) :
    p.withExtension extension = build p.lead (front ++ [retitle extension n]) := by
  have hf : p.fileName? = some n := by
    unfold fileName?
    rw [h, List.getLast?_concat]
    split
    · next he => exact absurd (Option.some.inj he) hn.ne_up
    · next he => cases he
    · next he => exact he.symm
  rw [withExtension, fileStem?, hf, Option.map_some, h]
  simp only [List.dropLast_concat]
  rfl

def ofNames (names : List (List Char)) : Path := ⟨glue names⟩

section Relative
variable {names : List (List Char)} (hne : names ≠ []) (h : AreNames names)
include hne h

theorem pieces_ofNames : pieces (ofNames names).chars = names := pieces_glue hne h

theorem isAbsolute_ofNames : (ofNames names).isAbsolute = false := by
  obtain ⟨n, ns, rfl⟩ := List.exists_cons_of_ne_nil hne
  have hn := h n (by simp)
  obtain ⟨c, cs, rfl⟩ := List.exists_cons_of_ne_nil hn.ne_nil
  have hc : c ≠ '/' := fun hc => hn.no_slash (by simp [hc])
  cases ns <;> simp [isAbsolute, ofNames, glue_cons_cons, hc]

theorem lead_ofNames : (ofNames names).lead = .plain := by
  unfold lead
  rw [pieces_ofNames hne h]
  split
  · exact absurd rfl (h _ (by simp)).ne_nil
  · exact absurd rfl (h _ (by simp)).ne_here
  · rfl

theorem body_ofNames : (ofNames names).body = names := by
  simp [body, lead_ofNames hne h, pieces_ofNames hne h]

theorem segments_ofNames : (ofNames names).segments = names.map .name := by
  simp [segments, lead_ofNames hne h, body_ofNames hne h, Lead.segments, h.filterMap]

theorem key_ofNames : (ofNames names).key = String.ofList (glue names) := by
  rw [key, segments_ofNames hne h, List.filterMap_map]
  exact congrArg (fun ns => String.ofList (glue ns)) List.filterMap_some

end Relative

end Path

namespace Location
open ComponentDocs.Path

theorem lead_path (l : Location) : l.path.lead = .root := by
  unfold lead path
  rw [pieces_slash]
  split
  · rfl
  · next h => simp at h
  · next h _ =>
    obtain ⟨n, ns, hp⟩ := List.exists_cons_of_ne_nil (pieces_ne_nil (glue l))
    exact absurd (hp ▸ rfl) (h n ns)

theorem body_path (l : Location) : l.path.body = pieces (glue l) := by
  rw [body, lead_path, path, pieces_slash]
  rfl

theorem isAbsolute_path (l : Location) : l.path.isAbsolute = true := by simp [isAbsolute, path]

theorem segments_path {l : Location} (h : AreNames l) : l.path.segments = .root :: l.map .name := by
  cases l with
  | nil => simp [segments, lead_path, body_path, Lead.segments, pieces, segment?]
  | cons n ns =>
    rw [segments, lead_path, body_path, pieces_glue (by simp) h, h.filterMap]
    rfl

theorem tightBody_path {l : Location} (h : AreNames l) : l.path.tightBody = l := by
  cases l with
  | nil => rfl
  | cons n ns => rw [tightBody, body_path, pieces_glue (by simp) h, h.trimIdle]

theorem same_path_iff {l m : Location} (hl : AreNames l) (hm : AreNames m) :
    l.path.same m.path = true ↔ l = m := by
  have hinj : Function.Injective Segment.name := fun a b h => by cases h; rfl
  simp [same, segments_path hl, segments_path hm, hinj.list_map.eq_iff]

theorem parent?_path {dir : Location} {name : List Char} (h : AreNames (dir ++ [name])) :
    (Location.path (dir ++ [name])).parent? = some dir.path := by
  unfold parent?
  rw [tightBody_path h]
  split
  · next he => simp at he
  · rw [lead_path, List.dropLast_concat, h.left.trimIdle]
    rfl

theorem join_path (l : Location) {names : List (List Char)} (hne : names ≠ []) (h : AreNames names)
    (hl : AreNames l) : l.path.join (ofNames names) = Location.path (l ++ names) := by
  unfold join
  rw [isAbsolute_ofNames hne h]
  cases l with
  | nil => rfl
  | cons n ns =>
    obtain ⟨c, hc, hs⟩ := getLast?_glue (by simp) hl
    have hlast : (Location.path (n :: ns)).chars.getLast?.all (· == '/') = false := by
      simp [path, List.getLast?_cons, hc, hs]
    rw [hlast, path, path, glue_append (by simp) hne]
    rfl

theorem dropSegments_names {l names : List (List Char)} (hl : AreNames l) :
    dropSegments (l.map .name) (l ++ names) = some names := by
  induction l with
  | nil => cases names <;> rfl
  | cons n ns ih =>
    have hn := (hl n (by simp)).segment?
    simp [dropSegments, hn, ih fun m hm => hl m (by simp [hm])]

theorem dropSegments_eq_some {l m rest : List (List Char)} (hl : AreNames l) (hm : AreNames m)
    (h : dropSegments (l.map .name) m = some rest) : m = l ++ rest := by
  induction l generalizing m with
  | nil => cases m <;> simp_all [dropSegments]
  | cons n ns ih =>
    cases m with
    | nil => simp [dropSegments] at h
    | cons k ks =>
      have hk := (hm k (by simp)).segment?
      simp only [List.map_cons, dropSegments, hk] at h
      split at h
      · next he =>
        cases he
        rw [ih (fun x hx => hl x (by simp [hx])) (fun x hx => hm x (by simp [hx])) h]
        rfl
      · cases h

theorem stripPrefix?_path_path {l m : Location} (hm : AreNames m) :
    l.path.stripPrefix? m.path = (dropSegments (m.map .name) (pieces (glue l))).map fun rest =>
      ⟨glue (trimIdle (rest.dropWhile isIdle))⟩ := by
  have hs : m.path.body.filterMap segment? = m.map .name := by
    cases m with
    | nil => rfl
    | cons n ns => rw [body_path, pieces_glue (by simp) hm, hm.filterMap]
  rw [← hs, ← body_path]
  simp [stripPrefix?, segments_path hm, lead_path]

theorem startsWith_path_iff {l m : Location} (hl : AreNames l) (hm : AreNames m) :
    l.path.startsWith m.path = true ↔ m <+: l := by
  rw [startsWith, stripPrefix?_path_path hm, Option.isSome_map]
  cases l with
  | nil =>
    cases m with
    | nil => simp [pieces, dropSegments]
    | cons k ks => simp [pieces, dropSegments, segment?]
  | cons n ns =>
    rw [pieces_glue (by simp) hl]
    constructor
    · intro h
      obtain ⟨rest, h⟩ := Option.isSome_iff_exists.1 h
      exact ⟨rest, (dropSegments_eq_some hm hl h).symm⟩
    · rintro ⟨rest, h⟩
      rw [← h, dropSegments_names hm]
      rfl

theorem withExtension_path {dir : Location} {name : List Char} (h : AreNames (dir ++ [name])) (extension : String) :
    (Location.path (dir ++ [name])).withExtension extension =
      Location.path (dir ++ [retitle extension name]) := by
  rw [withExtension_of_tightBody (h name (by simp)) (tightBody_path h), lead_path]
  rfl

end Location

namespace Path

def IsDown (s : Segment) : Prop := ∃ n, IsName n ∧ s = .name n

theorem no_slash_of_mem_pieces {cs n : List Char} (h : n ∈ pieces cs) : '/' ∉ n := by
  induction cs generalizing n with
  | nil => simp_all [pieces]
  | cons c cs ih =>
    unfold pieces at h
    split at h
    · rcases List.mem_cons.1 h with rfl | h
      · simp
      · exact ih h
    · next hc =>
      have hc' : '/' ≠ c := fun he => hc (by simpa using he.symm)
      split at h
      · simpa [List.mem_singleton.1 h] using hc'
      · next m ms hp =>
        rw [hp] at ih
        rcases List.mem_cons.1 h with rfl | h
        · simpa [hc'] using ih List.mem_cons_self
        · exact ih (List.mem_cons_of_mem _ h)

theorem mem_pieces_of_mem_body {p : Path} {piece : List Char} (h : piece ∈ p.body) : piece ∈ pieces p.chars := by
  unfold body at h
  split at h
  · exact h
  · exact List.mem_of_mem_drop h

theorem no_slash_of_mem_body {p : Path} {piece : List Char} (h : piece ∈ p.body) : '/' ∉ piece :=
  no_slash_of_mem_pieces (mem_pieces_of_mem_body h)

theorem isDown_of_segment? {n m : List Char} (hs : '/' ∉ n) (h : segment? n = some (.name m)) :
    IsDown (.name m) := by
  unfold segment? at h
  split at h
  · cases h
  · cases h
  · cases h
  · next h₁ h₂ h₃ =>
    cases h
    exact ⟨n, ⟨h₁, h₂, h₃, hs⟩, rfl⟩

theorem isDown_of_mem_segments {p : Path} {n : List Char} (h : .name n ∈ p.segments) : IsDown (.name n) := by
  rcases List.mem_append.1 h with h | h
  · cases hl : p.lead <;> simp [hl, Lead.segments] at h
  · obtain ⟨piece, hp, hs⟩ := List.mem_filterMap.1 h
    exact isDown_of_segment? (no_slash_of_mem_body hp) hs

end Path

/-! The characters of the names in a path, and of the path above it. -/

namespace Path

theorem mem_of_mem_pieces {cs n : List Char} (hn : n ∈ pieces cs) {c : Char} (hc : c ∈ n) : c ∈ cs := by
  induction cs generalizing n with
  | nil =>
    rw [pieces, List.mem_singleton] at hn
    exact hn ▸ hc
  | cons d cs ih =>
    unfold pieces at hn
    split at hn
    · rcases List.mem_cons.1 hn with rfl | hn
      · cases hc
      · exact List.mem_cons_of_mem d (ih hn hc)
    · split at hn
      · next hnil => exact absurd hnil (pieces_ne_nil cs)
      · next first rest hcs =>
        rcases List.mem_cons.1 hn with rfl | hn
        · rcases List.mem_cons.1 hc with rfl | hc
          · exact List.mem_cons_self
          · exact List.mem_cons_of_mem d (ih (hcs ▸ List.mem_cons_self) hc)
        · exact List.mem_cons_of_mem d (ih (hcs ▸ List.mem_cons_of_mem first hn) hc)

theorem mem_of_mem_trimIdle {ps : List (List Char)} {n : List Char} (h : n ∈ trimIdle ps) : n ∈ ps := by
  rw [trimIdle, List.mem_reverse] at h
  exact List.mem_reverse.1 ((List.dropWhile_suffix _).subset h)

theorem mem_of_mem_tightBody {p : Path} {n : List Char} (hn : n ∈ p.tightBody) {c : Char} (hc : c ∈ n) :
    c ∈ p.chars :=
  mem_of_mem_pieces (mem_pieces_of_mem_body (mem_of_mem_trimIdle hn)) hc

theorem mem_of_fileName? {p : Path} {name : List Char} (h : p.fileName? = some name) {c : Char} (hc : c ∈ name) :
    c ∈ p.chars := by
  unfold fileName? at h
  split at h
  · cases h
  · cases h
  · next last hlast =>
    cases h
    exact mem_of_mem_tightBody (List.mem_of_getLast? hlast) hc

theorem mem_of_parent? {p parent : Path} (h : p.parent? = some parent) {c : Char} (hc : c ∈ parent.chars) :
    c ∈ p.chars ∨ c = '/' ∨ c = '.' := by
  by_cases hslash : c = '/'
  · exact .inr (.inl hslash)
  unfold parent? at h
  split at h
  · split at h
    · cases h
      cases hc
    · cases h
  · cases h
    have hglue (hc : c ∈ glue (trimIdle p.tightBody.dropLast)) : c ∈ p.chars := by
      obtain ⟨n, hn, hc⟩ := (mem_glue_iff hslash _).1 hc
      exact mem_of_mem_tightBody (List.dropLast_subset _ (mem_of_mem_trimIdle hn)) hc
    unfold build at hc
    split at hc
    · exact .inl (hglue hc)
    · exact .inl (hglue ((List.mem_cons.1 hc).resolve_left hslash))
    · exact .inr (.inr (List.mem_singleton.1 hc))
    · rcases List.mem_cons.1 hc with hdot | hc
      · exact .inr (.inr hdot)
      · exact .inl (hglue ((List.mem_cons.1 hc).resolve_left hslash))

end Path

end ComponentDocs
