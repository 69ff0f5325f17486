import ComponentDocs.Proofs.FileTree.Frame
import ComponentDocs.Proofs.Path.Names
/-! Trees without links. There a path of names leads to the place of these names. -/
namespace ComponentDocs.FileTree
open ComponentDocs.Path

/-- What the system takes as the name of an entry. -/
structure Fits (name : List Char) : Prop extends IsName name where
  no_nul : '\x00' ∉ name
  short : nameBytes name ≤ maxNameBytes

/-- A tree as a system keeps it: each place at most once, and each entry by a name in a directory. -/
structure WellFormed (t : FileTree) : Prop where
  nodup : (t.entries.map Prod.fst).Nodup
  inside : ∀ dir name e, t.get? (dir ++ [name]) = some e → t.get? dir = some .directory ∧ Fits name

structure Plain (t : FileTree) : Prop extends WellFormed t where
  no_link : ∀ l target, t.get? l ≠ some (.link target)

@[simp] theorem get?_root (t : FileTree) : t.get? [] = some .directory := rfl

theorem WellFormed.get?_above {t : FileTree} (ht : WellFormed t) {l below : Location} {e : Entry}
    (h : t.get? (l ++ below) = some e) (hne : below ≠ []) : t.get? l = some .directory := by
  induction below using List.reverseRecOn generalizing e with
  | nil => contradiction
  | append_singleton below name ih =>
    have hd := (ht.inside (l ++ below) name e (by rwa [List.append_assoc])).1
    by_cases hb : below = []
    · simpa [hb] using hd
    · exact ih hd hb

theorem WellFormed.get?_below {t : FileTree} (ht : WellFormed t) {l below : Location}
    (h : t.get? l ≠ some .directory) (hne : below ≠ []) : t.get? (l ++ below) = none := by
  by_contra hb
  obtain ⟨e, he⟩ := Option.ne_none_iff_exists'.1 hb
  exact h (ht.get?_above he hne)

theorem WellFormed.fits {t : FileTree} (ht : WellFormed t) {l : Location} {e : Entry} (h : t.get? l = some e) :
    ∀ n ∈ l, Fits n := by
  induction l using List.reverseRecOn generalizing e with
  | nil => simp
  | append_singleton l name ih =>
    obtain ⟨hd, hn⟩ := ht.inside l name e h
    intro n hm
    rcases List.mem_append.1 hm with hm | hm
    · exact ih hd n hm
    · rwa [List.mem_singleton.1 hm]

theorem areNames_of_fits {l : Location} (h : ∀ n ∈ l, Fits n) : AreNames l := fun n hn => (h n hn).toIsName

/-- A walk along names goes down as far as there are directories. -/
theorem WellFormed.walk_append {t : FileTree} (ht : WellFormed t) (fl : Bool) (dir : Location) {front : Location}
    (h : t.get? (dir ++ front) = some .directory) (rest : List (List Char)) :
    walk t fl dir (front ++ rest) = walk t fl (dir ++ front) rest := by
  induction front generalizing dir with
  | nil => simp
  | cons n ns ih =>
    have hs : dir ++ n :: ns = (dir ++ [n]) ++ ns := by simp
    have hn : Fits n := ht.fits h n (by simp)
    have hd : t.get? (dir ++ [n]) = some .directory := by
      by_cases hns : ns = []
      · simpa [hns] using h
      · exact ht.get?_above (hs ▸ h) hns
    rw [List.cons_append, walk, hn.segment?]
    simp only [hd, Nat.not_lt.2 hn.short, if_false]
    rw [ih (dir ++ [n]) (hs ▸ h), ← hs]

theorem exists_front (t : FileTree) (dir : Location) (hd : t.get? dir = some .directory) (names : List (List Char)) :
    t.get? (dir ++ names) = some .directory ∨ ∃ front n rest, names = front ++ n :: rest ∧
      t.get? (dir ++ front) = some .directory ∧ t.get? (dir ++ front ++ [n]) ≠ some .directory := by
  induction names generalizing dir with
  | nil => exact .inl (by simpa using hd)
  | cons n ns ih =>
    by_cases hn : t.get? (dir ++ [n]) = some .directory
    · rcases ih (dir ++ [n]) hn with h | ⟨front, m, rest, rfl, hf, hm⟩
      · exact .inl (by simpa using h)
      · exact .inr ⟨n :: front, m, rest, rfl, by simpa using hf, by simpa using hm⟩
    · exact .inr ⟨[], n, ns, rfl, by simpa using hd, by simpa using hn⟩

/-- What is at the end of names of which the first is not that of a directory in `dir`. -/
def stopAt (t : FileTree) (dir : Location) (n : List Char) (rest : List (List Char)) : Except FileError Place :=
  if maxNameBytes < nameBytes n then .error .nameTooLong
  else
    match t.get? (dir ++ [n]) with
    | some e => if rest.isEmpty then .ok (.taken (dir ++ [n]) e) else .error .notDirectory
    | none => if rest.isEmpty then .ok (.free dir n false) else .error .notFound

theorem Plain.walk_stop {t : FileTree} (ht : Plain t) (fl : Bool) {dir : Location} {n : List Char}
    {rest : List (List Char)} (hn : AreNames (n :: rest)) (hd : t.get? (dir ++ [n]) ≠ some .directory) :
    walk t fl dir (n :: rest) =
      match stopAt t dir n rest with
      | .ok place => .place place
      | .error e => .failed e := by
  rw [walk, (hn n (by simp)).segment?, stopAt]
  by_cases hb : maxNameBytes < nameBytes n
  · simp [hb]
  · simp only [hb, if_false]
    have hrest : rest.all List.isEmpty = rest.isEmpty := by
      cases rest with
      | nil => rfl
      | cons m ms => simp [(hn m (by simp)).ne_nil]
    cases hg : t.get? (dir ++ [n]) with
    | none => cases rest <;> simp_all
    | some e =>
      cases e with
      | directory => exact absurd hg hd
      | link target => exact absurd hg (ht.no_link _ _)
      | file content => cases rest <;> simp

theorem follow_congr {t : FileTree} {fl : Bool} {dir : Location} {ps qs : List (List Char)}
    (h : walk t fl dir ps = walk t fl dir qs) (links : Nat) : follow t fl links dir ps = follow t fl links dir qs := by
  unfold follow
  rw [h]

theorem resolve_path_eq (t : FileTree) (here : Location) {l : Location} (hl : AreNames l) (fl : Bool) :
    t.resolve here l.path fl =
      if ∃ n ∈ l, '\x00' ∈ n then .error .nulInName else follow t fl maxLinks [] l := by
  have hz : l.path.chars.contains '\x00' = true ↔ ∃ n ∈ l, '\x00' ∈ n := by
    simp [Location.path, mem_glue_iff]
  have hw : walk t fl [] (pieces l.path.chars) = walk t fl [] l := by
    rw [Location.path, pieces_slash]
    cases l with
    | nil => rfl
    | cons n ns =>
      rw [pieces_glue (by simp) hl]
      rfl
  have he : l.path.isEmpty = false := rfl
  rw [resolve, he, Location.isAbsolute_path, if_neg Bool.false_ne_true, if_pos rfl, follow_congr hw]
  by_cases h : ∃ n ∈ l, '\x00' ∈ n
  · rw [if_pos (hz.2 h), if_pos h]
  · rw [if_neg (mt hz.1 h), if_neg h]

theorem no_nul_of_fits {l : Location} (h : ∀ n ∈ l, Fits n) : ¬ ∃ n ∈ l, '\x00' ∈ n := by
  rintro ⟨n, hn, hz⟩
  exact (h n hn).no_nul hz

theorem Plain.resolve_directory {t : FileTree} (ht : Plain t) {l : Location} (h : t.get? l = some .directory)
    (here : Location) (fl : Bool) : t.resolve here l.path fl = .ok (.taken l .directory) := by
  have hf := ht.fits h
  rw [resolve_path_eq _ _ (areNames_of_fits hf), if_neg (no_nul_of_fits hf)]
  have hw := ht.walk_append fl [] h []
  rw [List.append_nil, List.nil_append, walk] at hw
  exact follow_of_place hw _

theorem Plain.resolve_stop {t : FileTree} (ht : Plain t) {dir : Location} {n : List Char} {rest : List (List Char)}
    (hd : t.get? dir = some .directory) (hn : t.get? (dir ++ [n]) ≠ some .directory)
    (hl : AreNames (dir ++ n :: rest)) (here : Location) (fl : Bool) :
    t.resolve here (Location.path (dir ++ n :: rest)) fl =
      if ∃ m ∈ n :: rest, '\x00' ∈ m then .error .nulInName else stopAt t dir n rest := by
  have hw := ht.walk_append fl [] hd (n :: rest)
  rw [List.nil_append, ht.walk_stop fl hl.right hn] at hw
  have hz : (∃ m ∈ dir ++ n :: rest, '\x00' ∈ m) ↔ ∃ m ∈ n :: rest, '\x00' ∈ m := by
    have := no_nul_of_fits (ht.fits hd)
    constructor
    · rintro ⟨m, hm, hz⟩
      rcases List.mem_append.1 hm with hm | hm
      · exact absurd ⟨m, hm, hz⟩ this
      · exact ⟨m, hm, hz⟩
    · rintro ⟨m, hm, hz⟩
      exact ⟨m, List.mem_append_right _ hm, hz⟩
  rw [resolve_path_eq _ _ hl]
  simp only [hz]
  split
  · rfl
  · unfold follow
    rw [hw]
    cases stopAt t dir n rest <;> rfl

/-- A path of names leads to the place of the names, and to nothing else. -/
theorem Plain.find_path_iff {t : FileTree} (ht : Plain t) {here l m : Location} {e : Entry} (hl : AreNames l) :
    t.find here l.path = .ok (m, e) ↔ m = l ∧ t.get? l = some e := by
  rw [find_eq_ok_iff]
  rcases exists_front t [] rfl l with h | ⟨dir, n, rest, rfl, hd, hn⟩
  · rw [List.nil_append] at h
    rw [ht.resolve_directory h, h]
    simp [eq_comm]
  · rw [List.nil_append] at hd hn
    have hfits (e : Entry) (he : t.get? (dir ++ n :: rest) = some e) := ht.fits he
    rw [ht.resolve_stop hd hn hl]
    by_cases hz : ∃ m ∈ n :: rest, '\x00' ∈ m
    · rw [if_pos hz]
      obtain ⟨k, hk, hz'⟩ := hz
      simp only [reduceCtorEq, false_iff, not_and]
      exact fun _ he => (hfits e he k (List.mem_append_right _ hk)).no_nul hz'
    · rw [if_neg hz, stopAt]
      by_cases hb : maxNameBytes < nameBytes n
      · rw [if_pos hb]
        simp only [reduceCtorEq, false_iff, not_and]
        exact fun _ he => absurd (hfits e he n (by simp)).short (Nat.not_le.2 hb)
      · rw [if_neg hb]
        cases rest with
        | nil => cases t.get? (dir ++ [n]) <;> simp [eq_comm]
        | cons k ks =>
          have hnone : t.get? (dir ++ n :: k :: ks) = none := by
            simpa using ht.get?_below hn (List.cons_ne_nil k ks)
          rw [hnone]
          cases t.get? (dir ++ [n]) <;> simp

theorem Plain.read_path {t : FileTree} (ht : Plain t) (here : Location) {l : Location} (hl : AreNames l) :
    (t.read here l.path).toOption = t.fileAt? l := by
  unfold FileTree.read fileAt?
  cases hf : t.find here l.path with
  | error e =>
    cases hg : t.get? l with
    | none => rfl
    | some e' =>
      rw [(ht.find_path_iff hl).2 ⟨rfl, hg⟩] at hf
      cases hf
  | ok found =>
    obtain ⟨m, e⟩ := found
    obtain ⟨rfl, he⟩ := (ht.find_path_iff hl).1 hf
    rw [he]
    cases e <;> rfl

theorem Plain.isDirectory_path {t : FileTree} (ht : Plain t) (here : Location) {l : Location} (hl : AreNames l) :
    t.isDirectory here l.path = true ↔ t.get? l = some .directory := by
  unfold isDirectory
  cases hf : t.find here l.path with
  | error e =>
    simp only [Bool.false_eq_true, false_iff]
    intro h
    rw [(ht.find_path_iff hl).2 ⟨rfl, h⟩] at hf
    cases hf
  | ok found =>
    obtain ⟨m, e⟩ := found
    obtain ⟨rfl, he⟩ := (ht.find_path_iff hl).1 hf
    cases e <;> simp [he]

theorem map_fst_set (t : FileTree) (l : Location) (e : Entry) :
    (t.set l e).entries.map Prod.fst =
      if l ∈ t.entries.map Prod.fst then t.entries.map Prod.fst else t.entries.map Prod.fst ++ [l] := by
  have hl : (t.entries.lookup l).isSome = true ↔ l ∈ t.entries.map Prod.fst := by
    simp only [List.lookup_isSome_iff, List.mem_map, beq_iff_eq]
    exact ⟨fun ⟨x, hx, h⟩ => ⟨x, hx, h.symm⟩, fun ⟨x, hx, h⟩ => ⟨x, hx, h.symm⟩⟩
  unfold FileTree.set
  by_cases h : l ∈ t.entries.map Prod.fst
  · rw [if_pos (hl.2 h), if_pos h, List.map_map]
    refine List.map_congr_left fun x _ => ?_
    by_cases hx : x.1 = l <;> simp [hx]
  · rw [if_neg (mt hl.1 h), if_neg h]
    simp

/-- Putting an entry with a name in a directory keeps a tree plain. -/
theorem Plain.set {t : FileTree} (ht : Plain t) {dir : Location} {name : List Char} {e : Entry}
    (hd : t.get? dir = some .directory) (hn : Fits name) (he : ∀ target, e ≠ .link target)
    (hk : t.get? (dir ++ [name]) = some .directory → e = .directory) : Plain (t.set (dir ++ [name]) e) := by
  have hne : dir ++ [name] ≠ [] := by simp
  have hdir {l : Location} (h : t.get? l = some .directory) : (t.set (dir ++ [name]) e).get? l = some .directory := by
    by_cases hl : l = dir ++ [name]
    · subst hl
      rw [get?_set_self t hne, hk h]
    · rwa [get?_set_of_ne t hl]
  refine ⟨⟨?_, fun dir' name' e' h => ?_⟩, fun l target h => ?_⟩
  · rw [map_fst_set]
    split
    · exact ht.nodup
    · next hm =>
      rw [← List.concat_eq_append]
      exact ht.nodup.concat hm
  · by_cases hl : dir' ++ [name'] = dir ++ [name]
    · obtain ⟨rfl, hnn⟩ := List.append_inj' hl rfl
      cases hnn
      exact ⟨hdir hd, hn⟩
    · rw [get?_set_of_ne t hl] at h
      obtain ⟨hd', hn'⟩ := ht.inside dir' name' e' h
      exact ⟨hdir hd', hn'⟩
  · by_cases hl : l = dir ++ [name]
    · subst hl
      rw [get?_set_self t hne] at h
      exact he target (Option.some.inj h)
    · rw [get?_set_of_ne t hl] at h
      exact ht.no_link l target h

instance (n : List Char) : Decidable (Fits n) :=
  decidable_of_iff (IsName n ∧ '\x00' ∉ n ∧ nameBytes n ≤ maxNameBytes)
    ⟨fun ⟨h₁, h₂, h₃⟩ => ⟨h₁, h₂, h₃⟩, fun ⟨h₁, h₂, h₃⟩ => ⟨h₁, h₂, h₃⟩⟩

def isPlainEntry (t : FileTree) : Location × Entry → Bool
  | (_, .link _) => false
  | (l, _) => t.get? l.dropLast == some .directory && l.getLast?.all fun n => decide (Fits n)

/-- A check by which a tree is plain. -/
def isPlain (t : FileTree) : Bool :=
  decide (t.entries.map Prod.fst).Nodup && t.entries.all t.isPlainEntry

theorem mem_entries_of_get? {t : FileTree} {l : Location} {e : Entry} (hne : l ≠ []) (h : t.get? l = some e) :
    (l, e) ∈ t.entries := by
  have he : l.isEmpty = false := by simpa using hne
  rw [get?, he, if_neg Bool.false_ne_true] at h
  obtain ⟨front, back, hx, -⟩ := List.lookup_eq_some_iff.1 h
  rw [hx]
  exact List.mem_append_right front List.mem_cons_self

theorem wellFormed_of_entries {t : FileTree} (hn : (t.entries.map Prod.fst).Nodup)
    (h : ∀ x ∈ t.entries, t.get? x.1.dropLast = some .directory ∧ ∀ n ∈ x.1.getLast?, Fits n) : WellFormed t := by
  refine ⟨hn, fun dir name e hg => ?_⟩
  obtain ⟨hd, hf⟩ := h _ (mem_entries_of_get? (by simp) hg)
  exact ⟨by simpa using hd, hf name (by simp)⟩

theorem plain_of_isPlain {t : FileTree} (h : t.isPlain = true) : Plain t := by
  rw [isPlain, Bool.and_eq_true, decide_eq_true_eq, List.all_eq_true] at h
  obtain ⟨hn, h⟩ := h
  refine ⟨wellFormed_of_entries hn fun x hx => ?_, fun l target hg => ?_⟩
  · obtain ⟨l, e⟩ := x
    have := h _ hx
    cases e <;> simp_all [isPlainEntry, Option.all_eq_true]
  · by_cases hl : l = []
    · subst hl
      cases hg
    · exact absurd (h _ (mem_entries_of_get? hl hg)) (by simp [isPlainEntry])

/-! Where a file can be written in a tree without links: where no file is in the way and no directory
has taken the place. -/

/-- A directory can be made at a place, unless it is there already. -/
def Passable (t : FileTree) (d : Location) : Prop :=
  (∀ n ∈ d, Fits n) ∧ ∀ front, front <+: d → t.fileAt? front = none

def Writable (t : FileTree) (l : Location) : Prop :=
  ∃ dir name, l = dir ++ [name] ∧ t.Passable dir ∧ Fits name ∧ t.get? l ≠ some .directory

theorem Passable.mono {t : FileTree} {d k : Location} (h : t.Passable d) (hk : k <+: d) : t.Passable k :=
  ⟨fun n hn => h.1 n (hk.subset hn), fun front hf => h.2 front (hf.trans hk)⟩

theorem passable_append {t : FileTree} {d : Location} {n : List Char} (h : t.Passable d) (hn : Fits n)
    (hf : t.fileAt? (d ++ [n]) = none) : t.Passable (d ++ [n]) := by
  refine ⟨fun m hm => ?_, fun front hp => ?_⟩
  · rcases List.mem_append.1 hm with hm | hm
    · exact h.1 m hm
    · rwa [List.mem_singleton.1 hm]
  · rcases List.prefix_concat_iff.1 hp with rfl | hp
    · exact hf
    · exact h.2 front hp

theorem writable_append_iff {t : FileTree} {dir : Location} {name : List Char} :
    t.Writable (dir ++ [name]) ↔
      t.Passable dir ∧ Fits name ∧ t.get? (dir ++ [name]) ≠ some .directory := by
  constructor
  · rintro ⟨dir', name', h, hw⟩
    obtain ⟨rfl, hn⟩ := List.append_inj' h rfl
    cases hn
    exact hw
  · exact fun hw => ⟨dir, name, rfl, hw⟩

theorem Grows.fileAt?_eq_none {t t' : FileTree} (h : Grows t t') {l : Location} (hn : t'.fileAt? l = none) :
    t.fileAt? l = none := by
  by_contra hs
  obtain ⟨content, hs⟩ := Option.ne_none_iff_exists'.1 hs
  obtain ⟨e, he, hk⟩ := h l _ (fileAt?_eq_some_iff.1 hs)
  obtain ⟨c, rfl⟩ := Entry.sameKind_file_iff.1 hk
  rw [fileAt?_eq_some_iff.2 he] at hn
  cases hn

theorem Passable.of_grows {t t' : FileTree} {d : Location} (h : t'.Passable d) (hg : Grows t t') : t.Passable d :=
  ⟨h.1, fun front hf => hg.fileAt?_eq_none (h.2 front hf)⟩

/-- What cannot be written cannot be written either when the tree has grown. -/
theorem Writable.of_grows {t t' : FileTree} {l : Location} (h : t'.Writable l) (hg : Grows t t') :
    t.Writable l := by
  obtain ⟨dir, name, hl, hp, hn, hd⟩ := h
  exact ⟨dir, name, hl, hp.of_grows hg, hn, fun h => hd (hg.get?_directory h)⟩

theorem WellFormed.get?_onWay {t : FileTree} (ht : WellFormed t) {d l : Location} (hd : t.get? d = some .directory)
    (h : l <+: d) : t.get? l = some .directory := by
  obtain ⟨below, rfl⟩ := h
  by_cases hb : below = []
  · simpa [hb] using hd
  · exact ht.get?_above hd hb

theorem WellFormed.passable {t : FileTree} (ht : WellFormed t) {d : Location} (hd : t.get? d = some .directory) :
    t.Passable d := by
  refine ⟨ht.fits hd, fun front hf => ?_⟩
  simp [fileAt?, ht.get?_onWay hd hf]

/-- What a write to a place leaves elsewhere. -/
structure WrittenAt (t : FileTree) (l : Location) (t' : FileTree) : Prop where
  plain : Plain t'
  grows : Grows t t'
  elsewhere : ∀ m, m ≠ l → t'.fileAt? m = t.fileAt? m

theorem AddsDirectories.writtenAt {t t' : FileTree} (h : AddsDirectories t t') (ht : Plain t') (l : Location) :
    WrittenAt t l t' :=
  ⟨ht, h.grows, fun m _ => h.fileAt?_eq m⟩

theorem Plain.writtenAt_set {t : FileTree} (ht : Plain t) {dir : Location} {n : List Char}
    (hd : t.get? dir = some .directory) (hn : Fits n) (hnd : t.get? (dir ++ [n]) ≠ some .directory)
    (content : Content) : WrittenAt t (dir ++ [n]) (t.set (dir ++ [n]) (.file content)) := by
  refine ⟨ht.set hd hn (by simp) fun h => absurd h hnd, grows_set (by simp) fun old ho => ?_, fun m hm => ?_⟩
  · cases old with
    | file c => trivial
    | directory => exact absurd ho hnd
    | link target => exact absurd ho (ht.no_link _ _)
  · exact fileAt?_congr (get?_set_of_ne t hm _)

theorem WrittenAt.of_addsDirectories {t t₁ t' : FileTree} {l : Location} (h : WrittenAt t₁ l t')
    (ha : AddsDirectories t t₁) : WrittenAt t l t' :=
  ⟨h.plain, ha.grows.trans h.grows, fun m hm => by rw [h.elsewhere m hm, ha.fileAt?_eq]⟩

end ComponentDocs.FileTree
