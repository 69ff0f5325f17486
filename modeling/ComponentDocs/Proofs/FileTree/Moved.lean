import ComponentDocs.FileTree.Changes
import ComponentDocs.Proofs.FileTree.Ways
import ComponentDocs.Proofs.Path.Canonical
/-! The outline of a tree: the tree without what its files hold. All paths lead to the same places in a tree and in
its outline, and all searches find the same files. -/
namespace ComponentDocs

def Entry.outline : Entry → Entry
  | .file _ => .file (.text "")
  | .directory => .directory
  | .link target => .link target

namespace FileTree

def outline (t : FileTree) : FileTree := ⟨t.entries.map fun x => (x.1, x.2.outline)⟩

def Place.outline : Place → Place
  | .taken l e => .taken l e.outline
  | .free dir name slash => .free dir name slash

def Stop.outline : Stop → Stop
  | .place p => .place p.outline
  | .link dir target rest => .link dir target rest
  | .failed e => .failed e

variable {t u : FileTree}

theorem lookup_outline (entries : List (Location × Entry)) (l : Location) :
    (entries.map fun x => (x.1, x.2.outline)).lookup l = (entries.lookup l).map Entry.outline := by
  induction entries with
  | nil => rfl
  | cons x rest ih =>
    rw [List.map_cons, List.lookup_cons, List.lookup_cons, ih]
    cases l == x.1 <;> rfl

@[simp] theorem get?_outline (t : FileTree) (l : Location) : t.outline.get? l = (t.get? l).map Entry.outline := by
  unfold get?
  split
  · rfl
  · exact lookup_outline t.entries l

theorem keys_outline (t : FileTree) : t.outline.entries.map Prod.fst = t.entries.map Prod.fst := by
  simp [outline]

theorem outline_set (t : FileTree) (l : Location) (e : Entry) : (t.set l e).outline = t.outline.set l e.outline := by
  have hl : (t.outline.entries.lookup l).isSome = (t.entries.lookup l).isSome := by
    rw [outline, lookup_outline, Option.isSome_map]
  unfold set
  rw [hl]
  split
  · simp only [outline, List.map_map, FileTree.mk.injEq, List.map_inj_left, Function.comp_apply]
    intro x _
    split <;> rfl
  · simp [outline]

theorem outline_set_file (hn : (t.entries.map Prod.fst).Nodup) {l : Location} {old : Content}
    (h : t.get? l = some (.file old)) (content : Content) : (t.set l (.file content)).outline = t.outline := by
  have hlookup : t.entries.lookup l = some (.file old) := by
    have hl : l ≠ [] := by
      rintro rfl
      cases h
    simpa [get?, hl] using h
  unfold set
  rw [hlookup]
  simp only [Option.isSome_some, if_true, outline, List.map_map, FileTree.mk.injEq, List.map_inj_left,
    Function.comp_apply]
  intro x hx
  by_cases hxl : x.1 = l
  · have hold := (lookup_eq_some_iff_mem hn).2 hx
    rw [hxl, hlookup] at hold
    rw [if_pos hxl, hxl, ← Option.some.inj hold]
    rfl
  · rw [if_neg hxl]

theorem walk_outline (t : FileTree) (fl : Bool) (dir : Location) (pieces : List (List Char)) :
    walk t.outline fl dir pieces = (walk t fl dir pieces).outline := by
  induction pieces generalizing dir with
  | nil => rfl
  | cons piece rest ih =>
    rw [walk, walk]
    cases Path.segment? piece with
    | none => exact ih dir
    | some s =>
      cases s with
      | up => exact ih dir.dropLast
      | _ =>
        dsimp only
        rw [get?_outline]
        split
        · rfl
        · cases t.get? (dir ++ [piece]) with
          | none =>
            simp only [Option.map_none]
            split <;> rfl
          | some e =>
            cases e with
            | directory => exact ih (dir ++ [piece])
            | file content | link target =>
              simp only [Option.map_some, Entry.outline]
              split <;> rfl

theorem follow_outline (t : FileTree) (fl : Bool) (links : Nat) (dir : Location) (pieces : List (List Char)) :
    follow t.outline fl links dir pieces = (follow t fl links dir pieces).map Place.outline := by
  induction links generalizing dir pieces with
  | zero =>
    unfold follow
    rw [walk_outline]
    cases walk t fl dir pieces <;> rfl
  | succ links ih =>
    unfold follow
    rw [walk_outline]
    cases walk t fl dir pieces with
    | place p => rfl
    | failed e => rfl
    | link d target rest =>
      simp only [Stop.outline]
      split
      · rfl
      · exact ih _ _

theorem resolve_outline (t : FileTree) (cwd : Location) (p : Path) (fl : Bool) :
    t.outline.resolve cwd p fl = (t.resolve cwd p fl).map Place.outline := by
  unfold resolve
  split
  · rfl
  · split
    · rfl
    · exact follow_outline t fl _ _ _

theorem find_outline (t : FileTree) (cwd : Location) (p : Path) :
    t.outline.find cwd p = (t.find cwd p).map fun x => (x.1, x.2.outline) := by
  unfold find
  rw [resolve_outline]
  cases t.resolve cwd p true with
  | error e => rfl
  | ok place => cases place <;> rfl

theorem isDirectory_outline (t : FileTree) (cwd : Location) (p : Path) :
    t.outline.isDirectory cwd p = t.isDirectory cwd p := by
  unfold isDirectory
  rw [find_outline]
  rcases t.find cwd p with e | ⟨l, _ | _ | _⟩ <;> rfl

theorem children_outline (t : FileTree) (dir : Location) :
    t.outline.children dir = (t.children dir).map fun x => (x.1, x.2.outline) := by
  simp only [children, outline, List.filterMap_map, List.map_filterMap]
  refine List.filterMap_congr fun x _ => ?_
  obtain ⟨l, e⟩ := x
  simp only [Function.comp_apply]
  cases l.getLast? with
  | none => rfl
  | some name =>
    dsimp only
    split <;> rfl

theorem walkBelow_outline (t : FileTree) (cwd : Location) (skip : List Char → Bool) (fuel : Nat)
    (passed : List Location) (way : Path) (dir : Location) :
    walkBelow t.outline cwd skip fuel passed way dir = walkBelow t cwd skip fuel passed way dir := by
  induction fuel generalizing passed way dir with
  | zero => rfl
  | succ fuel ih =>
    unfold walkBelow
    rw [children_outline, List.flatMap_map]
    apply List.flatMap_congr
    rintro ⟨name, e⟩ -
    cases e with
    | file content => rfl
    | directory => simp only [Entry.outline, ih]
    | link target =>
      simp only [Entry.outline, ih, find_outline]
      rcases t.find cwd (way.join ⟨name⟩) with e | ⟨l, _ | _ | _⟩ <;> rfl

theorem foundBelow_outline (t : FileTree) (cwd : Location) (p : Path) (skip : List Char → Bool) :
    t.outline.foundBelow cwd p skip = t.foundBelow cwd p skip := by
  have hlength : t.outline.entries.length = t.entries.length := List.length_map _
  unfold foundBelow
  rw [find_outline, hlength]
  cases t.find cwd p with
  | error e => simp only [Except.map, bind, Except.bind]
  | ok found =>
    obtain ⟨l, e⟩ := found
    simp only [Except.map, bind, Except.bind]
    cases e with
    | file content | link target => simp only [Entry.outline]
    | directory => simp only [Entry.outline, walkBelow_outline]

theorem filesBelow_outline (t : FileTree) (cwd : Location) (p : Path) (skip : List Char → Bool) :
    t.outline.filesBelow cwd p skip = t.filesBelow cwd p skip := by
  rw [filesBelow, filesBelow, foundBelow_outline]

theorem makeDirectory_outline (t : FileTree) (cwd : Location) (p : Path) :
    t.outline.makeDirectory cwd p = (t.makeDirectory cwd p).map outline := by
  unfold makeDirectory
  rw [resolve_outline]
  cases t.resolve cwd p false with
  | error e => rfl
  | ok place =>
    cases place with
    | taken l e => rfl
    | free dir name slash =>
      simp only [Except.map, Place.outline, bind, Except.bind, outline_set, Entry.outline]

theorem makeParents_outline (cwd : Location) (fuel : Nat) (t : FileTree) (p : Path) :
    makeParents cwd fuel t.outline p = ((makeParents cwd fuel t p).1.outline, (makeParents cwd fuel t p).2) := by
  induction fuel generalizing t p with
  | zero => rfl
  | succ fuel ih =>
    simp only [makeParents, makeDirectory_outline, isDirectory_outline]
    split
    · rfl
    · rcases t.makeDirectory cwd p with e | t'
      · cases e with
        | notFound =>
          cases hp : p.parent? with
          | none => rfl
          | some parent =>
            simp only [Except.map, ih]
            rcases makeParents cwd fuel t parent with ⟨t', e | _⟩
            · rfl
            · simp only [makeDirectory_outline, isDirectory_outline]
              cases t'.makeDirectory cwd p <;> rfl
        | _ => rfl
      · rfl

end FileTree

/-! Trees without links, and the place that a path names there. It is told by the normal form of the path, whatever
the tree holds and however the path is spelled. -/

namespace Path

theorem isAbsolute_iff_head? {p : Path} : p.isAbsolute = true ↔ p.segments.head? = some .root := by
  rw [← lead_eq_root_iff, lead_eq_ofFirst]
  rcases p.segments.head? with _ | _ | _ | _ | _ <;> simp [Lead.ofFirst]

section From
variable {base : Path} (hb : base.isAbsolute = true)
include hb

/-- What a path passes that starts from another. -/
theorem passed_from (p : Path) :
    (base.join p).passed = p.segments.foldl (climb true) (if p.isAbsolute then [] else base.passed) := by
  cases hp : p.isAbsolute with
  | true => rw [join_absolute base hp, passed, hp, if_pos rfl]
  | false =>
    rw [passed_join hp, hb, segments_eq_steps, List.foldl_append, foldl_climb_lead, if_neg Bool.false_ne_true]

theorem isAbsolute_from (p : Path) : (base.join p).isAbsolute = true := isAbsolute_join_left hb p

theorem exists_place_from (p : Path) : ∃ l, AreNames l ∧ (base.join p).normalize = Location.path l :=
  exists_place (isAbsolute_normalize (isAbsolute_from hb p)) (normalize_normalize _)

omit hb in
theorem passed_of_normalize {p : Path} {l : Location} (hl : AreNames l) (h : p.normalize = l.path) :
    p.passed = (l.map .name).reverse := by
  rw [← passed_normalize, h, passed, Location.segments_path hl, Location.isAbsolute_path, List.foldl_cons]
  exact foldl_climb_upDown true (fun _ => rfl) l

theorem normalize_of_passed {p : Path} {l : Location} (h : (base.join p).passed = (l.map .name).reverse) :
    (base.join p).normalize = l.path := by
  rw [normalize_eq, isAbsolute_from hb, h, List.reverse_reverse, ← normalPath_path]
  rfl

theorem normalize_from_append {p q : Path} {l names : Location} (hl : AreNames l) (hp : (base.join p).normalize = l.path)
    (hq : q.segments = p.segments ++ names.map .name) : (base.join q).normalize = Location.path (l ++ names) := by
  have hsame : q.isAbsolute = p.isAbsolute := by
    rw [Bool.eq_iff_iff, isAbsolute_iff_head?, isAbsolute_iff_head?, hq]
    cases p.segments with
    | nil => cases names <;> simp
    | cons s rest => simp
  apply normalize_of_passed hb
  rw [passed_from hb, hsame, hq, List.foldl_append, ← passed_from hb, passed_of_normalize hl hp]
  clear hq hp
  induction names using List.reverseRecOn with
  | nil => simp
  | append_singleton names n ih =>
    rw [List.map_append, List.foldl_append, ih, List.map_cons, List.map_nil, List.foldl_cons, List.foldl_nil, climb]
    simp

end From

end Path

namespace FileTree
open ComponentDocs.Path

def Unlinked (t : FileTree) : Prop := ∀ l target, t.get? l ≠ some (.link target)

theorem Plain.unlinked {t : FileTree} (ht : Plain t) : Unlinked t := ht.no_link

theorem Footprint.unlinked {here : Location} {t t' : FileTree} {files ways : List Path}
    (h : Footprint here t t' files ways) (ht : Unlinked t) : Unlinked t' := by
  intro l target hl
  by_cases hsame : t'.get? l = t.get? l
  · exact ht l target (hsame ▸ hl)
  · rcases h.changed l hsame with ⟨p, -, content, hf⟩ | ⟨-, hd, -⟩
    · exact absurd (hl.symm.trans (get?_of_find_file hf)) (by simp)
    · exact absurd (hl.symm.trans hd) (by simp)

theorem eq_name_of_segment? {piece : List Char} {s : Segment} (h : segment? piece = some s) (hne : s ≠ .up) :
    s = .name piece := by
  unfold segment? at h
  split at h <;> simp_all

/-- A walk that meets no link goes where the names and steps up say. -/
theorem climb_walk {t : FileTree} {followLast : Bool} {dir l : Location} {pieces : List (List Char)} {e : Entry}
    (h : t.walk followLast dir pieces = .place (.taken l e)) :
    (pieces.filterMap segment?).foldl (climb true) (dir.map .name).reverse = (l.map .name).reverse := by
  have hup (dir : Location) : climb true (dir.map .name).reverse .up = (dir.dropLast.map .name).reverse := by
    obtain rfl | ⟨front, n, rfl⟩ := List.eq_nil_or_concat dir
    · rfl
    · simp [climb]
  have hdown (dir : Location) (n : List Char) :
      climb true (dir.map .name).reverse (.name n) = ((dir ++ [n]).map .name).reverse := by
    simp [climb]
  induction pieces generalizing dir with
  | nil =>
    cases h
    rfl
  | cons piece rest ih =>
    rw [walk] at h
    cases hs : segment? piece with
    | none =>
      rw [hs] at h
      rw [List.filterMap_cons_none hs]
      exact ih h
    | some s =>
      rw [List.filterMap_cons_some hs, List.foldl_cons]
      by_cases hsup : s = .up
      · subst hsup
        rw [hs] at h
        rw [hup]
        exact ih h
      · obtain rfl := eq_name_of_segment? hs hsup
        simp only [hs] at h
        rw [hdown]
        split at h
        · cases h
        · split at h
          · exact ih h
          · split at h
            · next hrest =>
              obtain rfl : rest = [] := by simp_all
              cases h
              rfl
            · cases h
          · split at h
            · next hrest =>
              obtain rfl : rest = [] := by simpa using hrest
              cases h
              rfl
            · cases h
          · split at h <;> cases h

section Unlinked
variable {t : FileTree} (ht : Unlinked t)
include ht

theorem Unlinked.walk_ne_link {followLast : Bool} {dir d : Location} {pieces rest : List (List Char)} {target : Path} :
    t.walk followLast dir pieces ≠ .link d target rest := by
  fun_induction walk t followLast dir pieces <;> simp_all [ht _ _]

theorem Unlinked.walk_of_follow {followLast : Bool} {links : Nat} {dir : Location} {pieces : List (List Char)}
    {place : Place} (h : t.follow followLast links dir pieces = .ok place) :
    t.walk followLast dir pieces = .place place := by
  unfold follow at h
  split at h
  · next hw =>
    rw [hw, Except.ok.inj h]
  · cases h
  · next hw => exact absurd hw ht.walk_ne_link

theorem Unlinked.passed_of_find {here l : Location} (hh : AreNames here) {p : Path} {e : Entry}
    (h : t.find here p = .ok (l, e)) : (here.path.join p).passed = (l.map .name).reverse := by
  have hw := find_eq_ok_iff.1 h
  unfold resolve at hw
  split at hw
  · cases hw
  split at hw
  · cases hw
  rw [passed_from (Location.isAbsolute_path here), segments_eq_steps, List.foldl_append, foldl_climb_lead,
    ← filterMap_pieces, ← climb_walk (ht.walk_of_follow hw), passed_of_normalize hh (Location.normalize_path hh)]
  cases p.isAbsolute <;> rfl

/-- A path that starts from a directory leads to the place that it names. -/
theorem Unlinked.normalize_of_find {here l : Location} (hh : AreNames here) {p : Path} {e : Entry}
    (h : t.find here p = .ok (l, e)) : (here.path.join p).normalize = l.path :=
  normalize_of_passed (Location.isAbsolute_path here) (ht.passed_of_find hh h)

/-- Two paths lead to the same file if they name the same place, however they are spelled, and only then. -/
theorem Unlinked.sameFile_iff {here l l' : Location} (hh : AreNames here) {p q : Path} {content content' : Content}
    (hp : t.find here p = .ok (l, .file content)) (hq : t.find here q = .ok (l', .file content')) :
    t.SameFile here p q ↔ (here.path.join p).normalize = (here.path.join q).normalize := by
  rw [sameFile_iff_of_find hp hq]
  constructor
  · rintro rfl
    rw [ht.normalize_of_find hh hp, ht.normalize_of_find hh hq]
  · intro h
    have hpassed := congrArg Path.passed h
    rw [passed_normalize, passed_normalize, ht.passed_of_find hh hp, ht.passed_of_find hh hq,
      List.reverse_inj] at hpassed
    exact List.map_injective_iff.2 (fun _ _ h => Segment.name.inj h) hpassed

end Unlinked

end FileTree

end ComponentDocs

/-! What is removed or moved leaves each place of a tree with one entry at most. Without links, nothing changes but at the
places that are named. -/
namespace ComponentDocs.FileTree
open ComponentDocs.Path

variable {t t' : FileTree} {here : Location}

theorem nodup_remove (hn : (t.entries.map Prod.fst).Nodup) {file : Path} (h : t.remove here file = .ok t') :
    (t'.entries.map Prod.fst).Nodup := by
  unfold remove at h
  rcases hr : t.resolve here file false with e | ⟨top, e⟩ | ⟨dir, n, slash⟩
  · simp [hr, bind, Except.bind] at h
  · simp only [hr, bind, Except.bind, Except.ok.injEq] at h
    subst h
    exact hn.sublist (List.filter_sublist.map _)
  · simp [hr, bind, Except.bind] at h

theorem isBelow_iff {top l : Location} : isBelow top l = true ↔ top <+: l := List.isPrefixOf_iff_prefix

theorem nodup_relocate {entries : List (Location × Entry)} (hn : (entries.map Prod.fst).Nodup) (source goal : Location)
    (hfree : ∀ x ∈ entries, isBelow goal x.1 = false) :
    ((entries.map fun x => (if isBelow source x.1 then goal ++ x.1.drop source.length else x.1, x.2)).map
      Prod.fst).Nodup := by
  have hkeys : (entries.map fun x => (if isBelow source x.1 then goal ++ x.1.drop source.length else x.1, x.2)).map
      Prod.fst = (entries.map Prod.fst).map fun l => if isBelow source l then goal ++ l.drop source.length else l := by
    simp
  have hfree' : ∀ l ∈ entries.map Prod.fst, ∀ below, l ≠ goal ++ below := by
    intro l hl below he
    obtain ⟨x, hx, rfl⟩ := List.mem_map.1 hl
    have hbelow := isBelow_iff.2 ⟨below, he.symm⟩
    rw [hfree x hx] at hbelow
    cases hbelow
  rw [hkeys]
  apply hn.map_on
  intro a ha b hb heq
  split at heq
  · next hsa =>
    split at heq
    · next hsb =>
      obtain ⟨below, rfl⟩ := isBelow_iff.1 hsa
      obtain ⟨below', rfl⟩ := isBelow_iff.1 hsb
      simpa using heq
    · exact absurd heq.symm (hfree' b hb _)
  · split at heq
    · exact absurd heq (hfree' a ha _)
    · exact heq

theorem nodup_moved (hn : (t.entries.map Prod.fst).Nodup) {source goal : Location}
    (h : (if goal == source then Except.ok t
      else Except.ok ⟨(t.entries.filter fun x => !isBelow goal x.1).map fun x =>
        (if isBelow source x.1 then goal ++ x.1.drop source.length else x.1, x.2)⟩ : Except FileError FileTree) = .ok t') :
    (t'.entries.map Prod.fst).Nodup := by
  split at h
  · obtain rfl := Except.ok.inj h
    exact hn
  · obtain rfl := Except.ok.inj h
    apply nodup_relocate (hn.sublist (List.filter_sublist.map _))
    intro x hx
    simpa using (List.mem_filter.1 hx).2

theorem nodup_move (hn : (t.entries.map Prod.fst).Nodup) {file goal : Path} (h : t.move here file goal = .ok t') :
    (t'.entries.map Prod.fst).Nodup := by
  unfold move at h
  cases hr : t.resolve here file false with
  | error e => simp [hr, bind, Except.bind] at h
  | ok place =>
    cases hg : t.resolve here goal false with
    | error e => cases place <;> simp [hr, hg, bind, Except.bind] at h
    | ok place' =>
      rw [hr, hg] at h
      cases place with
      | free dir n slash => cases h
      | taken source e =>
        cases place' with
        | taken l e' => exact nodup_moved hn h
        | free dir n slash => exact nodup_moved hn h

theorem get?_eq_some_iff_mem (hn : (t.entries.map Prod.fst).Nodup) {l : Location} (hne : l ≠ []) {e : Entry} :
    t.get? l = some e ↔ (l, e) ∈ t.entries := by
  have he : l.isEmpty = false := by simpa using hne
  rw [get?, he, if_neg Bool.false_ne_true, lookup_eq_some_iff_mem hn]

/-- Only a directory has something below it. -/
theorem WellFormed.eq_of_prefix (ht : WellFormed t) {l m : Location} (hl : t.get? l ≠ some .directory) {e : Entry}
    (hm : t.get? m = some e) (h : l <+: m) : m = l := by
  obtain ⟨below, rfl⟩ := h
  by_cases hne : below = []
  · rw [hne, List.append_nil]
  · exact absurd (ht.get?_above hm hne) hl

/-- A tree stays plain where files come and go in directories. -/
theorem Plain.of_changes (ht : Plain t) (hn : (t'.entries.map Prod.fst).Nodup)
    (h : ∀ l, t'.get? l ≠ t.get? l → t.get? l ≠ some .directory ∧ ∀ e, t'.get? l = some e →
      (∃ content, e = .file content) ∧ ∃ dir n, l = dir ++ [n] ∧ t.get? dir = some .directory ∧ Fits n) : Plain t' := by
  have hdir {l : Location} (hl : t.get? l = some .directory) : t'.get? l = some .directory := by
    by_contra hne
    exact (h l fun hsame => hne (hsame.trans hl)).1 hl
  refine ⟨⟨hn, fun dir n e he => ?_⟩, fun l target hl => ?_⟩
  · by_cases hsame : t'.get? (dir ++ [n]) = t.get? (dir ++ [n])
    · obtain ⟨hd, hf⟩ := ht.inside dir n e (hsame ▸ he)
      exact ⟨hdir hd, hf⟩
    · obtain ⟨-, dir', n', hl, hd, hf⟩ := (h _ hsame).2 e he
      obtain ⟨rfl, hnn⟩ := List.append_inj' hl rfl
      cases hnn
      exact ⟨hdir hd, hf⟩
  · by_cases hsame : t'.get? l = t.get? l
    · exact ht.no_link l target (hsame ▸ hl)
    · obtain ⟨⟨content, he⟩, -⟩ := (h l hsame).2 _ hl
      cases he

/-- A path of names leads to their place, or to where something with the last name would be. -/
theorem Plain.place_of_resolve (ht : Plain t) {l : Location} (hl : AreNames l) {fl : Bool} {place : Place}
    (h : t.resolve here l.path fl = .ok place) :
    (∃ e, place = .taken l e ∧ t.get? l = some e) ∨
      ∃ dir n slash, place = .free dir n slash ∧ l = dir ++ [n] ∧ t.get? dir = some .directory ∧ Fits n := by
  rcases exists_front t [] rfl l with hd | ⟨dir, n, rest, rfl, hd, hn⟩
  · rw [List.nil_append] at hd
    rw [ht.resolve_directory hd] at h
    cases h
    exact .inl ⟨.directory, rfl, hd⟩
  · rw [List.nil_append] at hd hn
    rw [ht.resolve_stop hd hn hl] at h
    split at h
    · cases h
    next hz =>
    unfold stopAt at h
    split at h
    · cases h
    next hb =>
    have hfits : Fits n :=
      ⟨hl n (by simp), fun hnul => hz ⟨n, List.mem_cons_self, hnul⟩, Nat.not_lt.1 hb⟩
    split at h
    · next e he =>
      split at h
      · next hrest =>
        obtain rfl : rest = [] := by simpa using hrest
        obtain rfl := Except.ok.inj h
        exact .inl ⟨e, rfl, he⟩
      · cases h
    · split at h
      · next hrest =>
        obtain rfl : rest = [] := by simpa using hrest
        obtain rfl := Except.ok.inj h
        exact .inr ⟨dir, n, false, rfl, rfl, hd, hfits⟩
      · cases h

theorem walk_congr {u : FileTree} {fl : Bool} {dir names : Location} (hn : AreNames names)
    (h : ∀ front, front <+: names → u.get? (dir ++ front) = t.get? (dir ++ front)) :
    walk u fl dir names = walk t fl dir names := by
  induction names generalizing dir with
  | nil => rfl
  | cons n rest ih =>
    have hhead := h [n] (by simp)
    have hrest : walk u fl (dir ++ [n]) rest = walk t fl (dir ++ [n]) rest :=
      ih (hn.right (a := [n])) fun front hf => by simpa using h (n :: front) (by simpa using hf)
    rw [walk, walk, (hn n (by simp)).segment?, hhead, hrest]

/-- A path of names leads to the same in two trees that have the same on the way. -/
theorem Plain.resolve_congr (ht : Plain t) {u : FileTree} {l : Location} (hl : AreNames l)
    (h : ∀ front, front <+: l → u.get? front = t.get? front) (fl : Bool) :
    u.resolve here l.path fl = t.resolve here l.path fl := by
  have hw : walk u fl [] l = walk t fl [] l := walk_congr hl fun front hf => h front hf
  rw [resolve_path_eq _ _ hl, resolve_path_eq _ _ hl]
  congr 1
  unfold follow
  rw [hw]
  cases hstop : walk t fl [] l with
  | place | failed => rfl
  | link dir target rest => exact absurd hstop ht.unlinked.walk_ne_link

section File
variable (ht : Plain t) {l : Location} {content : Content} (hl : t.get? l = some (.file content))
include ht hl

theorem Plain.get?_remove (h : t.remove here l.path = .ok t') (m : Location) :
    t'.get? m = if m = l then none else t.get? m := by
  have hnames := areNames_of_fits (ht.fits hl)
  have hn := nodup_remove ht.nodup h
  unfold remove at h
  cases hr : t.resolve here l.path false with
  | error e => simp [hr, bind, Except.bind] at h
  | ok place =>
    obtain ⟨e, rfl, -⟩ | ⟨dir, n, slash, rfl, -⟩ := ht.place_of_resolve hnames hr
    · simp only [hr, bind, Except.bind, Except.ok.injEq] at h
      subst h
      by_cases hm : m = []
      · subst hm
        rw [if_neg (Ne.symm (ne_root_of_get?_file hl))]
        rfl
      · ext e
        rw [get?_eq_some_iff_mem hn hm, List.mem_filter, ← get?_eq_some_iff_mem ht.nodup hm, Bool.not_eq_true',
          ← Bool.not_eq_true, isBelow_iff]
        by_cases htop : m = l
        · subst htop
          simp
        · rw [if_neg htop]
          constructor
          · exact And.left
          · intro he
            exact ⟨he, fun hp => htop (ht.eq_of_prefix (by simp [hl]) he hp)⟩
    · simp [hr, bind, Except.bind] at h

theorem Plain.remove (h : t.remove here l.path = .ok t') : Plain t' := by
  apply ht.of_changes (nodup_remove ht.nodup h)
  intro m hm
  rw [ht.get?_remove hl h] at hm ⊢
  split at hm
  · next heq =>
    subst heq
    simp [hl]
  · exact absurd rfl hm

variable {g : Location} (hg : AreNames g) (hdir : t.get? g ≠ some .directory)
include hdir

/-- Without the file that is replaced, the entries are those of the tree, with the one file under its new name. -/
theorem Plain.mem_moved_iff {m : Location} {e : Entry} (hm : m ≠ []) :
    (m, e) ∈ ((t.entries.filter fun x => !isBelow g x.1).map fun x =>
        (if isBelow l x.1 then g ++ x.1.drop l.length else x.1, x.2)) ↔
      ∃ k, t.get? k = some e ∧ k ≠ g ∧ (if k = l then g else k) = m := by
  have hroot := ne_root_of_get?_file hl
  have hplace {k : Location} {e : Entry} (hk : t.get? k = some e) :
      (if isBelow l k then g ++ k.drop l.length else k) = if k = l then g else k := by
    by_cases hkl : k = l
    · rw [if_pos (isBelow_iff.2 (hkl ▸ List.prefix_refl l)), if_pos hkl, hkl, List.drop_length, List.append_nil]
    · rw [if_neg fun hb => hkl (ht.eq_of_prefix (by simp [hl]) hk (isBelow_iff.1 hb)), if_neg hkl]
  have hkept {k : Location} {e : Entry} (hk : t.get? k = some e) : (!isBelow g k) = true ↔ k ≠ g := by
    rw [Bool.not_eq_true', ← Bool.not_eq_true, isBelow_iff, not_iff_not]
    constructor
    · exact ht.eq_of_prefix hdir hk
    · rintro rfl
      exact List.prefix_refl k
  have hmem {k : Location} {e : Entry} (hk : k ≠ []) := get?_eq_some_iff_mem (e := e) ht.nodup hk
  rw [List.mem_map]
  constructor
  · rintro ⟨⟨k, e'⟩, hk, he⟩
    obtain ⟨hk, hb⟩ := List.mem_filter.1 hk
    obtain ⟨hkm, rfl⟩ := Prod.mk.inj he
    have hk0 : k ≠ [] := by
      rintro rfl
      rw [if_neg (by simpa [isBelow] using hroot)] at hkm
      exact hm hkm.symm
    have hget := (hmem hk0).2 hk
    exact ⟨k, hget, (hkept hget).1 hb, hplace hget ▸ hkm⟩
  · rintro ⟨k, hget, hkg, rfl⟩
    have hk0 : k ≠ [] := by
      rintro rfl
      rw [if_neg (Ne.symm hroot)] at hm
      exact hm rfl
    exact ⟨(k, e), List.mem_filter.2 ⟨(hmem hk0).1 hget, (hkept hget).2 hkg⟩, Prod.ext (hplace hget) rfl⟩

theorem Plain.get?_moved (hn : (t'.entries.map Prod.fst).Nodup)
    (h : (if g == l then Except.ok t
      else Except.ok ⟨(t.entries.filter fun x => !isBelow g x.1).map fun x =>
        (if isBelow l x.1 then g ++ x.1.drop l.length else x.1, x.2)⟩ : Except FileError FileTree) = .ok t')
    (m : Location) : t'.get? m = if m = g then some (.file content) else if m = l then none else t.get? m := by
  split at h
  · next hgl =>
    obtain rfl := Except.ok.inj h
    obtain rfl : g = l := by simpa using hgl
    by_cases hm : m = g
    · subst hm
      rw [if_pos rfl, hl]
    · rw [if_neg hm, if_neg hm]
  · next hgl =>
    obtain rfl := Except.ok.inj h
    have hne : l ≠ g := fun hlg => hgl (beq_iff_eq.2 hlg.symm)
    have hgroot : g ≠ [] := by
      rintro rfl
      exact hdir rfl
    by_cases hm : m = []
    · subst hm
      rw [if_neg (Ne.symm hgroot), if_neg (Ne.symm (ne_root_of_get?_file hl))]
      rfl
    ext e
    rw [get?_eq_some_iff_mem hn hm, ht.mem_moved_iff hl hdir hm]
    constructor
    · rintro ⟨k, hget, hkg, rfl⟩
      by_cases hkl : k = l
      · subst hkl
        rw [if_pos rfl, if_pos rfl, ← hl, hget]
      · rw [if_neg hkl, if_neg hkg, if_neg hkl, hget]
    · intro he
      by_cases hmg : m = g
      · rw [if_pos hmg] at he
        exact ⟨l, hl.trans he, hne, by rw [if_pos rfl, hmg]⟩
      · rw [if_neg hmg] at he
        split at he
        · cases he
        · next hml => exact ⟨m, he, hmg, if_neg hml⟩

include hg

theorem Plain.get?_move (h : t.move here l.path g.path = .ok t') :
    (∃ dir n, g = dir ++ [n] ∧ t.get? dir = some .directory ∧ Fits n) ∧
      ∀ m, t'.get? m = if m = g then some (.file content) else if m = l then none else t.get? m := by
  have hn := nodup_move ht.nodup h
  unfold move at h
  cases hr : t.resolve here l.path false with
  | error e => simp [hr, bind, Except.bind] at h
  | ok place =>
    obtain ⟨e, rfl, -⟩ | ⟨dir, n, slash, rfl, -⟩ := ht.place_of_resolve (areNames_of_fits (ht.fits hl)) hr
    · cases hr' : t.resolve here g.path false with
      | error e => simp [hr, hr', bind, Except.bind] at h
      | ok goal =>
        obtain ⟨e', rfl, he⟩ | ⟨dir, n, slash, rfl, rfl, hd, hf⟩ := ht.place_of_resolve hg hr'
        · have hne : g ≠ [] := by
            rintro rfl
            exact hdir rfl
          obtain ⟨dir, n, rfl⟩ := exists_eq_append hne
          simp only [hr, hr', bind, Except.bind] at h
          exact ⟨⟨dir, n, rfl, ht.inside dir n e' he⟩, ht.get?_moved hl hdir hn h⟩
        · simp only [hr, hr', bind, Except.bind] at h
          exact ⟨⟨dir, n, rfl, hd, hf⟩, ht.get?_moved hl hdir hn h⟩
    · cases hg' : t.resolve here g.path false <;> simp [hr, hg', bind, Except.bind] at h

theorem Plain.move (h : t.move here l.path g.path = .ok t') : Plain t' := by
  obtain ⟨hgoal, hget⟩ := ht.get?_move hl hg hdir h
  apply ht.of_changes (nodup_move ht.nodup h)
  intro m hm
  rw [hget] at hm ⊢
  by_cases hmg : m = g
  · subst hmg
    rw [if_pos rfl]
    exact ⟨hdir, fun e he => ⟨⟨content, (Option.some.inj he).symm⟩, hgoal⟩⟩
  · rw [if_neg hmg] at hm ⊢
    split at hm
    · next heq =>
      subst heq
      simp [hl]
    · exact absurd rfl hm

end File

end ComponentDocs.FileTree
