import ComponentDocs.FileTree.Update
import Mathlib.Tactic
/-! Trees that grow. Writing files and making directories takes nothing away and turns nothing into
something else, so a path leads where it led before. -/
namespace ComponentDocs

/-- Two files, or the same entry. -/
def Entry.SameKind : Entry → Entry → Prop
  | .file _, .file _ => True
  | e, e' => e = e'

theorem Entry.SameKind.rfl (e : Entry) : e.SameKind e := by
  cases e <;> simp [SameKind]

theorem Entry.SameKind.trans {a b c : Entry} (hab : a.SameKind b) (hbc : b.SameKind c) : a.SameKind c := by
  cases a <;> cases b <;> cases c <;> simp_all [SameKind]

theorem Entry.sameKind_directory_iff {e : Entry} : Entry.directory.SameKind e ↔ e = .directory := by
  cases e <;> simp [SameKind]

theorem Entry.sameKind_link_iff {target : Path} {e : Entry} :
    (Entry.link target).SameKind e ↔ e = .link target := by
  cases e <;> simp [SameKind, eq_comm]

theorem Entry.sameKind_file_iff {content : Content} {e : Entry} :
    (Entry.file content).SameKind e ↔ ∃ c, e = .file c := by
  cases e <;> simp [SameKind]

namespace FileTree

/-- The second tree has all that the first has, at most with other contents of its files. -/
def Grows (t t' : FileTree) : Prop := ∀ l e, t.get? l = some e → ∃ e', t'.get? l = some e' ∧ e.SameKind e'

/-- The second tree is the first with some new directories. -/
def AddsDirectories (t t' : FileTree) : Prop :=
  ∀ l, t'.get? l = t.get? l ∨ t.get? l = none ∧ t'.get? l = some .directory

theorem Grows.rfl (t : FileTree) : Grows t t := fun _ e h => ⟨e, h, .rfl e⟩

theorem Grows.trans {t t' t'' : FileTree} (h : Grows t t') (h' : Grows t' t'') : Grows t t'' := by
  intro l e he
  obtain ⟨e', he', hk⟩ := h l e he
  obtain ⟨e'', he'', hk'⟩ := h' l e' he'
  exact ⟨e'', he'', hk.trans hk'⟩

theorem Grows.get?_directory {t t' : FileTree} (h : Grows t t') {l : Location} (hd : t.get? l = some .directory) :
    t'.get? l = some .directory := by
  obtain ⟨e, he, hk⟩ := h l _ hd
  rw [he, Entry.sameKind_directory_iff.1 hk]

theorem AddsDirectories.rfl (t : FileTree) : AddsDirectories t t := fun _ => .inl (Eq.refl _)

theorem AddsDirectories.grows {t t' : FileTree} (h : AddsDirectories t t') : Grows t t' := by
  intro l e he
  rcases h l with h | ⟨hn, -⟩
  · exact ⟨e, h.trans he, .rfl e⟩
  · rw [hn] at he
    cases he

theorem grows_set {t : FileTree} {l : Location} (hl : l ≠ []) {e : Entry}
    (h : ∀ old, t.get? l = some old → old.SameKind e) : Grows t (t.set l e) := by
  intro m old hm
  by_cases heq : m = l
  · subst heq
    exact ⟨e, get?_set_self t hl e, h old hm⟩
  · exact ⟨old, (get?_set_of_ne t heq e).trans hm, .rfl old⟩

theorem addsDirectories_set {t : FileTree} {l : Location} (hl : l ≠ []) (h : t.get? l = none) :
    AddsDirectories t (t.set l .directory) := by
  intro m
  by_cases heq : m = l
  · subst heq
    exact .inr ⟨h, get?_set_self t hl _⟩
  · exact .inl (get?_set_of_ne t heq _)

theorem walk_file {t : FileTree} {fl : Bool} {dir : Location} {pieces : List (List Char)} {l : Location}
    {content : Content} (h : walk t fl dir pieces = .place (.taken l (.file content))) :
    t.get? l = some (.file content) := by
  fun_induction walk t fl dir pieces with
  | case2 | case3 | case5 => simp_all
  | case8 => simp_all only [Stop.place.injEq, Place.taken.injEq]
  | _ => simp at h

theorem walk_of_forall_isIdle (t : FileTree) (fl : Bool) (dir : Location)
    {pieces : List (List Char)} (h : ∀ piece ∈ pieces, Path.isIdle piece = true) :
    walk t fl dir pieces = .place (.taken dir .directory) := by
  induction pieces with
  | nil => rfl
  | cons piece rest ih =>
    have hidle : Path.segment? piece = none := by simpa [Path.isIdle] using h piece (by simp)
    rw [walk, hidle]
    exact ih fun p hp => h p (by simp [hp])

/-- Where nothing is yet, there is a name with nothing behind it. -/
theorem walk_free {t : FileTree} {fl : Bool} {dir : Location} {pieces : List (List Char)} {parent : Location}
    {name : List Char} {slash : Bool} (h : walk t fl dir pieces = .place (.free parent name slash)) :
    t.get? (parent ++ [name]) = none := by
  fun_induction walk t fl dir pieces with
  | case2 | case3 | case5 => simp_all
  | case10 => simp_all only [Stop.place.injEq, Place.free.injEq]
  | _ => simp at h

/-- What is known of a walk in the tree `t'` when a walk in a smaller tree stopped: it stops there
too, and a place that was free holds the file that was put there. -/
def Stop.Leads (t' : FileTree) : Stop → Stop → Prop
  | .place (.taken l e), s => ∃ e', s = .place (.taken l e') ∧ e.SameKind e'
  | .place (.free dir name slash), s =>
    slash = false → ∀ content, t'.get? (dir ++ [name]) = some (.file content) →
      s = .place (.taken (dir ++ [name]) (.file content))
  | .link dir target rest, s => s = .link dir target rest
  | .failed _, _ => True

theorem walk_leads {t t' : FileTree} (hg : Grows t t') (fl : Bool) (dir : Location)
    (pieces : List (List Char)) : Stop.Leads t' (walk t fl dir pieces) (walk t' fl dir pieces) := by
  fun_induction walk t fl dir pieces with
  | case1 => exact ⟨_, rfl, .rfl _⟩
  | case2 _ _ _ hs ih | case3 _ _ _ hs ih =>
    rw [walk, hs]
    exact ih
  | case4 | case9 | case11 => trivial
  | case5 _ _ _ _ hn hs hb hd ih =>
    obtain ⟨e', he', hk⟩ := hg _ _ hd
    rw [Entry.sameKind_directory_iff] at hk
    subst hk
    rw [walk]
    simpa [hs, hn, hb, he'] using ih
  | case6 _ _ _ _ _ hs hb _ hd hl =>
    obtain ⟨e', he', hk⟩ := hg _ _ hd
    rw [Entry.sameKind_link_iff] at hk
    subst hk
    refine ⟨_, ?_, .rfl _⟩
    rw [walk]
    simp [hs, hb, he', hl]
  | case7 _ _ _ _ _ hs hb _ hd hl =>
    obtain ⟨e', he', hk⟩ := hg _ _ hd
    rw [Entry.sameKind_link_iff] at hk
    subst hk
    rw [Stop.Leads, walk]
    simp [hs, hb, he', hl]
  | case8 _ _ _ _ _ hs hb _ hd hl =>
    obtain ⟨e', he', hk⟩ := hg _ _ hd
    obtain ⟨c, rfl⟩ := Entry.sameKind_file_iff.1 hk
    refine ⟨_, ?_, hk⟩
    rw [walk]
    simp [hs, hb, he', hl]
  | case10 _ _ _ _ hn hs hb hd hl =>
    intro hr content hf
    rw [walk]
    simp_all

/-- The same of the end of a path. -/
def Place.Leads (t' : FileTree) : Except FileError Place → Except FileError Place → Prop
  | .ok (.taken l e), r => ∃ e', r = .ok (.taken l e') ∧ e.SameKind e'
  | .ok (.free dir name slash), r =>
    slash = false → ∀ content, t'.get? (dir ++ [name]) = some (.file content) →
      r = .ok (.taken (dir ++ [name]) (.file content))
  | .error _, _ => True

theorem follow_of_place {t : FileTree} {fl : Bool} {dir : Location} {pieces : List (List Char)} {p : Place}
    (h : walk t fl dir pieces = .place p) (links : Nat) : follow t fl links dir pieces = .ok p := by
  unfold follow
  rw [h]

theorem Stop.Leads.follow {t' : FileTree} {fl : Bool} {dir : Location} {pieces : List (List Char)} {p : Place}
    (h : Stop.Leads t' (.place p) (walk t' fl dir pieces)) (links : Nat) :
    Place.Leads t' (.ok p) (follow t' fl links dir pieces) := by
  cases p with
  | taken l e =>
    obtain ⟨e', he', hk⟩ := h
    exact ⟨e', follow_of_place he' links, hk⟩
  | free d name slash =>
    intro hr content hf
    exact follow_of_place (h hr content hf) links

theorem follow_leads {t t' : FileTree} (hg : Grows t t') (fl : Bool) (links : Nat) (dir : Location)
    (pieces : List (List Char)) :
    Place.Leads t' (follow t fl links dir pieces) (follow t' fl links dir pieces) := by
  induction links generalizing dir pieces with
  | zero =>
    have hw := walk_leads hg fl dir pieces
    cases hs : walk t fl dir pieces with
    | failed e | link d target rest =>
      unfold follow
      rw [hs]
      trivial
    | place p =>
      rw [follow_of_place hs]
      exact (hs ▸ hw).follow 0
  | succ links ih =>
    have hw := walk_leads hg fl dir pieces
    cases hs : walk t fl dir pieces with
    | failed e =>
      unfold follow
      rw [hs]
      trivial
    | link d target rest =>
      have hl : walk t' fl dir pieces = .link d target rest := by rwa [hs] at hw
      unfold follow
      rw [hs, hl]
      dsimp only
      split
      · trivial
      · exact ih _ _
    | place p =>
      rw [follow_of_place hs]
      exact (hs ▸ hw).follow _

theorem resolve_leads {t t' : FileTree} (hg : Grows t t') (cwd : Location) (p : Path) (fl : Bool) :
    Place.Leads t' (t.resolve cwd p fl) (t'.resolve cwd p fl) := by
  unfold resolve
  split
  · trivial
  · split
    · trivial
    · exact follow_leads hg _ _ _ _

theorem find_of_grows {t t' : FileTree} (hg : Grows t t') {cwd : Location} {p : Path} {l : Location}
    {e : Entry} (h : t.find cwd p = .ok (l, e)) : ∃ e', t'.find cwd p = .ok (l, e') ∧ e.SameKind e' := by
  have hr := resolve_leads hg cwd p true
  unfold find at h ⊢
  cases hp : t.resolve cwd p true with
  | error e => simp [hp, bind, Except.bind] at h
  | ok place =>
    cases place with
    | free d n s => simp [hp, bind, Except.bind] at h
    | taken m e' =>
      simp only [hp, bind, Except.bind, Except.ok.injEq, Prod.mk.injEq] at h
      obtain ⟨rfl, rfl⟩ := h
      rw [hp] at hr
      obtain ⟨e', he', hk⟩ := hr
      exact ⟨e', by simp [he', bind, Except.bind], hk⟩

/-! What the operations on a tree leave alone. Writing changes the one file that its path leads to,
and making directories changes no file. -/

/-- The content of the file at a place. -/
def fileAt? (t : FileTree) (l : Location) : Option Content :=
  match t.get? l with
  | some (.file content) => some content
  | _ => none

def SameFile (t : FileTree) (cwd : Location) (p q : Path) : Prop :=
  ∃ l content, t.find cwd p = .ok (l, .file content) ∧ t.find cwd q = .ok (l, .file content)

/-- The tree has grown, and the files that are new or changed are those that some paths lead to. -/
structure Frame (cwd : Location) (t t' : FileTree) (paths : List Path) : Prop where
  grows : Grows t t'
  changed : ∀ l, t'.fileAt? l ≠ t.fileAt? l → ∃ p ∈ paths, ∃ content, t'.find cwd p = .ok (l, .file content)

theorem fileAt?_eq_some_iff {t : FileTree} {l : Location} {content : Content} :
    t.fileAt? l = some content ↔ t.get? l = some (.file content) := by
  unfold fileAt?
  split <;> simp_all

theorem fileAt?_congr {t t' : FileTree} {l : Location} (h : t'.get? l = t.get? l) :
    t'.fileAt? l = t.fileAt? l := by
  unfold fileAt?
  rw [h]

theorem AddsDirectories.fileAt?_eq {t t' : FileTree} (h : AddsDirectories t t') (l : Location) :
    t'.fileAt? l = t.fileAt? l := by
  rcases h l with h | ⟨hn, hd⟩
  · exact fileAt?_congr h
  · simp [fileAt?, hn, hd]

theorem find_file_of_grows {t t' : FileTree} (hg : Grows t t') {cwd : Location} {p : Path} {l : Location}
    {content : Content} (h : t.find cwd p = .ok (l, .file content)) :
    ∃ content', t'.find cwd p = .ok (l, .file content') := by
  obtain ⟨e', he', hk⟩ := find_of_grows hg h
  obtain ⟨c, rfl⟩ := Entry.sameKind_file_iff.1 hk
  exact ⟨c, he'⟩

theorem find_eq_ok_iff {t : FileTree} {cwd : Location} {p : Path} {l : Location} {e : Entry} :
    t.find cwd p = .ok (l, e) ↔ t.resolve cwd p true = .ok (.taken l e) := by
  unfold find
  cases t.resolve cwd p true with
  | error e => simp [bind, Except.bind]
  | ok place => cases place <;> simp [bind, Except.bind]

theorem isDirectory_iff {t : FileTree} {cwd : Location} {p : Path} :
    t.isDirectory cwd p = true ↔ ∃ l, t.find cwd p = .ok (l, .directory) := by
  unfold isDirectory
  split <;> simp_all

theorem follow_eq_ok {t : FileTree} {fl : Bool} {links : Nat} {dir : Location} {pieces : List (List Char)}
    {p : Place} (h : follow t fl links dir pieces = .ok p) :
    ∃ dir' pieces', walk t fl dir' pieces' = .place p := by
  induction links generalizing dir pieces with
  | zero =>
    unfold follow at h
    split at h
    · next hw => exact ⟨dir, pieces, by rw [hw]; simpa using h⟩
    · cases h
    · cases h
  | succ links ih =>
    unfold follow at h
    split at h
    · next hw => exact ⟨dir, pieces, by rw [hw]; simpa using h⟩
    · cases h
    · dsimp only at h
      split at h
      · cases h
      · exact ih h

theorem resolve_eq_ok {t : FileTree} {cwd : Location} {p : Path} {fl : Bool} {place : Place}
    (h : t.resolve cwd p fl = .ok place) : ∃ dir pieces, walk t fl dir pieces = .place place := by
  unfold resolve at h
  split at h
  · cases h
  · split at h
    · cases h
    · exact follow_eq_ok h

theorem get?_of_find_file {t : FileTree} {cwd : Location} {p : Path} {l : Location} {content : Content}
    (h : t.find cwd p = .ok (l, .file content)) : t.get? l = some (.file content) := by
  obtain ⟨dir, pieces, hw⟩ := resolve_eq_ok (find_eq_ok_iff.1 h)
  exact walk_file hw

theorem ne_root_of_get?_file {t : FileTree} {l : Location} {content : Content}
    (h : t.get? l = some (.file content)) : l ≠ [] := by
  rintro rfl
  simp [get?] at h

/-- A new file is found by the path that led to where it is put. -/
theorem find_set_free {t : FileTree} {cwd : Location} {p : Path} {dir : Location} {name : List Char}
    (h : t.resolve cwd p true = .ok (.free dir name false)) (content : Content) :
    Grows t (t.set (dir ++ [name]) (.file content)) ∧
      (t.set (dir ++ [name]) (.file content)).find cwd p = .ok (dir ++ [name], .file content) := by
  obtain ⟨_, _, hw⟩ := resolve_eq_ok h
  have hn := walk_free hw
  have hg : Grows t (t.set (dir ++ [name]) (.file content)) :=
    grows_set (by simp) fun old ho => by simp [hn] at ho
  have hl := resolve_leads hg cwd p true
  rw [h] at hl
  exact ⟨hg, find_eq_ok_iff.2 (hl rfl content (get?_set_self t (by simp) _))⟩

/-- A file that takes the place of another is found as that was. -/
theorem find_set_taken {t : FileTree} {cwd : Location} {p : Path} {l : Location} {old : Content}
    (h : t.resolve cwd p true = .ok (.taken l (.file old))) (content : Content) :
    Grows t (t.set l (.file content)) ∧ (t.set l (.file content)).find cwd p = .ok (l, .file content) := by
  obtain ⟨_, _, hw⟩ := resolve_eq_ok h
  have ho := walk_file hw
  have hne := ne_root_of_get?_file ho
  have hg : Grows t (t.set l (.file content)) :=
    grows_set hne fun e he => by
      rw [ho, Option.some.injEq] at he
      subst he
      trivial
  have hl := resolve_leads hg cwd p true
  rw [h] at hl
  obtain ⟨e, he, hk⟩ := hl
  obtain ⟨c, rfl⟩ := Entry.sameKind_file_iff.1 hk
  have hf := get?_of_find_file (find_eq_ok_iff.2 he)
  rw [get?_set_self t hne] at hf
  cases hf
  exact ⟨hg, find_eq_ok_iff.2 he⟩

/-- Writing puts the content where the path leads, and changes nothing else. -/
theorem write_eq_ok {t t' : FileTree} {cwd : Location} {p : Path} {content : Content}
    (h : t.write cwd p content = .ok t') :
    ∃ l, Grows t t' ∧ t'.find cwd p = .ok (l, .file content) ∧ ∀ m, m ≠ l → t'.get? m = t.get? m := by
  unfold write at h
  cases hp : t.resolve cwd p true with
  | error e => simp [hp, bind, Except.bind] at h
  | ok place =>
    simp only [hp, bind, Except.bind] at h
    cases place with
    | free dir name slash =>
      cases slash with
      | true => simp at h
      | false =>
        simp only [Bool.false_eq_true, if_false, Except.ok.injEq] at h
        subst h
        obtain ⟨hg, hf⟩ := find_set_free hp content
        exact ⟨dir ++ [name], hg, hf, fun m hm => get?_set_of_ne t hm _⟩
    | taken l e =>
      cases e with
      | directory | link => simp at h
      | file old =>
        simp only [Except.ok.injEq] at h
        subst h
        obtain ⟨hg, hf⟩ := find_set_taken hp content
        exact ⟨l, hg, hf, fun m hm => get?_set_of_ne t hm _⟩

theorem makeDirectory_eq_ok {t t' : FileTree} {cwd : Location} {p : Path}
    (h : t.makeDirectory cwd p = .ok t') : AddsDirectories t t' := by
  unfold makeDirectory at h
  cases hp : t.resolve cwd p false with
  | error e => simp [hp, bind, Except.bind] at h
  | ok place =>
    obtain ⟨dir, pieces, hw⟩ := resolve_eq_ok hp
    cases place with
    | taken l e => simp [hp, bind, Except.bind] at h
    | free d n slash =>
      simp only [hp, bind, Except.bind, Except.ok.injEq] at h
      subst h
      exact addsDirectories_set (by simp) (walk_free hw)

theorem readText_of_find {t : FileTree} {cwd : Location} {path : Path} {l : Location} {text : String}
    (h : t.find cwd path = .ok (l, .file (.text text))) : t.readText cwd path = .ok text := by
  simp [readText, FileTree.read, h, bind, Except.bind]

theorem sameFile_of_find {t : FileTree} {cwd : Location} {path path' : Path} {l : Location}
    {content content' : Content} (h : t.find cwd path = .ok (l, .file content))
    (h' : t.find cwd path' = .ok (l, .file content')) : t.SameFile cwd path path' := by
  have he := get?_of_find_file h
  rw [get?_of_find_file h'] at he
  cases he
  exact ⟨l, _, h, h'⟩

theorem sameFile_iff_of_find {t : FileTree} {cwd : Location} {path path' : Path} {l l' : Location}
    {content content' : Content} (h : t.find cwd path = .ok (l, .file content))
    (h' : t.find cwd path' = .ok (l', .file content')) : t.SameFile cwd path path' ↔ l = l' := by
  constructor
  · rintro ⟨m, c, hm, hm'⟩
    rw [h] at hm
    rw [h'] at hm'
    cases hm
    cases hm'
    rfl
  · rintro rfl
    exact sameFile_of_find h h'

/-- Two paths to files lead to the same file later just if they do so now. -/
theorem sameFile_iff_of_grows {t t' : FileTree} (hg : Grows t t') {cwd : Location} {path path' : Path}
    {l l' : Location} {content content' : Content} (h : t.find cwd path = .ok (l, .file content))
    (h' : t.find cwd path' = .ok (l', .file content')) : t'.SameFile cwd path path' ↔ t.SameFile cwd path path' := by
  obtain ⟨_, hlater⟩ := find_file_of_grows hg h
  obtain ⟨_, hlater'⟩ := find_file_of_grows hg h'
  rw [sameFile_iff_of_find hlater hlater', sameFile_iff_of_find h h']

theorem find_eq_of_sameFile {t : FileTree} {cwd : Location} {path path' : Path} {l : Location}
    {content : Content} (h : t.SameFile cwd path path') (hf : t.find cwd path = .ok (l, .file content)) :
    t.find cwd path' = .ok (l, .file content) := by
  obtain ⟨l', c', hl, hl'⟩ := h
  rw [hf] at hl
  cases hl
  exact hl'

theorem SameFile.of_grows {t t' : FileTree} {cwd : Location} {path path' : Path}
    (h : t.SameFile cwd path path') (hg : Grows t t') : t'.SameFile cwd path path' := by
  obtain ⟨l, c, hl, hl'⟩ := h
  obtain ⟨_, hg₁⟩ := find_file_of_grows hg hl
  obtain ⟨_, hg₂⟩ := find_file_of_grows hg hl'
  exact sameFile_of_find hg₁ hg₂

theorem find_of_fileAt?_eq {t t' : FileTree} (hg : Grows t t') {cwd : Location} {path : Path} {l : Location}
    {content : Content} (hf : t.find cwd path = .ok (l, .file content)) (hl : t'.fileAt? l = t.fileAt? l) :
    t'.find cwd path = .ok (l, .file content) := by
  obtain ⟨c, hc⟩ := find_file_of_grows hg hf
  rw [fileAt?_eq_some_iff.2 (get?_of_find_file hc), fileAt?_eq_some_iff.2 (get?_of_find_file hf)] at hl
  cases hl
  exact hc

/-- A file that none of the paths leads to keeps its content. -/
theorem Frame.read_eq {cwd : Location} {t t' : FileTree} {paths : List Path} (h : Frame cwd t t' paths)
    {file : Path} {content : Content} (hr : t.read cwd file = .ok content) :
    t'.read cwd file = .ok content ∨ ∃ p ∈ paths, SameFile t' cwd p file := by
  unfold read at hr ⊢
  cases hf : t.find cwd file with
  | error e => simp [hf, bind, Except.bind] at hr
  | ok found =>
    obtain ⟨l, e⟩ := found
    cases e with
    | directory | link => simp [hf, bind, Except.bind] at hr
    | file c =>
      simp only [hf, bind, Except.bind, Except.ok.injEq] at hr
      subst hr
      obtain ⟨c', hf'⟩ := find_file_of_grows h.grows hf
      by_cases hc : t'.fileAt? l = t.fileAt? l
      · left
        rw [fileAt?_eq_some_iff.2 (get?_of_find_file hf), fileAt?_eq_some_iff.2 (get?_of_find_file hf'),
          Option.some.injEq] at hc
        simp [hf', bind, Except.bind, hc]
      · right
        obtain ⟨p, hp, c'', he⟩ := h.changed l hc
        have heq := (get?_of_find_file he).symm.trans (get?_of_find_file hf')
        cases heq
        exact ⟨p, hp, l, c', he, hf'⟩

end FileTree

end ComponentDocs
