import ComponentDocs.Proofs.FileTree.Moved
import ComponentDocs.Proofs.Project.Discovery
/-! Writing where nothing new comes of it. A path is settled in a tree if writing to it makes no file and no directory
that is not there yet. What is written to settled paths goes into files that are there, or nowhere. -/
namespace ComponentDocs

namespace Path

/-- The paths above a path that are tried when its directory is made, with the path itself. -/
def upward : Nat → Path → List Path
  | 0, _ => []
  | fuel + 1, p =>
    p :: match p.parent? with
      | none => []
      | some parent => upward fuel parent

/-- The paths that are followed when a file is written. -/
def ways (p : Path) : List Path :=
  p :: match p.parent? with
    | none => []
    | some parent => upward (parent.chars.length + 1) parent

end Path

namespace FileTree

variable {t u : FileTree} {here : Location}

def rewrite (t : FileTree) (l? : Option Location) (content : Content) : FileTree :=
  match l? with
  | some l => t.set l (.file content)
  | none => t

theorem makeDirectory_new {t' : FileTree} {p : Path} (h : t.makeDirectory here p = .ok t') :
    ∃ l, t.get? l = none ∧ t'.get? l ≠ none := by
  obtain ⟨l, hn, hd, -⟩ := makeDirectory_made h
  exact ⟨l, hn, by simp [hd]⟩

theorem Grows.get?_ne_none {t t' : FileTree} (h : Grows t t') {l : Location} (hl : t.get? l ≠ none) :
    t'.get? l ≠ none := by
  obtain ⟨e, he⟩ := Option.ne_none_iff_exists'.1 hl
  obtain ⟨e', he', -⟩ := h l e he
  simp [he']

/-- Either all directories were there, or one of them is new. -/
theorem makeParents_eq_or_new (here : Location) (fuel : Nat) (t : FileTree) (p : Path) :
    (makeParents here fuel t p).1 = t ∨ ∃ l, t.get? l = none ∧ (makeParents here fuel t p).1.get? l ≠ none := by
  induction fuel generalizing t p with
  | zero => exact .inl rfl
  | succ fuel ih =>
    unfold makeParents
    split
    · exact .inl rfl
    · split
      · next hm => exact .inr (makeDirectory_new hm)
      · split
        · exact .inl rfl
        · next parent _ =>
          have hup := ih t parent
          split
          · next hr => rwa [hr] at hup
          · next t₁ hr =>
            rw [hr] at hup
            split
            · next hm =>
              rcases hup with rfl | ⟨l, hl, hnew⟩
              · exact .inr (makeDirectory_new hm)
              · exact .inr ⟨l, hl, (makeDirectory_eq_ok hm).grows.get?_ne_none hnew⟩
            · exact hup
      · exact .inl rfl

theorem find_congr {p : Path} (h : u.resolve here p true = t.resolve here p true) : u.find here p = t.find here p := by
  rw [find, find, h]

theorem isDirectory_congr {p : Path} (h : u.resolve here p true = t.resolve here p true) :
    u.isDirectory here p = t.isDirectory here p := by
  rw [isDirectory, isDirectory, find_congr h]

theorem makeDirectory_error_congr {p : Path} (h : u.resolve here p false = t.resolve here p false) {e : FileError}
    (he : t.makeDirectory here p = .error e) : u.makeDirectory here p = .error e := by
  unfold makeDirectory at he ⊢
  rw [h]
  cases hr : t.resolve here p false with
  | error e' => simpa [hr, bind, Except.bind] using he
  | ok place => cases place <;> simp_all [bind, Except.bind]

/-- Where making a directory changes nothing, it ends alike in a tree in which the same paths lead to the same places. -/
theorem makeParents_congr {fuel : Nat} {p : Path} (hsame : (makeParents here fuel t p).1 = t)
    (hways : ∀ q ∈ p.upward fuel, ∀ fl, u.resolve here q fl = t.resolve here q fl) :
    makeParents here fuel u p = (u, (makeParents here fuel t p).2) := by
  induction fuel generalizing p with
  | zero => rfl
  | succ fuel ih =>
    have hself := hways p List.mem_cons_self
    unfold makeParents at hsame ⊢
    split
    · rfl
    · next he =>
      rw [if_neg he] at hsame
      rcases hm : t.makeDirectory here p with e | t'
      swap
      · rw [hm] at hsame
        obtain ⟨l, hl, hnew⟩ := makeDirectory_new hm
        exact absurd hl (hsame ▸ hnew)
      rw [makeDirectory_error_congr (hself false) hm]
      rw [hm] at hsame
      cases e with
      | notFound =>
        dsimp only at hsame ⊢
        cases hp : p.parent? with
        | none => rfl
        | some parent =>
          have habove : ∀ q ∈ parent.upward fuel, ∀ fl, u.resolve here q fl = t.resolve here q fl := by
            intro q hq
            apply hways
            simp [Path.upward, hp, hq]
          rw [hp] at hsame
          dsimp only at hsame ⊢
          rcases hr : makeParents here fuel t parent with ⟨t₁, r⟩
          rw [hr] at hsame
          have hup := makeParents_eq_or_new here fuel t parent
          rw [hr] at hup
          cases r with
          | error e =>
            obtain rfl : t₁ = t := hsame
            rw [ih (by rw [hr]) habove, hr]
          | ok _ =>
            dsimp only at hsame hup ⊢
            rcases hm' : t₁.makeDirectory here p with e | t₂
            · obtain rfl : t₁ = t := by rwa [hm'] at hsame
              rw [ih (by rw [hr]) habove, hr]
              simp only [makeDirectory_error_congr (hself false) hm', isDirectory_congr (hself true)]
            · rw [hm'] at hsame
              obtain rfl : t₂ = t := hsame
              have hgrows := (makeDirectory_eq_ok hm').grows
              rcases hup with rfl | ⟨l, hl, hnew⟩
              · obtain ⟨l, hl, hnew⟩ := makeDirectory_new hm'
                exact absurd hl hnew
              · exact absurd hl (hgrows.get?_ne_none hnew)
      | _ => simp only [isDirectory_congr (hself true)]

theorem write_outline (t : FileTree) (here : Location) (p : Path) (text : String) :
    t.outline.write here p (.text "") = (t.write here p (.text text)).map outline := by
  unfold write
  rw [resolve_outline]
  cases t.resolve here p true with
  | error e => rfl
  | ok place =>
    cases place with
    | taken l e =>
      cases e with
      | file content =>
        simp only [Except.map, Place.outline, Entry.outline, bind, Except.bind, outline_set]
      | directory | link target => rfl
    | free dir name slash =>
      simp only [Except.map, Place.outline, bind, Except.bind]
      cases slash
      · simp [outline_set, Entry.outline]
      · rfl

theorem exists_eq_file_of_outline {e : Entry} (h : e.outline = .file (.text "")) : ∃ content, e = .file content := by
  cases e with
  | file content => exact ⟨content, rfl⟩
  | directory | link target => cases h

theorem get?_eq_none_iff_of_outline (h : u.outline = t.outline) (l : Location) : u.get? l = none ↔ t.get? l = none := by
  rw [← Option.map_eq_none_iff, ← get?_outline, h, get?_outline, Option.map_eq_none_iff]

/-- A path leads to the same in two trees of the same outline, unless it leads to a file that is not the same. -/
theorem find_of_outline {file : Path} (hout : u.outline = t.outline)
    (h : ∀ l content, t.find here file = .ok (l, .file content) → u.get? l = t.get? l) :
    u.find here file = t.find here file := by
  have hfind : (u.find here file).map (fun x => (x.1, x.2.outline)) = (t.find here file).map fun x => (x.1, x.2.outline) := by
    rw [← find_outline, hout, find_outline]
  rcases ht : t.find here file with e | ⟨l, e⟩
  · rw [ht] at hfind
    rcases hu : u.find here file with e' | x
    · rw [hu] at hfind
      exact hfind
    · rw [hu] at hfind
      cases hfind
  · rw [ht] at hfind
    rcases hu : u.find here file with e' | ⟨m, e'⟩
    · rw [hu] at hfind
      cases hfind
    · rw [hu] at hfind
      obtain ⟨rfl, he⟩ := Prod.mk.inj (Except.ok.inj hfind)
      dsimp only at he
      cases e with
      | file content =>
        obtain ⟨content', rfl⟩ := exists_eq_file_of_outline he
        have hget := h m content ht
        rw [get?_of_find_file hu, get?_of_find_file ht] at hget
        cases hget
        rfl
      | directory | link target =>
        cases e' <;> simp_all [Entry.outline]

theorem rewrite_outline (hn : (t.entries.map Prod.fst).Nodup) {l? : Option Location}
    (hl : ∀ l ∈ l?, ∃ old, t.get? l = some (.file old)) (content : Content) :
    (t.rewrite l? content).outline = t.outline := by
  cases l? with
  | none => rfl
  | some l =>
    obtain ⟨old, hold⟩ := hl l rfl
    exact outline_set_file hn hold content

theorem get?_rewrite {l? : Option Location} (hl : ∀ l ∈ l?, ∃ old, t.get? l = some (.file old)) (content : Content)
    (m : Location) : (t.rewrite l? content).get? m = if l? = some m then some (.file content) else t.get? m := by
  cases l? with
  | none => simp [rewrite]
  | some l =>
    obtain ⟨old, hold⟩ := hl l rfl
    by_cases hm : l = m
    · subst hm
      simp [rewrite, get?_set_self t (ne_root_of_get?_file hold)]
    · simp [rewrite, hm, get?_set_of_ne t (Ne.symm hm)]

end FileTree

namespace Project
open FileTree

variable {t u : FileTree} {here : Location} {w : Path}

theorem makeParent_outline (here : Location) (t : FileTree) (w : Path) :
    makeParent here t.outline w = ((makeParent here t w).1.outline, (makeParent here t w).2) := by
  unfold makeParent
  cases w.parent? with
  | none => rfl
  | some parent =>
    dsimp only
    split
    · rfl
    · rw [makeDirectories, makeDirectories, makeParents_outline]
      rcases makeParents here _ t parent with ⟨t', e | _⟩ <;> rfl

theorem makeParent_eq_or_new (here : Location) (t : FileTree) (w : Path) :
    (makeParent here t w).1 = t ∨ ∃ l, t.get? l = none ∧ (makeParent here t w).1.get? l ≠ none := by
  unfold makeParent
  cases w.parent? with
  | none => exact .inl rfl
  | some parent =>
    dsimp only
    split
    · exact .inl rfl
    · have hmade := makeParents_eq_or_new here (parent.chars.length + 1) t parent
      unfold makeDirectories
      rcases hr : makeParents here (parent.chars.length + 1) t parent with ⟨t', e | _⟩
      · rwa [hr] at hmade
      · rwa [hr] at hmade

theorem makeParent_congr (hsame : (makeParent here t w).1 = t)
    (hways : ∀ q ∈ w.ways, ∀ fl, u.resolve here q fl = t.resolve here q fl) :
    makeParent here u w = (u, (makeParent here t w).2) := by
  unfold makeParent at hsame ⊢
  cases hp : w.parent? with
  | none => rfl
  | some parent =>
    rw [hp] at hsame
    dsimp only at hsame ⊢
    split
    · rfl
    · next he =>
      rw [if_neg he] at hsame
      have hmade : (makeParents here (parent.chars.length + 1) t parent).1 = t := by
        unfold makeDirectories at hsame
        rcases hr : makeParents here (parent.chars.length + 1) t parent with ⟨t', e | _⟩
        · rwa [hr] at hsame
        · rwa [hr] at hsame
      have hmade' := makeParents_congr hmade fun q hq => hways q (by simp [Path.ways, hp, hq])
      unfold makeDirectories
      rw [hmade']
      rcases makeParents here (parent.chars.length + 1) t parent with ⟨t', e | _⟩ <;> rfl

/-- Writing to a path makes no file and no directory that is not there. -/
def Settled (here : Location) (t : FileTree) (w : Path) : Prop :=
  ∀ text l, t.get? l = none → (writeFile here t text w).1.get? l = none

/-- The place of the file that a path is written to, if one is there. -/
def landing? (here : Location) (t : FileTree) (w : Path) : Option Location :=
  match makeParent here t w with
  | (_, .error _) => none
  | (t, .ok ()) =>
    match t.resolve here w true with
    | .ok (.taken l (.file _)) => some l
    | _ => none

theorem writeFile_grows_makeParent (here : Location) (t : FileTree) (text : String) (w : Path) :
    Grows (makeParent here t w).1 (writeFile here t text w).1 := by
  unfold writeFile
  rcases makeParent here t w with ⟨t', e | _⟩
  · exact .rfl t'
  · dsimp only
    cases hw : t'.write here w (.text text) with
    | error e => exact .rfl t'
    | ok t'' =>
      obtain ⟨_, hg, -⟩ := FileTree.write_eq_ok hw
      exact hg

theorem writeFile_grows (here : Location) (t : FileTree) (text : String) (w : Path) :
    Grows t (writeFile here t text w).1 :=
  (makeParent_addsDirectories here t w).grows.trans (writeFile_grows_makeParent here t text w)

theorem writeFile_outline (here : Location) (t : FileTree) (text : String) (w : Path) :
    (writeFile here t.outline "" w).1 = (writeFile here t text w).1.outline := by
  unfold writeFile
  rw [makeParent_outline]
  rcases makeParent here t w with ⟨t', e | _⟩
  · rfl
  · dsimp only
    rw [write_outline t' here w text]
    cases t'.write here w (.text text) <;> rfl

theorem settled_iff_outline : Settled here t w ↔
    ∀ l, t.outline.get? l = none → (writeFile here t.outline "" w).1.get? l = none := by
  have hnone (text : String) (l : Location) : (t.get? l = none → (writeFile here t text w).1.get? l = none) ↔
      (t.outline.get? l = none → (writeFile here t.outline "" w).1.get? l = none) := by
    rw [writeFile_outline here t text w, get?_outline, get?_outline, Option.map_eq_none_iff, Option.map_eq_none_iff]
  unfold Settled
  simp only [hnone, forall_const]

theorem settled_of_writeFile (text : String) (h : ∀ l, t.get? l = none → (writeFile here t text w).1.get? l = none) :
    Settled here t w := by
  rw [settled_iff_outline]
  intro l hl
  rw [writeFile_outline here t text w, get?_outline, Option.map_eq_none_iff]
  apply h
  rwa [get?_outline, Option.map_eq_none_iff] at hl

theorem Settled.of_outline (h : Settled here t w) (hu : u.outline = t.outline) : Settled here u w := by
  rw [settled_iff_outline] at h ⊢
  rwa [hu]

theorem landing?_outline (here : Location) (t : FileTree) (w : Path) :
    landing? here t.outline w = landing? here t w := by
  unfold landing?
  rw [makeParent_outline]
  rcases makeParent here t w with ⟨t', e | _⟩
  · rfl
  · dsimp only
    rw [resolve_outline]
    rcases t'.resolve here w true with e | ⟨l, _ | _ | _⟩ | ⟨dir, n, slash⟩ <;> rfl

theorem landing?_of_outline (hu : u.outline = t.outline) : landing? here u w = landing? here t w := by
  rw [← landing?_outline, hu, landing?_outline]

section Unmoved
variable (hparent : (makeParent here t w).1 = t)
include hparent

theorem find_of_landing? {l : Location} (hl : landing? here t w = some l) :
    ∃ old, t.find here w = .ok (l, .file old) := by
  unfold landing? at hl
  rcases hm : makeParent here t w with ⟨t', e | _⟩
  · simp [hm] at hl
  · rw [hm] at hl hparent
    obtain rfl : t' = t := hparent
    dsimp only at hl
    split at hl
    · next old hr =>
      cases hl
      exact ⟨old, find_eq_ok_iff.2 hr⟩
    · cases hl

theorem get?_of_landing? {l : Location} (hl : l ∈ landing? here t w) : ∃ old, t.get? l = some (.file old) := by
  obtain ⟨old, hold⟩ := find_of_landing? hparent hl
  exact ⟨old, get?_of_find_file hold⟩

theorem writeFile_eq_rewrite (hfree : (makeParent here t w).2 = .ok () →
      ∀ dir n, t.resolve here w true ≠ .ok (.free dir n false)) (text : String) :
    (writeFile here t text w).1 = t.rewrite (landing? here t w) (.text text) := by
  unfold writeFile landing?
  rcases hm : makeParent here t w with ⟨t', e | _⟩
  · rw [hm] at hparent
    exact hparent
  · rw [hm] at hparent hfree
    obtain rfl : t' = t := hparent
    dsimp only
    unfold FileTree.write
    rcases hr : t'.resolve here w true with e | ⟨l, _ | _ | _⟩ | ⟨dir, n, _ | _⟩
    · rfl
    · rfl
    · rfl
    · rfl
    · exact absurd hr (hfree rfl dir n)
    · rfl

end Unmoved

/-- A path is settled if its directory need not be made and it does not lead to where a file could be new. -/
theorem settled_iff : Settled here t w ↔ (makeParent here t w).1 = t ∧
    ((makeParent here t w).2 = .ok () → ∀ dir n, t.resolve here w true ≠ .ok (.free dir n false)) := by
  constructor
  · intro h
    have hparent : (makeParent here t w).1 = t := by
      rcases makeParent_eq_or_new here t w with hsame | ⟨l, hl, hnew⟩
      · exact hsame
      · exact absurd (h "" l hl) ((writeFile_grows_makeParent here t "" w).get?_ne_none hnew)
    refine ⟨hparent, fun hok dir n hr => ?_⟩
    obtain ⟨_, _, hw⟩ := resolve_eq_ok hr
    have hnew := h "" (dir ++ [n]) (walk_free hw)
    have hm : makeParent here t w = (t, .ok ()) := Prod.ext hparent hok
    simp [writeFile, hm, FileTree.write, hr, bind, Except.bind,
      get?_set_self t (show dir ++ [n] ≠ [] by simp)] at hnew
  · rintro ⟨hparent, hfree⟩ text l hl
    rw [writeFile_eq_rewrite hparent hfree, get?_rewrite fun m hm => get?_of_landing? hparent hm]
    split
    · next hland =>
      obtain ⟨old, hold⟩ := get?_of_landing? hparent hland
      rw [hold] at hl
      cases hl
    · exact hl

namespace Settled
variable (h : Settled here t w)
include h

theorem find_of_landing? {l : Location} (hl : landing? here t w = some l) :
    ∃ old, t.find here w = .ok (l, .file old) :=
  Project.find_of_landing? (settled_iff.1 h).1 hl

theorem get?_landing {l : Location} (hl : l ∈ landing? here t w) : ∃ old, t.get? l = some (.file old) :=
  get?_of_landing? (settled_iff.1 h).1 hl

/-- What is written to a settled path goes into the file that is there, or nowhere. -/
theorem get?_writeFile (text : String) (m : Location) : (writeFile here t text w).1.get? m =
    if landing? here t w = some m then some (.file (.text text)) else t.get? m := by
  obtain ⟨hparent, hfree⟩ := settled_iff.1 h
  rw [writeFile_eq_rewrite hparent hfree]
  exact get?_rewrite (fun l hl => h.get?_landing hl) _ m

theorem outline_writeFile (hn : (t.entries.map Prod.fst).Nodup) (text : String) :
    (writeFile here t text w).1.outline = t.outline := by
  obtain ⟨hparent, hfree⟩ := settled_iff.1 h
  rw [writeFile_eq_rewrite hparent hfree]
  exact rewrite_outline hn (fun l hl => h.get?_landing hl) _

/-- A path is settled in another tree, and goes to the same file with the same content, if the paths that are followed
lead to the same places there. -/
theorem of_ways (hways : ∀ q ∈ w.ways, ∀ fl, u.resolve here q fl = t.resolve here q fl) :
    Settled here u w ∧ landing? here u w = landing? here t w ∧
      ∀ l, landing? here t w = some l → u.get? l = t.get? l := by
  obtain ⟨hparent, hfree⟩ := settled_iff.1 h
  have hmade := makeParent_congr hparent hways
  have hself := hways w List.mem_cons_self true
  refine ⟨settled_iff.2 ⟨by rw [hmade], ?_⟩, ?_, fun l hl => ?_⟩
  · rwa [hmade, hself]
  · unfold landing?
    rw [hmade]
    rcases hm : makeParent here t w with ⟨t', e | _⟩
    · rfl
    · rw [hm] at hparent
      obtain rfl : t' = t := hparent
      dsimp only
      rw [hself]
  · obtain ⟨old, hold⟩ := h.find_of_landing? hl
    rw [get?_of_find_file hold, get?_of_find_file ((find_congr hself).trans hold)]

end Settled

/-- Writes a text to a path, whatever comes of it. -/
def inscribe (here : Location) (t : FileTree) (x : Path × String) : FileTree := (writeFile here t x.2 x.1).1

/-- The file that is written last at a place. -/
def lastFile? (here : Location) (t : FileTree) (xs : List (Path × String)) (m : Location) : Option Entry :=
  (xs.reverse.find? fun x => landing? here t x.1 == some m).map fun x => .file (.text x.2)

@[simp] theorem lastFile?_nil (m : Location) : lastFile? here t [] m = none := by simp [lastFile?]

theorem lastFile?_concat (xs : List (Path × String)) (x : Path × String) (m : Location) :
    lastFile? here t (xs ++ [x]) m =
      if landing? here t x.1 = some m then some (.file (.text x.2)) else lastFile? here t xs m := by
  unfold lastFile?
  rw [List.reverse_append, List.reverse_singleton, List.singleton_append, List.find?_cons]
  by_cases hx : landing? here t x.1 = some m
  · simp [hx]
  · have hne : (landing? here t x.1 == some m) = false := by simpa using hx
    simp [hx, hne]

theorem inscribe_all_grows (here : Location) (xs : List (Path × String)) (t : FileTree) :
    Grows t (xs.foldl (inscribe here) t) := by
  induction xs generalizing t with
  | nil => exact .rfl t
  | cons x rest ih => exact (writeFile_grows here t x.2 x.1).trans (ih _)

/-- Writing to settled paths changes the files they go to, and nothing else. The last text stays. -/
theorem inscribe_all (hn : (t.entries.map Prod.fst).Nodup) {xs : List (Path × String)}
    (hs : ∀ x ∈ xs, Settled here t x.1) : (xs.foldl (inscribe here) t).outline = t.outline ∧
      ∀ m, (xs.foldl (inscribe here) t).get? m = (lastFile? here t xs m).or (t.get? m) := by
  induction xs using List.reverseRecOn with
  | nil => exact ⟨rfl, fun _ => rfl⟩
  | append_singleton xs x ih =>
    obtain ⟨hout, hget⟩ := ih fun y hy => hs y (List.mem_append_left _ hy)
    have hx : Settled here (xs.foldl (inscribe here) t) x.1 := (hs x (by simp)).of_outline hout
    have hn' : ((xs.foldl (inscribe here) t).entries.map Prod.fst).Nodup := by
      rwa [← keys_outline, hout, keys_outline]
    rw [List.foldl_append, List.foldl_cons, List.foldl_nil]
    refine ⟨(hx.outline_writeFile hn' x.2).trans hout, fun m => ?_⟩
    rw [inscribe, hx.get?_writeFile, landing?_of_outline hout, lastFile?_concat, hget]
    split <;> rfl

/-- If nothing is new in the end, all paths were settled. -/
theorem settled_of_inscribe_all (hn : (t.entries.map Prod.fst).Nodup) {xs : List (Path × String)}
    (h : ∀ l, t.get? l = none → (xs.foldl (inscribe here) t).get? l = none) : ∀ x ∈ xs, Settled here t x.1 := by
  induction xs generalizing t with
  | nil => simp
  | cons x rest ih =>
    have hgrows := inscribe_all_grows here rest (inscribe here t x)
    have hx : Settled here t x.1 := by
      apply settled_of_writeFile x.2
      intro l hl
      by_contra hnew
      exact hgrows.get?_ne_none hnew (h l hl)
    have hout := hx.outline_writeFile hn x.2
    have hn' : ((inscribe here t x).entries.map Prod.fst).Nodup := by rwa [inscribe, ← keys_outline, hout, keys_outline]
    have hrest := ih hn' fun l hl => h l ((get?_eq_none_iff_of_outline hout l).1 hl)
    intro y hy
    rcases List.mem_cons.1 hy with rfl | hy
    · exact hx
    · exact (hrest y hy).of_outline hout.symm

end Project

end ComponentDocs
