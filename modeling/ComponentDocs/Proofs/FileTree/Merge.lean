import ComponentDocs.Proofs.Path.Canonical
import ComponentDocs.Proofs.FileTree.Descent
/-! When directories can be made. Making a directory with those above it succeeds just where the path leads to a
directory in the end, wherever on the way it had to stop. -/
namespace ComponentDocs.FileTree
open ComponentDocs.Path

theorem isDirectory_of_makeDirectory {t t' : FileTree} {cwd : Location} {p : Path}
    (h : t.makeDirectory cwd p = .ok t') : t'.isDirectory cwd p = true := by
  obtain ⟨l, -, -, hfind, -⟩ := makeDirectory_made h
  exact isDirectory_iff.2 ⟨l, hfind⟩

/-- A walk that does not follow a link at its end stops there, and goes on like any other before. -/
theorem walk_false_cases (t : FileTree) (dir : Location) (pieces : List (List Char)) :
    walk t false dir pieces = walk t true dir pieces ∨
      ∃ l target, walk t false dir pieces = .place (.taken l (.link target)) := by
  fun_induction walk t false dir pieces with
  | case2 _ _ _ hs ih | case3 _ _ _ hs ih =>
    rw [walk, hs]
    exact ih
  | case5 _ _ _ _ hn hs hb hd ih =>
    rw [walk]
    simpa [hs, hn, hb, hd] using ih
  | case6 => exact .inr ⟨_, _, rfl⟩
  | case1 => exact .inl rfl
  | case10 _ _ _ _ _ hs hb hd hl | case11 _ _ _ _ _ hs hb hd hl =>
    left
    rw [walk]
    simp only [hs, hb, hd, hl]
    rfl
  | _ =>
    left
    rw [walk]
    simp_all

theorem follow_false_of_taken {t : FileTree} {links : Nat} {dir l : Location} {pieces : List (List Char)} {e : Entry}
    (h : follow t true links dir pieces = .ok (.taken l e)) :
    ∃ l' e', follow t false links dir pieces = .ok (.taken l' e') := by
  induction links generalizing dir pieces with
  | zero =>
    rcases walk_false_cases t dir pieces with hw | ⟨l', target, hw⟩
    · unfold follow at h ⊢
      rw [hw]
      exact ⟨l, e, h⟩
    · exact ⟨l', _, follow_of_place hw 0⟩
  | succ links ih =>
    rcases walk_false_cases t dir pieces with hw | ⟨l', target, hw⟩
    · rcases follow_eq_ok_iff.1 h with hp | ⟨k, dir', target, rest, hk, hlink, ht, hf⟩
      · exact ⟨l, e, follow_of_place (hw.trans hp) _⟩
      · obtain rfl : links = k := by omega
        obtain ⟨l', e', hf'⟩ := ih hf
        exact ⟨l', e', follow_eq_ok_iff.2 (.inr ⟨_, dir', target, rest, rfl, hw.trans hlink, ht, hf'⟩)⟩
    · exact ⟨l', _, follow_of_place hw _⟩

theorem makeDirectory_of_isDirectory {t : FileTree} {cwd : Location} {p : Path} (h : t.isDirectory cwd p = true) :
    t.makeDirectory cwd p = .error .alreadyExists := by
  obtain ⟨l, hl⟩ := isDirectory_iff.1 h
  obtain ⟨hz, he, hf⟩ := resolve_eq_ok_iff.1 (find_eq_ok_iff.1 hl)
  obtain ⟨l', e', hf'⟩ := follow_false_of_taken hf
  have hr := resolve_eq_ok_iff.2 ⟨hz, he, hf'⟩
  simp [makeDirectory, hr, bind, Except.bind]

theorem isDirectory_parent? {t : FileTree} {cwd : Location} {p parent : Path} (hp : p.parent? = some parent)
    (he : parent.isEmpty = false) (h : t.isDirectory cwd p = true) : t.isDirectory cwd parent = true := by
  obtain ⟨l, hl⟩ := isDirectory_iff.1 h
  obtain ⟨hz, -, hf⟩ := resolve_eq_ok_iff.1 (find_eq_ok_iff.1 hl)
  have hnul : '\x00' ∉ parent.chars := by
    intro hm
    rcases mem_of_parent? hp hm with hm | hm | hm
    · exact hz hm
    · cases hm
    · cases hm
  have hstart := isAbsolute_parent?_eq hp he
  rw [isDirectory_iff]
  rcases parent?_cases hp with rfl | rfl | ⟨more, hmore, hpieces⟩
  · cases he
  · exact ⟨[], rfl⟩
  · rw [hpieces] at hf
    obtain ⟨left, d, hleads⟩ := exists_leads_of_follow_append hmore hf
    refine ⟨d, find_eq_ok_iff.2 (resolve_eq_ok_iff.2 ⟨hnul, he, ?_⟩)⟩
    rw [hstart]
    exact follow_eq_directory_iff.2 ⟨left, hleads⟩

theorem makeParents_eq_ok_iff {cwd : Location} {fuel : Nat} {t : FileTree} {p : Path} (hfuel : p.chars.length < fuel)
    (he : p.isEmpty = false) :
    (makeParents cwd fuel t p).2 = .ok () ↔ (makeParents cwd fuel t p).1.isDirectory cwd p = true := by
  induction fuel generalizing t p with
  | zero => omega
  | succ fuel ih =>
    have hchecked (u : FileTree) (e : FileError) :
        (if u.isDirectory cwd p then Except.ok () else .error e) = .ok () ↔ u.isDirectory cwd p = true := by
      split <;> simp_all
    rw [makeParents, he, if_neg Bool.false_ne_true]
    cases hm : t.makeDirectory cwd p with
    | ok t' => simp [isDirectory_of_makeDirectory hm]
    | error e =>
      cases e with
      | notFound =>
        have hno : t.isDirectory cwd p ≠ true := by
          intro hd
          rw [makeDirectory_of_isDirectory hd] at hm
          cases hm
        dsimp only
        cases hp : p.parent? with
        | none => simp [hno]
        | some parent =>
          dsimp only
          have hlength := length_parent?_lt hp
          cases hr : makeParents cwd fuel t parent with
          | mk t₁ r =>
            cases r with
            | error cause =>
              have hempty : parent.isEmpty = false := by
                by_contra hempty
                rw [Bool.not_eq_false, Path.isEmpty_iff] at hempty
                subst hempty
                cases fuel with
                | zero => omega
                | succ fuel => simp [makeParents, Path.isEmpty] at hr
              have habove := ih (t := t) (by omega) hempty
              rw [hr] at habove
              have hno' : t₁.isDirectory cwd p ≠ true := fun hd =>
                absurd (habove.2 (isDirectory_parent? hp hempty hd)) (by simp)
              simp [hno']
            | ok _ =>
              dsimp only
              cases hm' : t₁.makeDirectory cwd p with
              | ok t' => simp [isDirectory_of_makeDirectory hm']
              | error e => exact hchecked t₁ e
      | _ => exact hchecked t _

/-- Directories are made just where the path leads to a directory then. -/
theorem makeDirectories_eq_ok_iff (t : FileTree) (cwd : Location) {p : Path} (he : p.isEmpty = false) :
    (t.makeDirectories cwd p).2 = .ok () ↔ (t.makeDirectories cwd p).1.isDirectory cwd p = true :=
  makeParents_eq_ok_iff (Nat.lt_succ_self _) he

/-! Work at several places of a tree without links, each of which is a file with the directories above it.
Where none of the places is on the way to another, what is done at one goes as if nothing was done at the
others, and the tree is made up of what was done at each. -/

/-- What a step adds to a tree: directories above a place, and what a file there holds. -/
structure Adds (l : Location) (made : Location → Prop) (content : Option Content) (t t' : FileTree) : Prop where
  plain : Plain t'
  directory : ∀ m, t'.get? m = some .directory ↔ t.get? m = some .directory ∨ made m
  file : ∀ m, t'.fileAt? m = if m = l then content.or (t.fileAt? m) else t.fileAt? m

/-- The same step in two trees: it ends alike and adds the same. -/
structure Parallel {α : Type} (l : Location) (u s : FileTree) (done done' : FileTree × α) : Prop where
  result : done'.2 = done.2
  adds : ∃ made content, (∀ m, made m → m <+: l ∧ m ≠ l) ∧
    Adds l made content u done.1 ∧ Adds l made content s done'.1

/-- The tree `s` has all directories of the tree `u`, and is like it on the way to a place. -/
structure Agree (l : Location) (u s : FileTree) : Prop where
  way : SameOnWay u s l
  end_directory : s.get? l = some .directory ↔ u.get? l = some .directory
  directories : ∀ m, u.get? m = some .directory → s.get? m = some .directory

structure WorkedAt (t : FileTree) (l : Location) (u : FileTree) : Prop where
  plain : Plain u
  kept : ∀ m, t.get? m = some .directory → u.get? m = some .directory
  above : ∀ m, u.get? m = some .directory → t.get? m = some .directory ∨ m <+: l ∧ m ≠ l
  elsewhere : ∀ m, m ≠ l → u.fileAt? m = t.fileAt? m

theorem Agree.rfl (l : Location) (t : FileTree) : Agree l t t := ⟨fun _ _ => Eq.refl _, Iff.rfl, fun _ => id⟩

theorem Adds.rfl {t : FileTree} (ht : Plain t) (l : Location) : Adds l (fun _ => False) none t t :=
  ⟨ht, by simp, by simp⟩

theorem Parallel.rfl {α : Type} {l : Location} {u s : FileTree} (hu : Plain u) (hs : Plain s) (a : α) :
    Parallel l u s (u, a) (s, a) :=
  ⟨Eq.refl _, _, none, by simp, .rfl hu l, .rfl hs l⟩

theorem Parallel.map {α β : Type} {l : Location} {u s : FileTree} {done done' : FileTree × α}
    (h : Parallel l u s done done') (f : α → β) : Parallel l u s (done.1, f done.2) (done'.1, f done'.2) :=
  ⟨congrArg f h.result, h.adds⟩

theorem WorkedAt.rfl {t : FileTree} (ht : Plain t) (l : Location) : WorkedAt t l t :=
  ⟨ht, fun _ => id, fun _ => .inl, fun _ _ => Eq.refl _⟩

theorem WorkedAt.step {t u u' : FileTree} {l : Location} {made : Location → Prop} {content : Option Content}
    (h : WorkedAt t l u) (ha : Adds l made content u u') (hm : ∀ m, made m → m <+: l ∧ m ≠ l) : WorkedAt t l u' := by
  refine ⟨ha.plain, fun m ht => (ha.directory m).2 (.inl (h.kept m ht)), fun m hu => ?_, fun m hne => ?_⟩
  · exact ((ha.directory m).1 hu).elim (h.above m) fun hmade => .inr (hm m hmade)
  · rw [ha.file, if_neg hne, h.elsewhere m hne]

/-- A tree without links is known by its directories and files. -/
theorem Plain.get?_eq {t u : FileTree} (ht : Plain t) (hu : Plain u) {l : Location}
    (hd : t.get? l = some .directory ↔ u.get? l = some .directory) (hf : t.fileAt? l = u.fileAt? l) :
    t.get? l = u.get? l := by
  refine Option.ext fun e => ?_
  cases e with
  | directory => exact hd
  | link target => exact iff_of_false (ht.no_link _ _) (hu.no_link _ _)
  | file content => rw [← fileAt?_eq_some_iff, ← fileAt?_eq_some_iff, hf]

theorem Plain.adds_set {t : FileTree} (ht : Plain t) {dir : Location} {n : List Char}
    (hd : t.get? dir = some .directory) (hn : Fits n) (hnd : t.get? (dir ++ [n]) ≠ some .directory) (content : Content) :
    Adds (dir ++ [n]) (fun _ => False) (some content) t (t.set (dir ++ [n]) (.file content)) := by
  have hne : dir ++ [n] ≠ [] := by simp
  refine ⟨(ht.writtenAt_set hd hn hnd content).plain, fun m => ?_, fun m => ?_⟩
  · by_cases hm : m = dir ++ [n]
    · simp [hm, get?_set_self t hne, hnd]
    · simp [get?_set_of_ne t hm]
  · by_cases hm : m = dir ++ [n]
    · simp [hm, fileAt?, get?_set_self t hne]
    · rw [if_neg hm, fileAt?_congr (get?_set_of_ne t hm _)]

section Step
variable {u s : FileTree} (hu : Plain u) (hs : Plain s) (here : Location) {dir : Location} {n : List Char}
  (hl : AreNames (dir ++ [n])) (h : Agree (dir ++ [n]) u s)
include hu hs hl h

theorem Agree.makeDirectories :
    Parallel (dir ++ [n]) u s (u.makeDirectories here dir.path) (s.makeDirectories here dir.path) := by
  have hway := h.way.mono (List.prefix_append dir [n])
  have hmade := hu.madeBy_makeDirectories here hl.left
  have hmade' := hs.madeBy_makeDirectories here hl.left
  have hfile {t : FileTree} (m : Location) : (t.makeDirectories here dir.path).1.fileAt? m = t.fileAt? m :=
    (makeDirectories_addsDirectories t here dir.path).fileAt?_eq m
  refine ⟨by rw [hmade.result, hmade'.result, making_congr hway], u.Enters dir, none, fun m hm => ?_,
    ⟨(hu.made_makeDirectories here hl.left).plain, hmade.directory, fun m => by simp [hfile]⟩,
    ⟨(hs.made_makeDirectories here hl.left).plain, fun m => ?_, fun m => by simp [hfile]⟩⟩
  · refine ⟨hm.2.1.trans (List.prefix_append dir [n]), ?_⟩
    rintro rfl
    exact absurd hm.2.1.length_le (by simp)
  · rw [hmade'.directory, enters_congr hway]

theorem Agree.write (hd : u.get? dir = some .directory) (content : Content) :
    (∃ e, u.write here (Location.path (dir ++ [n])) content = .error e ∧
      s.write here (Location.path (dir ++ [n])) content = .error e) ∨
    ∃ u' s', u.write here (Location.path (dir ++ [n])) content = .ok u' ∧
      s.write here (Location.path (dir ++ [n])) content = .ok s' ∧
      Adds (dir ++ [n]) (fun _ => False) (some content) u u' ∧
      Adds (dir ++ [n]) (fun _ => False) (some content) s s' := by
  rw [hu.write_below here hd hl, hs.write_below here (h.directories dir hd) hl]
  simp only [h.end_directory]
  by_cases hn : u.get? (dir ++ [n]) = some .directory
  · exact .inl ⟨_, if_pos hn, if_pos hn⟩
  by_cases hz : HasNul [n]
  · exact .inl ⟨.nulInName, by simp [hn, hz], by simp [hn, hz]⟩
  by_cases hb : maxNameBytes < nameBytes n
  · exact .inl ⟨.nameTooLong, by simp [hn, hz, hb], by simp [hn, hz, hb]⟩
  have hfits : Fits n := ⟨hl n (by simp), fun h => hz ⟨n, by simp, h⟩, Nat.not_lt.1 hb⟩
  have hu' := hu.adds_set hd hfits hn content
  have hs' := hs.adds_set (h.directories dir hd) hfits (mt h.end_directory.1 hn) content
  exact .inr ⟨_, _, by simp [hn, hz, hb], by simp [hn, hz, hb], hu', hs'⟩

end Step

variable {ι : Type} {place : ι → Location} {members : List ι}

/-- None of some places is on the way to another, or the same. -/
def Spread (place : ι → Location) (members : List ι) : Prop :=
  ∀ a ∈ members, ∀ b ∈ members, a ≠ b → ¬ place a <+: place b

/-- A tree that has come from another one by work at several places, each of which is shown by a part: the
tree that work at this place alone has left. -/
structure Merges (t : FileTree) (place : ι → Location) (members : List ι) (parts : ι → FileTree)
    (s : FileTree) : Prop where
  plain : Plain s
  directory : ∀ m, s.get? m = some .directory ↔
    t.get? m = some .directory ∨ ∃ a ∈ members, (parts a).get? m = some .directory
  own : ∀ a ∈ members, s.fileAt? (place a) = (parts a).fileAt? (place a)
  elsewhere : ∀ m, (∀ a ∈ members, m ≠ place a) → s.fileAt? m = t.fileAt? m

namespace Merges
variable {t s : FileTree} {parts : ι → FileTree}

theorem start (ht : Plain t) : Merges t place members (fun _ => t) t :=
  ⟨ht, by simp, fun _ _ => rfl, fun _ _ => rfl⟩

theorem congr {parts' : ι → FileTree} (h : Merges t place members parts s) (hp : ∀ a ∈ members, parts a = parts' a) :
    Merges t place members parts' s := by
  refine ⟨h.plain, fun m => (h.directory m).trans (or_congr_right (exists_congr fun a => ?_)),
    fun a ha => ?_, h.elsewhere⟩
  · exact and_congr_right fun ha => by rw [hp a ha]
  · rw [h.own a ha, hp a ha]

theorem get?_eq {s' : FileTree} (h : Merges t place members parts s) (h' : Merges t place members parts s')
    (m : Location) : s.get? m = s'.get? m := by
  refine h.plain.get?_eq h'.plain ((h.directory m).trans (h'.directory m).symm) ?_
  by_cases hm : ∃ a ∈ members, m = place a
  · obtain ⟨a, ha, rfl⟩ := hm
    rw [h.own a ha, h'.own a ha]
  · have hm : ∀ a ∈ members, m ≠ place a := fun a ha he => hm ⟨a, ha, he⟩
    rw [h.elsewhere m hm, h'.elsewhere m hm]

/-- On the way to one of the places the tree is like the part for it. -/
theorem agree (h : Merges t place members parts s) (hparts : ∀ a ∈ members, WorkedAt t (place a) (parts a))
    (hspread : Spread place members) {a : ι} (ha : a ∈ members) : Agree (place a) (parts a) s := by
  refine ⟨fun front hf => ?_, ⟨fun hd => ?_, fun hd => (h.directory _).2 (.inr ⟨a, ha, hd⟩)⟩,
    fun m hd => (h.directory m).2 (.inr ⟨a, ha, hd⟩)⟩
  · by_cases hown : front = place a
    · rw [hown, h.own a ha]
    · rw [(hparts a ha).elsewhere front hown, h.elsewhere front fun b hb he => ?_]
      by_cases hab : b = a
      · exact hown (hab ▸ he)
      · exact hspread b hb a ha hab (he ▸ hf)
  · rcases (h.directory _).1 hd with ht | ⟨b, hb, hd⟩
    · exact (hparts a ha).kept _ ht
    · by_cases hab : a = b
      · rwa [hab] at hd ⊢
      · rcases (hparts b hb).above _ hd with ht | ⟨hp, -⟩
        · exact (hparts a ha).kept _ ht
        · exact absurd hp (hspread a ha b hb hab)

theorem step [DecidableEq ι] (h : Merges t place members parts s) (hspread : Spread place members) {a : ι}
    (ha : a ∈ members) {made : Location → Prop} {content : Option Content} {u' s' : FileTree}
    (hu : Adds (place a) made content (parts a) u') (hs : Adds (place a) made content s s') :
    Merges t place members (Function.update parts a u') s' := by
  refine ⟨hs.plain, fun m => ?_, fun b hb => ?_, fun m hm => ?_⟩
  · rw [hs.directory, h.directory]
    constructor
    · rintro ((ht | ⟨b, hb, hd⟩) | hmade)
      · exact .inl ht
      · refine .inr ⟨b, hb, ?_⟩
        by_cases hab : b = a
        · subst hab
          rw [Function.update_self]
          exact (hu.directory m).2 (.inl hd)
        · rwa [Function.update_of_ne hab]
      · exact .inr ⟨a, ha, by rw [Function.update_self]; exact (hu.directory m).2 (.inr hmade)⟩
    · rintro (ht | ⟨b, hb, hd⟩)
      · exact .inl (.inl ht)
      · by_cases hab : b = a
        · subst hab
          rw [Function.update_self] at hd
          exact ((hu.directory m).1 hd).imp (fun hd => .inr ⟨b, hb, hd⟩) id
        · rw [Function.update_of_ne hab] at hd
          exact .inl (.inr ⟨b, hb, hd⟩)
  · by_cases hab : b = a
    · subst hab
      rw [Function.update_self, hs.file, hu.file, h.own b hb]
    · have hne : place b ≠ place a := fun he => hspread b hb a ha hab (he ▸ List.prefix_rfl)
      rw [Function.update_of_ne hab, hs.file, if_neg hne, h.own b hb]
  · rw [hs.file, if_neg (hm a ha), h.elsewhere m hm]

end Merges

end ComponentDocs.FileTree
