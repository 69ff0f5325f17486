import ComponentDocs.Proofs.FileTree.Plain
import ComponentDocs.Proofs.Path.Join
/-! Following a path piece by piece: what a longer path leads to, from the directory that a part of it
leads to. -/
namespace ComponentDocs.FileTree
open ComponentDocs.Path

/-- Where a walk stops that goes on with more pieces. -/
def Stop.onward (t : FileTree) (fl : Bool) (more : List (List Char)) : Stop → Stop
  | .place (.taken l .directory) => walk t fl l more
  | .place (.taken _ _) => .failed .notDirectory
  | .place (.free dir name _) => if more.all List.isEmpty then .place (.free dir name true) else .failed .notFound
  | .link dir target rest => .link dir target (rest ++ more)
  | .failed e => .failed e

theorem walk_append (t : FileTree) (fl : Bool) (dir : Location) (ps : List (List Char)) {more : List (List Char)}
    (hm : more ≠ []) : walk t fl dir (ps ++ more) = (walk t true dir ps).onward t fl more := by
  have hne (rest : List (List Char)) : (rest ++ more).isEmpty = false := by simp [hm]
  fun_induction walk t true dir ps with
  | case1 => rfl
  | case2 _ _ _ hs ih | case3 _ _ _ hs ih =>
    rw [List.cons_append, walk, hs]
    exact ih
  | case5 _ _ _ _ _ hs hb hd ih =>
    rw [List.cons_append, walk]
    simpa [hs, hb, hd] using ih
  | case6 _ _ _ _ _ _ _ _ _ hl => simp at hl
  | case4 _ _ _ _ _ hs hb =>
    rw [List.cons_append, walk]
    simp [hs, hb, Stop.onward]
  | case7 _ _ _ _ _ hs hb _ hd | case8 _ _ _ _ _ hs hb _ hd | case9 _ _ _ _ _ hs hb _ hd =>
    rw [List.cons_append, walk]
    simp [hs, hb, hd, hne, Stop.onward]
  | case10 _ _ _ _ _ hs hb hd hl | case11 _ _ _ _ _ hs hb hd hl =>
    rw [List.cons_append, walk]
    simp only [hs, hb, hd, hne, hl, Stop.onward, List.all_append]
    simp

theorem Stop.eq_of_onward_taken {t : FileTree} {fl : Bool} {more : List (List Char)} {s : Stop} {l : Location}
    {e : Entry} (h : s.onward t fl more = .place (.taken l e)) : ∃ d, s = .place (.taken d .directory) := by
  unfold Stop.onward at h
  split at h
  · exact ⟨_, rfl⟩
  · cases h
  · split at h <;> cases h
  · cases h
  · cases h

theorem Stop.eq_of_onward_link {t : FileTree} {fl : Bool} {more rest' : List (List Char)} {s : Stop} {d : Location}
    {target : Path} (h : s.onward t fl more = .link d target rest') :
    (∃ d, s = .place (.taken d .directory)) ∨ ∃ rest, s = .link d target rest ∧ rest' = rest ++ more := by
  unfold Stop.onward at h
  split at h
  · exact .inl ⟨_, rfl⟩
  · cases h
  · split at h <;> cases h
  · cases h
    exact .inr ⟨_, rfl, rfl⟩
  · cases h

/-- A path leads to its end at once, or by the link on which it stops. -/
theorem follow_eq_ok_iff {t : FileTree} {fl : Bool} {links : Nat} {dir : Location} {ps : List (List Char)} {p : Place} :
    follow t fl links dir ps = .ok p ↔ walk t fl dir ps = .place p ∨
      ∃ k dir' target rest, links = k + 1 ∧ walk t fl dir ps = .link dir' target rest ∧ target.isEmpty = false ∧
        follow t fl k (if target.isAbsolute then [] else dir') (pieces target.chars ++ rest) = .ok p := by
  conv_lhs => unfold follow
  cases hw : walk t fl dir ps with
  | place q => simp
  | failed e => simp
  | link dir' target rest =>
    cases links with
    | zero => simp
    | succ k => cases ht : target.isEmpty <;> simp [ht]

/-- The pieces of a path lead from one directory to another. Of `links` links that may be followed
`left` are left. -/
inductive Leads (t : FileTree) : (links : Nat) → Location → List (List Char) → (left : Nat) → Location → Prop
  | straight {links : Nat} {dir l : Location} {ps : List (List Char)}
      (h : walk t true dir ps = .place (.taken l .directory)) : Leads t links dir ps links l
  | link {links left : Nat} {dir dir' l : Location} {target : Path} {ps rest : List (List Char)}
      (h : walk t true dir ps = .link dir' target rest) (ht : target.isEmpty = false)
      (hl : Leads t links (if target.isAbsolute then [] else dir') (pieces target.chars ++ rest) left l) :
      Leads t (links + 1) dir ps left l

/-- A longer path leads on from the directory that its first pieces lead to. -/
theorem Leads.follow_append {t : FileTree} {links left : Nat} {dir l : Location} {ps more : List (List Char)}
    (h : Leads t links dir ps left l) (hm : more ≠ []) {fl : Bool} {p : Place} :
    follow t fl links dir (ps ++ more) = .ok p ↔ follow t fl left l more = .ok p := by
  induction h with
  | straight h =>
    rw [follow_eq_ok_iff, walk_append t fl _ _ hm, h]
    exact follow_eq_ok_iff.symm
  | link h ht _ ih =>
    rw [follow_eq_ok_iff, walk_append t fl _ _ hm, h, ← ih]
    simp [Stop.onward, ht]

/-- If a longer path leads anywhere, its first pieces lead to a directory. -/
theorem exists_leads_of_follow_append {t : FileTree} {fl : Bool} {links : Nat} {dir l : Location} {e : Entry}
    {ps more : List (List Char)} (hm : more ≠ []) (h : follow t fl links dir (ps ++ more) = .ok (.taken l e)) :
    ∃ left d, Leads t links dir ps left d := by
  induction links generalizing dir ps with
  | zero =>
    rcases follow_eq_ok_iff.1 h with hw | ⟨k, _, _, _, hk, -⟩
    · rw [walk_append t fl _ _ hm] at hw
      obtain ⟨d, hs⟩ := Stop.eq_of_onward_taken hw
      exact ⟨_, d, .straight hs⟩
    · cases hk
  | succ links ih =>
    rcases follow_eq_ok_iff.1 h with hw | ⟨k, dir', target, rest', hk, hw, ht, hf⟩
    · rw [walk_append t fl _ _ hm] at hw
      obtain ⟨d, hs⟩ := Stop.eq_of_onward_taken hw
      exact ⟨_, d, .straight hs⟩
    · obtain rfl : links = k := by omega
      rw [walk_append t fl _ _ hm] at hw
      rcases Stop.eq_of_onward_link hw with ⟨d, hs⟩ | ⟨rest, hs, rfl⟩
      · exact ⟨_, d, .straight hs⟩
      · rw [← List.append_assoc] at hf
        obtain ⟨left, d, hl⟩ := ih hf
        exact ⟨left, d, .link hs ht hl⟩

theorem follow_eq_directory_iff {t : FileTree} {links : Nat} {dir l : Location} {ps : List (List Char)} :
    follow t true links dir ps = .ok (.taken l .directory) ↔ ∃ left, Leads t links dir ps left l := by
  constructor
  · intro h
    induction links generalizing dir ps with
    | zero =>
      rcases follow_eq_ok_iff.1 h with hw | ⟨k, _, _, _, hk, -⟩
      · exact ⟨_, .straight hw⟩
      · cases hk
    | succ links ih =>
      rcases follow_eq_ok_iff.1 h with hw | ⟨k, dir', target, rest, hk, hw, ht, hf⟩
      · exact ⟨_, .straight hw⟩
      · obtain rfl : links = k := by omega
        obtain ⟨left, hl⟩ := ih hf
        exact ⟨left, .link hw ht hl⟩
  · rintro ⟨left, h⟩
    induction h with
    | straight h => exact follow_eq_ok_iff.2 (.inl h)
    | link h ht _ ih => exact follow_eq_ok_iff.2 (.inr ⟨_, _, _, _, rfl, h, ht, ih⟩)

theorem resolve_eq_ok_iff {t : FileTree} {here : Location} {p : Path} {fl : Bool} {place : Place} :
    t.resolve here p fl = .ok place ↔ '\x00' ∉ p.chars ∧ p.isEmpty = false ∧
      follow t fl maxLinks (if p.isAbsolute then [] else here) (pieces p.chars) = .ok place := by
  unfold resolve
  by_cases hz : '\x00' ∈ p.chars <;> cases he : p.isEmpty <;> simp [hz]

theorem follow_idle {t : FileTree} {links : Nat} {dir d : Location} :
    follow t true links dir [[]] = .ok (.taken d .directory) ↔ dir = d := by
  have hw : walk t true dir [[]] = .place (.taken dir .directory) := by simp [walk, segment?]
  rw [follow_of_place hw]
  simp

/-- The pieces before some names that are joined to a path lead to the directory that the path leads to. -/
theorem exists_front_resolve (t : FileTree) (here : Location) {path : Path} (he : path.isEmpty = false)
    (hz : '\x00' ∉ path.chars) : ∃ start front,
      (∀ d, t.find here path = .ok (d, .directory) ↔ ∃ left, Leads t maxLinks start front left d) ∧
      ∀ fl names, names ≠ [] → AreNames names → ∀ place, t.resolve here (path.below names) fl = .ok place ↔
        (∀ n ∈ names, '\x00' ∉ n) ∧ follow t fl maxLinks start (front ++ names) = .ok place := by
  obtain ⟨front, -, hp, hj⟩ := exists_pieces_join he
  refine ⟨if path.isAbsolute then [] else here, front, fun d => ?_, fun fl names hne hn place => ?_⟩
  · rw [find_eq_ok_iff, resolve_eq_ok_iff]
    simp only [hz, he, not_false_eq_true, true_and]
    rcases hp with hp | hp
    · rw [hp, follow_eq_directory_iff]
    · rw [hp]
      constructor
      · intro h
        obtain ⟨left, d', hl⟩ := exists_leads_of_follow_append (by simp) h
        rw [hl.follow_append (by simp), follow_idle] at h
        exact ⟨left, h ▸ hl⟩
      · rintro ⟨left, hl⟩
        rw [hl.follow_append (by simp), follow_idle]
  · have ha := isAbsolute_ofNames hne hn
    have hnul : '\x00' ∉ (path.join (ofNames names)).chars ↔ ∀ n ∈ names, '\x00' ∉ n := by
      rw [mem_join_iff ha (by decide), ofNames, mem_glue_iff (by decide)]
      simp [hz]
    obtain ⟨he', ha'⟩ := isAbsolute_join he ha
    rw [below_of_ne_nil _ hne, resolve_eq_ok_iff, hnul, he', ha', hj _ ha, pieces_ofNames hne hn]
    simp

theorem isEmpty_of_find {t : FileTree} {here : Location} {path : Path} {x : Location × Entry}
    (h : t.find here path = .ok x) : path.isEmpty = false ∧ '\x00' ∉ path.chars := by
  obtain ⟨hz, he, -⟩ := resolve_eq_ok_iff.1 (find_eq_ok_iff.1 h)
  exact ⟨he, hz⟩

/-- From the directory that a path leads to, names lead on. `left` links may be followed then. -/
theorem exists_resolve_below {t : FileTree} {here d : Location} {path : Path}
    (h : t.find here path = .ok (d, .directory)) :
    ∃ left, ∀ fl names, names ≠ [] → AreNames names → ∀ place,
      t.resolve here (path.below names) fl = .ok place ↔
        (∀ n ∈ names, '\x00' ∉ n) ∧ follow t fl left d names = .ok place := by
  obtain ⟨he, hz⟩ := isEmpty_of_find h
  obtain ⟨start, front, hd, hb⟩ := exists_front_resolve t here he hz
  obtain ⟨left, hl⟩ := (hd d).1 h
  refine ⟨left, fun fl names hne hn place => ?_⟩
  rw [hb fl names hne hn, hl.follow_append hne]

theorem exists_directory_of_find_below {t : FileTree} {here : Location} {path : Path} {x y : Location × Entry}
    (h : t.find here path = .ok x) {names : List (List Char)} (hne : names ≠ []) (hn : AreNames names)
    (hb : t.find here (path.below names) = .ok y) : ∃ d, x = (d, .directory) := by
  obtain ⟨l, e⟩ := y
  obtain ⟨he, hz⟩ := isEmpty_of_find h
  obtain ⟨start, front, hd, hres⟩ := exists_front_resolve t here he hz
  rw [find_eq_ok_iff, hres true names hne hn] at hb
  obtain ⟨left, d, hl⟩ := exists_leads_of_follow_append hne hb.2
  rw [(hd d).2 ⟨left, hl⟩] at h
  exact ⟨d, (Except.ok.inj h).symm⟩

/-- A path ends in a symbolic link. -/
def IsLink (t : FileTree) (here : Location) (p : Path) : Prop :=
  ∃ l target, t.resolve here p false = .ok (.taken l (.link target))

theorem exists_get?_of_walk {t : FileTree} (fl : Bool) {d : Location} {n : List Char} (rest : List (List Char))
    (hn : IsName n) (h : (∃ l e, walk t fl d (n :: rest) = .place (.taken l e)) ∨
      ∃ dir target more, walk t fl d (n :: rest) = .link dir target more) : ∃ e, t.get? (d ++ [n]) = some e := by
  rw [← Option.ne_none_iff_exists']
  intro hg
  rw [walk, hn.segment?] at h
  simp only [hg] at h
  split at h
  · simp at h
  · split at h <;> simp at h

/-- An entry of a directory, by the path of the directory and its name. The entry may be a link. -/
theorem WellFormed.resolve_below_iff {t : FileTree} (ht : WellFormed t) {here d l : Location} {path : Path}
    (hd : t.find here path = .ok (d, .directory)) {n : List Char} (hn : IsName n) {e : Entry} :
    t.resolve here (path.below [n]) false = .ok (.taken l e) ↔ l = d ++ [n] ∧ t.get? l = some e := by
  have hlast {e : Entry} (hg : t.get? (d ++ [n]) = some e) :
      Fits n ∧ walk t false d [n] = .place (.taken (d ++ [n]) e) := by
    have hf : Fits n := (ht.inside d n e hg).2
    refine ⟨hf, ?_⟩
    rw [walk, hn.segment?]
    simp only [Nat.not_lt.2 hf.short, if_false, hg]
    cases e <;> rfl
  obtain ⟨left, h⟩ := exists_resolve_below hd
  rw [h false [n] (by simp) hn.areNames, follow_eq_ok_iff]
  constructor
  · rintro ⟨-, hw⟩
    obtain ⟨e', hg⟩ : ∃ e', t.get? (d ++ [n]) = some e' := by
      refine exists_get?_of_walk false [] hn ?_
      rcases hw with hw | ⟨_, _, _, _, -, hw, -⟩
      · exact .inl ⟨_, _, hw⟩
      · exact .inr ⟨_, _, _, hw⟩
    rw [(hlast hg).2] at hw
    rcases hw with hw | ⟨_, _, _, _, -, hw, -⟩
    · cases hw
      exact ⟨rfl, hg⟩
    · cases hw
  · rintro ⟨rfl, hg⟩
    obtain ⟨hf, hw⟩ := hlast hg
    exact ⟨by simpa using hf.no_nul, .inl hw⟩

theorem WellFormed.isLink_below_iff {t : FileTree} (ht : WellFormed t) {here d : Location} {path : Path}
    (hd : t.find here path = .ok (d, .directory)) {n : List Char} (hn : IsName n) :
    t.IsLink here (path.below [n]) ↔ ∃ target, t.get? (d ++ [n]) = some (.link target) := by
  simp [IsLink, ht.resolve_below_iff hd hn]

theorem WellFormed.find_below {t : FileTree} (ht : WellFormed t) {here d : Location} {path : Path}
    (hd : t.find here path = .ok (d, .directory)) {n : List Char} {e : Entry} (hg : t.get? (d ++ [n]) = some e)
    (he : ∀ target, e ≠ .link target) : t.find here (path.below [n]) = .ok (d ++ [n], e) := by
  have hf : Fits n := (ht.inside d n e hg).2
  obtain ⟨left, h⟩ := exists_resolve_below hd
  rw [find_eq_ok_iff, h true [n] (by simp) hf.areNames]
  refine ⟨by simpa using hf.no_nul, follow_of_place ?_ _⟩
  rw [walk, hf.segment?]
  simp only [Nat.not_lt.2 hf.short, if_false, hg]
  cases e with
  | directory => rfl
  | file content => rfl
  | link target => exact absurd rfl (he target)

theorem exists_get?_of_find_below {t : FileTree} {here d : Location} {path : Path}
    (hd : t.find here path = .ok (d, .directory)) {n : List Char} {rest : List (List Char)}
    (hn : AreNames (n :: rest)) {x : Location × Entry} (h : t.find here (path.below (n :: rest)) = .ok x) :
    ∃ e, t.get? (d ++ [n]) = some e := by
  obtain ⟨l, e⟩ := x
  obtain ⟨left, hres⟩ := exists_resolve_below hd
  rw [find_eq_ok_iff, hres true _ (by simp) hn, follow_eq_ok_iff] at h
  refine exists_get?_of_walk true rest (hn n (by simp)) ?_
  rcases h.2 with hw | ⟨_, _, _, _, -, hw, -⟩
  · exact .inl ⟨_, _, hw⟩
  · exact .inr ⟨_, _, _, hw⟩

theorem find_below_of_rest {t : FileTree} {here d : Location} {path : Path}
    (hd : t.find here path = .ok (d, .directory)) {n : List Char} {rest : List (List Char)} (hr : rest ≠ [])
    (hn : AreNames (n :: rest)) {x : Location × Entry} (h : t.find here (path.below (n :: rest)) = .ok x) :
    ∃ l, t.find here (path.below [n]) = .ok (l, .directory) := by
  obtain ⟨l, e⟩ := x
  obtain ⟨left, hres⟩ := exists_resolve_below hd
  rw [find_eq_ok_iff, hres true _ (by simp) hn] at h
  obtain ⟨hz, hf⟩ := h
  rw [← List.singleton_append] at hf
  obtain ⟨left', d', hl⟩ := exists_leads_of_follow_append hr hf
  refine ⟨d', find_eq_ok_iff.2 ?_⟩
  rw [hres true [n] (by simp) (hn.left (a := [n]))]
  exact ⟨fun m hm => hz m (by simp_all), follow_eq_directory_iff.2 ⟨_, hl⟩⟩

/-! What an operation leaves behind in a tree: the files that it wrote, and the directories that it made on the
way to them. Each is found by a path that the operation was given, or by the front of one. -/

/-- A directory that the way to one of some paths leads through. -/
def OnWay (t : FileTree) (cwd : Location) (ways : List Path) (l : Location) : Prop :=
  t.get? l = some .directory ∧
    ∃ p ∈ ways, ∃ q : Path, q.segments <+: p.segments ∧ t.find cwd q = .ok (l, .directory)

/-- The tree has grown. All that is new or changed in it are files that the paths `files` lead to, and
directories on the way to the paths `ways`. -/
structure Footprint (cwd : Location) (t t' : FileTree) (files ways : List Path) : Prop where
  grows : Grows t t'
  changed : ∀ l, t'.get? l ≠ t.get? l →
    (∃ p ∈ files, ∃ content, t'.find cwd p = .ok (l, .file content)) ∨ t.get? l = none ∧ t'.OnWay cwd ways l

theorem find_directory_of_grows {t t' : FileTree} (hg : Grows t t') {cwd : Location} {p : Path} {l : Location}
    (h : t.find cwd p = .ok (l, .directory)) : t'.find cwd p = .ok (l, .directory) := by
  obtain ⟨e, he, hk⟩ := find_of_grows hg h
  rwa [Entry.sameKind_directory_iff.1 hk] at he

namespace OnWay
variable {t t' : FileTree} {cwd : Location} {ways ways' : List Path} {l : Location}

theorem of_grows (h : t.OnWay cwd ways l) (hg : Grows t t') : t'.OnWay cwd ways l := by
  obtain ⟨hd, p, hp, q, hq, hf⟩ := h
  exact ⟨hg.get?_directory hd, p, hp, q, hq, find_directory_of_grows hg hf⟩

theorem mono (h : t.OnWay cwd ways l) (hw : ways ⊆ ways') : t.OnWay cwd ways' l := by
  obtain ⟨hd, p, hp, hq⟩ := h
  exact ⟨hd, p, hw hp, hq⟩

theorem of_front {p parent : Path} (h : t.OnWay cwd [parent] l) (hp : parent.segments <+: p.segments) :
    t.OnWay cwd [p] l := by
  obtain ⟨hd, _, hm, q, hq, hf⟩ := h
  rw [List.mem_singleton.1 hm] at hq
  exact ⟨hd, p, List.mem_singleton_self p, q, hq.trans hp, hf⟩

end OnWay

namespace Footprint
variable {cwd : Location} {t t' t'' : FileTree} {files ways files' ways' : List Path}

theorem rfl (cwd : Location) (t : FileTree) : Footprint cwd t t [] [] :=
  ⟨.rfl t, fun _ h => absurd (Eq.refl _) h⟩

theorem mono (h : Footprint cwd t t' files ways) (hf : files ⊆ files') (hw : ways ⊆ ways') :
    Footprint cwd t t' files' ways' := by
  refine ⟨h.grows, fun l hl => ?_⟩
  rcases h.changed l hl with ⟨p, hp, hc⟩ | ⟨hn, hd⟩
  · exact .inl ⟨p, hf hp, hc⟩
  · exact .inr ⟨hn, hd.mono hw⟩

theorem trans (h : Footprint cwd t t' files ways) (h' : Footprint cwd t' t'' files' ways') :
    Footprint cwd t t'' (files ++ files') (ways ++ ways') := by
  refine ⟨h.grows.trans h'.grows, fun l hl => ?_⟩
  by_cases heq : t''.get? l = t'.get? l
  · rcases h.changed l (heq ▸ hl) with ⟨p, hp, content, hc⟩ | ⟨hn, hd⟩
    · exact .inl ⟨p, List.mem_append_left _ hp, find_file_of_grows h'.grows hc⟩
    · exact .inr ⟨hn, (hd.of_grows h'.grows).mono (List.subset_append_left _ _)⟩
  · rcases h'.changed l heq with ⟨p, hp, hc⟩ | ⟨hn, hd⟩
    · exact .inl ⟨p, List.mem_append_right _ hp, hc⟩
    · have hnone : t.get? l = none := by
        by_contra hs
        obtain ⟨e, he⟩ := Option.ne_none_iff_exists'.1 hs
        obtain ⟨e', he', -⟩ := h.grows l e he
        simp [he'] at hn
      exact .inr ⟨hnone, hd.mono (List.subset_append_right _ _)⟩

theorem addsDirectories (h : Footprint cwd t t' [] ways) : AddsDirectories t t' := by
  intro l
  by_cases heq : t'.get? l = t.get? l
  · exact .inl heq
  · rcases h.changed l heq with ⟨_, hp, -⟩ | ⟨hn, hd, -⟩
    · cases hp
    · exact .inr ⟨hn, hd⟩

theorem frame (h : Footprint cwd t t' files ways) : Frame cwd t t' files := by
  refine ⟨h.grows, fun l hl => ?_⟩
  rcases h.changed l (fun heq => hl (fileAt?_congr heq)) with hf | ⟨hn, hd, -⟩
  · exact hf
  · exact absurd (by simp [fileAt?, hn, hd]) hl

theorem of_front {p parent : Path} (h : Footprint cwd t t' [] [parent]) (hp : parent.segments <+: p.segments) :
    Footprint cwd t t' [] [p] := by
  refine ⟨h.grows, fun l hl => ?_⟩
  rcases h.changed l hl with ⟨_, hm, -⟩ | ⟨hn, hd⟩
  · cases hm
  · exact .inr ⟨hn, hd.of_front hp⟩

end Footprint

/-- A directory that is made where nothing was is found by the path that led there. -/
theorem walk_made {t t' : FileTree} (hg : Grows t t') {fl : Bool} {dir d : Location} {pieces : List (List Char)}
    {n : List Char} {slash : Bool} (h : walk t fl dir pieces = .place (.free d n slash))
    (hd : t'.get? (d ++ [n]) = some .directory) :
    walk t' true dir pieces = .place (.taken (d ++ [n]) .directory) := by
  fun_induction walk t fl dir pieces with
  | case2 _ _ _ hs ih | case3 _ _ _ hs ih =>
    rw [walk, hs]
    exact ih h
  | case5 _ _ _ _ hn hs hb hdir ih =>
    rw [walk]
    simpa [hs, hn, hb, hg.get?_directory hdir] using ih h
  | case10 _ _ _ _ hn hs hb _ hrest =>
    simp only [Stop.place.injEq, Place.free.injEq] at h
    obtain ⟨rfl, rfl, -⟩ := h
    rw [walk]
    simp only [hs, hb, hd, if_false]
    refine walk_of_forall_isIdle t' true _ fun piece hp => ?_
    have hempty : piece = [] := by simpa using List.all_eq_true.1 hrest piece hp
    rw [hempty]
    rfl
  | _ => simp at h

/-- A link on the way is followed, whether the last one is or not. -/
theorem walk_link {t : FileTree} {fl : Bool} {dir d : Location} {pieces rest : List (List Char)} {target : Path}
    (h : walk t fl dir pieces = .link d target rest) : walk t true dir pieces = .link d target rest := by
  fun_induction walk t fl dir pieces with
  | case2 _ _ _ hs ih | case3 _ _ _ hs ih =>
    rw [walk, hs]
    exact ih h
  | case5 _ _ _ _ hn hs hb hdir ih =>
    rw [walk]
    simpa [hs, hn, hb, hdir] using ih h
  | case7 _ _ _ _ _ hs hb _ hdir =>
    rw [walk]
    simpa [hs, hb, hdir] using h
  | _ => simp at h

theorem follow_made {t t' : FileTree} (hg : Grows t t') {fl slash : Bool} {links : Nat} {dir d : Location}
    {pieces : List (List Char)} {n : List Char} (h : follow t fl links dir pieces = .ok (.free d n slash))
    (hd : t'.get? (d ++ [n]) = some .directory) :
    follow t' true links dir pieces = .ok (.taken (d ++ [n]) .directory) := by
  induction links generalizing dir pieces with
  | zero =>
    rcases follow_eq_ok_iff.1 h with hw | ⟨_, _, _, _, hk, -⟩
    · exact follow_of_place (walk_made hg hw hd) 0
    · cases hk
  | succ links ih =>
    rcases follow_eq_ok_iff.1 h with hw | ⟨k, dir', target, rest, hk, hw, ht, hf⟩
    · exact follow_of_place (walk_made hg hw hd) _
    · obtain rfl : links = k := by omega
      have hlink : walk t' true dir pieces = .link dir' target rest := by
        have hl := walk_leads hg true dir pieces
        rwa [walk_link hw] at hl
      exact follow_eq_ok_iff.2 (.inr ⟨_, dir', target, rest, rfl, hlink, ht, ih hf⟩)

theorem write_footprint {t t' : FileTree} {cwd : Location} {p : Path} {content : Content}
    (h : t.write cwd p content = .ok t') : Footprint cwd t t' [p] [] := by
  obtain ⟨l, hg, hf, hkept⟩ := write_eq_ok h
  refine ⟨hg, fun m hm => .inl ⟨p, List.mem_singleton_self p, content, ?_⟩⟩
  obtain rfl : m = l := by
    by_contra hne
    exact hm (hkept m hne)
  exact hf

theorem makeDirectory_made {t t' : FileTree} {cwd : Location} {p : Path} (h : t.makeDirectory cwd p = .ok t') :
    ∃ l, t.get? l = none ∧ t'.get? l = some .directory ∧ t'.find cwd p = .ok (l, .directory) ∧
      ∀ m, m ≠ l → t'.get? m = t.get? m := by
  have hadds := makeDirectory_eq_ok h
  unfold makeDirectory at h
  cases hp : t.resolve cwd p false with
  | error e => simp [hp, bind, Except.bind] at h
  | ok place =>
    cases place with
    | taken l e => simp [hp, bind, Except.bind] at h
    | free d n slash =>
      simp only [hp, bind, Except.bind, Except.ok.injEq] at h
      subst h
      obtain ⟨_, _, hw⟩ := resolve_eq_ok hp
      have hd := get?_set_self t (show d ++ [n] ≠ [] by simp) Entry.directory
      obtain ⟨hz, he, hf⟩ := resolve_eq_ok_iff.1 hp
      have hfind := find_eq_ok_iff.2 (resolve_eq_ok_iff.2 ⟨hz, he, follow_made hadds.grows hf hd⟩)
      exact ⟨d ++ [n], walk_free hw, hd, hfind, fun m hm => get?_set_of_ne t hm _⟩

theorem makeDirectory_footprint {t t' : FileTree} {cwd : Location} {p : Path} (h : t.makeDirectory cwd p = .ok t') :
    Footprint cwd t t' [] [p] := by
  obtain ⟨l, hn, hd, hfind, hkept⟩ := makeDirectory_made h
  refine ⟨(makeDirectory_eq_ok h).grows, fun m hm => .inr ?_⟩
  obtain rfl : m = l := by
    by_contra hne
    exact hm (hkept m hne)
  exact ⟨hn, hd, p, List.mem_singleton_self p, p, List.prefix_refl _, hfind⟩

theorem makeParents_footprint (cwd : Location) (fuel : Nat) (t : FileTree) (p : Path) :
    Footprint cwd t (makeParents cwd fuel t p).1 [] [p] := by
  induction fuel generalizing t p with
  | zero => exact (Footprint.rfl cwd t).mono (List.Subset.refl _) (List.nil_subset _)
  | succ fuel ih =>
    have hsame : Footprint cwd t t [] [p] := (Footprint.rfl cwd t).mono (List.Subset.refl _) (List.nil_subset _)
    unfold makeParents
    split
    · exact hsame
    · split
      · next hm => exact makeDirectory_footprint hm
      · split
        · exact hsame
        · next parent hparent =>
          have hup := (ih t parent).of_front (Path.segments_parent? hparent)
          split
          · next hr => rwa [hr] at hup
          · next hr =>
            rw [hr] at hup
            split
            · next hm =>
              exact (hup.trans (makeDirectory_footprint hm)).mono (List.Subset.refl _) (by simp)
            · exact hup
      · exact hsame

theorem makeDirectories_footprint (t : FileTree) (cwd : Location) (p : Path) :
    Footprint cwd t (t.makeDirectories cwd p).1 [] [p] :=
  makeParents_footprint cwd _ t p

theorem makeParents_addsDirectories (cwd : Location) (fuel : Nat) (t : FileTree) (p : Path) :
    AddsDirectories t (makeParents cwd fuel t p).1 :=
  (makeParents_footprint cwd fuel t p).addsDirectories

theorem makeDirectories_addsDirectories (t : FileTree) (cwd : Location) (p : Path) :
    AddsDirectories t (t.makeDirectories cwd p).1 :=
  makeParents_addsDirectories cwd _ t p

theorem put_file_grows (t : FileTree) (cwd : Location) (p : Path) (content : Content) :
    Grows t (t.put cwd p (.file content)) := by
  have ha : Grows t (put.above t cwd p) := by
    unfold put.above
    split
    · exact (makeDirectories_addsDirectories t cwd _).grows
    · exact .rfl t
  refine ha.trans ?_
  unfold put
  dsimp only
  cases hw : (put.above t cwd p).write cwd p content with
  | error e => exact .rfl _
  | ok t' =>
    obtain ⟨l, hg, -⟩ := write_eq_ok hw
    exact hg

end ComponentDocs.FileTree
