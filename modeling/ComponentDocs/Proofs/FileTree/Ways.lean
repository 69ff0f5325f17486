import ComponentDocs.FileTree.Walk
import ComponentDocs.Proofs.FileTree.Footprint
/-! The files below a directory of a tree with links, by the ways that lead to them. A walk finds each
of them once and comes to an end, as a way passes every directory by a link at most once. -/
namespace ComponentDocs.FileTree
open ComponentDocs.Path

theorem lookup_eq_some_iff_mem {entries : List (Location × Entry)} (h : (entries.map Prod.fst).Nodup)
    {l : Location} {e : Entry} : entries.lookup l = some e ↔ (l, e) ∈ entries := by
  induction entries with
  | nil => simp
  | cons x xs ih =>
    obtain ⟨k, v⟩ := x
    rw [List.map_cons, List.nodup_cons] at h
    rw [List.lookup_cons, List.mem_cons, Prod.mk.injEq]
    by_cases hk : l = k
    · subst hk
      have hm : (l, e) ∉ xs := fun hm => h.1 (List.mem_map.2 ⟨_, hm, rfl⟩)
      simp [hm, eq_comm]
    · have hk' : (l == k) = false := by simpa using hk
      rw [hk', ih h.2]
      simp [hk]

theorem WellFormed.mem_children_iff {t : FileTree} (ht : WellFormed t) {dir : Location} {name : List Char}
    {e : Entry} : (name, e) ∈ t.children dir ↔ t.get? (dir ++ [name]) = some e := by
  have hne : (dir ++ [name]).isEmpty = false := by simp
  rw [get?, hne, if_neg Bool.false_ne_true, lookup_eq_some_iff_mem ht.nodup, children, List.mem_filterMap]
  constructor
  · rintro ⟨⟨l, e'⟩, hm, h⟩
    obtain rfl | ⟨front, n, rfl⟩ := List.eq_nil_or_concat l
    · simp at h
    · simp only [List.concat_eq_append, List.getLast?_concat, List.dropLast_concat] at h hm
      split at h
      · next hd =>
        cases h
        rwa [← beq_iff_eq.1 hd]
      · cases h
  · intro hm
    exact ⟨_, hm, by simp⟩

theorem WellFormed.nodup_children {t : FileTree} (ht : WellFormed t) (dir : Location) :
    ((t.children dir).map Prod.fst).Nodup := by
  have hsub : ((t.children dir).map fun x => dir ++ [x.1]).Sublist (t.entries.map Prod.fst) := by
    rw [children, List.map_filterMap]
    induction t.entries with
    | nil => simp
    | cons x xs ih =>
      obtain ⟨l, e⟩ := x
      rw [List.map_cons]
      obtain rfl | ⟨front, n, rfl⟩ := List.eq_nil_or_concat l
      · rw [List.filterMap_cons_none rfl]
        exact ih.cons _
      · by_cases hf : front = dir
        · subst hf
          simpa using ih.cons_cons (front ++ [n])
        · simpa [hf] using ih.cons _
  have hnd : (((t.children dir).map Prod.fst).map fun n => dir ++ [n]).Nodup := by
    rw [List.map_map]
    exact ht.nodup.sublist hsub
  exact hnd.of_map _

theorem WellFormed.length_le {t : FileTree} (ht : WellFormed t) {l : Location} {e : Entry}
    (h : t.get? l = some e) : l.length ≤ t.entries.length := by
  have hnodup : ((List.range l.length).map fun i => l.take (i + 1)).Nodup := by
    refine (List.nodup_range).map_on fun i hi j hj hij => ?_
    have := congrArg List.length hij
    simp only [List.length_take, List.mem_range] at this hi hj
    omega
  have hsub : (List.range l.length).map (fun i => l.take (i + 1)) ⊆ t.entries.map Prod.fst := by
    intro m hm
    obtain ⟨i, hi, rfl⟩ := List.mem_map.1 hm
    rw [List.mem_range] at hi
    have hg : ∃ e, t.get? (l.take (i + 1)) = some e := by
      by_cases hd : l.drop (i + 1) = []
      · exact ⟨e, by rw [← List.append_nil (l.take (i + 1)), ← hd, List.take_append_drop, h]⟩
      · exact ⟨_, ht.get?_above (by rw [List.take_append_drop, h]) hd⟩
    obtain ⟨e', he'⟩ := hg
    have hne : l.take (i + 1) ≠ [] := by
      cases l with
      | nil => simp at hi
      | cons n ns => simp
    exact List.mem_map.2 ⟨_, mem_entries_of_get? hne he', rfl⟩
  have := (List.subperm_of_subset hnodup hsub).length_le
  simpa using this

/-- A way from a directory to a file, as a walk takes it. The directory is `dir`, `path` leads to
it, and `passed` are those on the way there. -/
inductive Way (t : FileTree) (here : Location) (skip : List Char → Bool) :
    (passed : List Location) → (path : Path) → (dir : Location) → (names : List (List Char)) → Prop
  | file {passed : List Location} {path : Path} {dir l : Location} {n : List Char} {content : Content}
      (hn : IsName n) (hf : t.find here (path.below [n]) = .ok (l, .file content)) : Way t here skip passed path dir [n]
  | on {passed : List Location} {path : Path} {dir l : Location} {n : List Char} {rest : List (List Char)}
      (hn : IsName n) (hf : t.find here (path.below [n]) = .ok (l, .directory)) (hs : skip n = false)
      (hp : t.IsLink here (path.below [n]) → l ∉ dir :: passed)
      (hr : Way t here skip (dir :: passed) (path.below [n]) l rest) : Way t here skip passed path dir (n :: rest)

variable {t : FileTree} {here : Location} {skip : List Char → Bool}

theorem Way.ne_nil {passed : List Location} {path : Path} {dir : Location} {names : List (List Char)}
    (h : Way t here skip passed path dir names) : names ≠ [] := by
  cases h <;> simp

/-- The path of an entry leads to it or, if it is a link, to what the link leads to. -/
theorem WellFormed.find_below_cases (ht : WellFormed t) {path : Path} {dir : Location}
    (hd : t.find here path = .ok (dir, .directory)) {n : List Char} (hn : IsName n) {l : Location} {e : Entry}
    (hf : t.find here (path.below [n]) = .ok (l, e)) :
    (l = dir ++ [n] ∧ t.get? l = some e ∧ ¬ t.IsLink here (path.below [n])) ∨
      t.IsLink here (path.below [n]) := by
  obtain ⟨e', hg⟩ := exists_get?_of_find_below hd hn.areNames hf
  by_cases hl : t.IsLink here (path.below [n])
  · exact .inr hl
  · have hne (target : Path) : e' ≠ .link target := by
      rintro rfl
      exact hl ((ht.isLink_below_iff hd hn).2 ⟨target, hg⟩)
    rw [ht.find_below hd hg hne] at hf
    cases hf
    exact .inl ⟨rfl, hg, hl⟩

theorem find_ne_link (t : FileTree) (here : Location) (path : Path) {l : Location} {target : Path} :
    t.find here path ≠ .ok (l, .link target) := by
  intro h
  obtain ⟨dir, pieces, hw⟩ := resolve_eq_ok (find_eq_ok_iff.1 h)
  clear h
  fun_induction walk t true dir pieces <;> simp_all

theorem WellFormed.mem_walkFiles_succ_iff (ht : WellFormed t) {fuel : Nat} {passed : List Location} {path : Path}
    {dir : Location} (hd : t.find here path = .ok (dir, .directory)) {names : List (List Char)} :
    names ∈ t.walkFiles here skip (fuel + 1) passed path dir ↔ ∃ n rest, names = n :: rest ∧ IsName n ∧
      ((rest = [] ∧ ∃ l content, t.find here (path.below [n]) = .ok (l, .file content)) ∨
        ∃ l, t.find here (path.below [n]) = .ok (l, .directory) ∧ skip n = false ∧
          (t.IsLink here (path.below [n]) → l ∉ dir :: passed) ∧
          rest ∈ t.walkFiles here skip fuel (dir :: passed) (path.below [n]) l) := by
  have hbelow (n : List Char) : path.join ⟨n⟩ = path.below [n] := by
    simp [below_of_ne_nil, ofNames]
  simp only [walkFiles_succ, List.mem_flatMap, hbelow]
  constructor
  · rintro ⟨⟨n, e⟩, hm, h⟩
    have hg := ht.mem_children_iff.1 hm
    have hn : IsName n := (ht.inside dir n e hg).2.toIsName
    have hmap {l : Location} (h : names ∈ if skip n then [] else
        (t.walkFiles here skip fuel (dir :: passed) (path.below [n]) l).map (n :: ·)) :
        skip n = false ∧ ∃ rest, names = n :: rest ∧
          rest ∈ t.walkFiles here skip fuel (dir :: passed) (path.below [n]) l := by
      split at h
      · simp at h
      · next hs =>
        obtain ⟨rest, hrest, rfl⟩ := List.mem_map.1 h
        exact ⟨Bool.eq_false_iff.2 hs, rest, rfl, hrest⟩
    cases e with
    | file content =>
      have hf := ht.find_below hd hg (by simp)
      exact ⟨n, [], List.mem_singleton.1 h, hn, .inl ⟨rfl, _, content, hf⟩⟩
    | directory =>
      have hf := ht.find_below hd hg (by simp)
      have hl : ¬ t.IsLink here (path.below [n]) := by
        rw [ht.isLink_below_iff hd hn, hg]
        simp
      obtain ⟨hs, rest, rfl, hrest⟩ := hmap h
      exact ⟨n, rest, rfl, hn, .inr ⟨_, hf, hs, fun hl' => absurd hl' hl, hrest⟩⟩
    | link target =>
      dsimp only at h
      split at h
      · simp at h
      · next l hf =>
        split at h
        · simp at h
        · next hp =>
          obtain ⟨hs, rest, rfl, hrest⟩ := hmap h
          exact ⟨n, rest, rfl, hn, .inr ⟨l, hf, hs, fun _ => by simpa using hp, hrest⟩⟩
      · next x hx hf =>
        obtain ⟨l, e⟩ := x
        cases e with
        | file content => exact ⟨n, [], List.mem_singleton.1 h, hn, .inl ⟨rfl, l, content, hf⟩⟩
        | directory => exact absurd rfl (hx l)
        | link target => exact absurd hf (find_ne_link t here _)
  · rintro ⟨n, rest, rfl, hn, ⟨rfl, l, content, hf⟩ | ⟨l, hf, hs, hp, hrest⟩⟩
    · obtain ⟨e, hg⟩ := exists_get?_of_find_below hd hn.areNames hf
      refine ⟨(n, e), ht.mem_children_iff.2 hg, ?_⟩
      cases e with
      | file content => simp
      | directory =>
        rw [ht.find_below hd hg (by simp)] at hf
        cases hf
      | link target => simp [hf]
    · obtain ⟨e, hg⟩ := exists_get?_of_find_below hd hn.areNames hf
      refine ⟨(n, e), ht.mem_children_iff.2 hg, ?_⟩
      cases e with
      | file content =>
        rw [ht.find_below hd hg (by simp)] at hf
        cases hf
      | directory =>
        rw [ht.find_below hd hg (by simp)] at hf
        cases hf
        simpa [hs] using hrest
      | link target =>
        have hp' := hp ((ht.isLink_below_iff hd hn).2 ⟨target, hg⟩)
        simpa [hf, hs, hp'] using hrest

/-- A walk finds what there are ways to, as far as it goes. -/
theorem WellFormed.mem_walkFiles_iff (ht : WellFormed t) {fuel : Nat} {passed : List Location} {path : Path}
    {dir : Location} (hd : t.find here path = .ok (dir, .directory)) {names : List (List Char)} :
    names ∈ t.walkFiles here skip fuel passed path dir ↔ names.length ≤ fuel ∧ Way t here skip passed path dir names := by
  induction fuel generalizing passed path dir names with
  | zero =>
    simp only [walkFiles_zero, List.not_mem_nil, false_iff]
    rintro ⟨hl, h⟩
    exact h.ne_nil (List.length_eq_zero_iff.1 (Nat.le_zero.1 hl))
  | succ fuel ih =>
    rw [ht.mem_walkFiles_succ_iff hd]
    constructor
    · rintro ⟨n, rest, rfl, hn, ⟨rfl, l, content, hf⟩ | ⟨l, hf, hs, hp, hrest⟩⟩
      · exact ⟨by simp, .file hn hf⟩
      · obtain ⟨hl, hway⟩ := (ih hf).1 hrest
        exact ⟨Nat.succ_le_succ hl, .on hn hf hs hp hway⟩
    · rintro ⟨hl, h⟩
      cases h with
      | file hn hf => exact ⟨_, [], rfl, hn, .inl ⟨rfl, _, _, hf⟩⟩
      | on hn hf hs hp hway =>
        exact ⟨_, _, rfl, hn, .inr ⟨_, hf, hs, hp, (ih hf).2 ⟨Nat.le_of_succ_le_succ hl, hway⟩⟩⟩

/-- No file is found twice, as no two entries of a directory have the same name. -/
theorem WellFormed.nodup_walkFiles (ht : WellFormed t) (here : Location) (skip : List Char → Bool) (fuel : Nat)
    (passed : List Location) (path : Path) (dir : Location) :
    (t.walkFiles here skip fuel passed path dir).Nodup := by
  have hmap (n : List Char) (b : Bool) {files : List (List (List Char))} (h : files.Nodup) :
      (if b then [] else files.map (n :: ·)).Nodup ∧
        ∀ names ∈ (if b then [] else files.map (n :: ·)), names.head? = some n := by
    cases b
    · exact ⟨h.map List.cons_injective, by simp⟩
    · simp
  have hdisj (found : List Char × Entry → List (List (List Char)))
      (h : ∀ x, (found x).Nodup ∧ ∀ names ∈ found x, names.head? = some x.1) (dir : Location) :
      ((t.children dir).flatMap found).Nodup := by
    rw [List.nodup_flatMap]
    refine ⟨fun x _ => (h x).1, (List.pairwise_map.1 (ht.nodup_children dir)).imp fun {x y} hne names hx hy => hne ?_⟩
    exact Option.some.inj (((h x).2 names hx).symm.trans ((h y).2 names hy))
  induction fuel generalizing passed path dir with
  | zero => simp [walkFiles_zero]
  | succ fuel ih =>
    rw [walkFiles_succ]
    refine hdisj _ (fun ⟨n, e⟩ => ?_) dir
    cases e with
    | file content => simp
    | directory => exact hmap n _ (ih ..)
    | link target =>
      dsimp only
      split
      · simp
      · split
        · simp
        · exact hmap n _ (ih ..)
      · simp

/-- The places of a tree that are not among some that were passed. -/
def unpassed (t : FileTree) (passed : List Location) : Finset Location :=
  (insert [] (t.entries.map Prod.fst).toFinset) \ passed.toFinset

theorem mem_unpassed_of_directory {l : Location} {passed : List Location} (h : t.get? l = some .directory)
    (hp : l ∉ passed) : l ∈ t.unpassed passed := by
  have hl : l = [] ∨ l ∈ t.entries.map Prod.fst := by
    by_cases hne : l = []
    · exact .inl hne
    · exact .inr (List.mem_map.2 ⟨_, mem_entries_of_get? hne h, rfl⟩)
  simp only [unpassed, Finset.mem_sdiff, Finset.mem_insert, List.mem_toFinset]
  exact ⟨hl, hp⟩

theorem card_unpassed_le (t : FileTree) (passed : List Location) :
    (t.unpassed passed).card ≤ t.entries.length + 1 := by
  have h₁ : (t.unpassed passed).card ≤ (insert [] (t.entries.map Prod.fst).toFinset).card :=
    Finset.card_le_card Finset.sdiff_subset
  have h₂ := Finset.card_insert_le ([] : Location) (t.entries.map Prod.fst).toFinset
  have h₃ := List.toFinset_card_le (t.entries.map Prod.fst)
  rw [List.length_map] at h₃
  omega

theorem unpassed_cons (t : FileTree) (l : Location) (passed : List Location) :
    t.unpassed (l :: passed) = (t.unpassed passed).erase l := by
  ext m
  simp [unpassed]
  tauto

theorem Way.get?_eq {passed : List Location} {path : Path} {dir : Location} {names : List (List Char)}
    (h : Way t here skip passed path dir names) (ht : WellFormed t) (hd : t.find here path = .ok (dir, .directory)) :
    t.get? dir = some .directory := by
  have hfound {n : List Char} {x : Location × Entry} (hn : IsName n) (hf : t.find here (path.below [n]) = .ok x) :
      t.get? dir = some .directory := by
    obtain ⟨e, hg⟩ := exists_get?_of_find_below hd hn.areNames hf
    exact (ht.inside dir n e hg).1
  cases h with
  | file hn hf => exact hfound hn hf
  | on hn hf => exact hfound hn hf

/-- A bound on the length of a way: between two links there are no more names than in a place of
the tree, and each link leads to a directory that was not passed. -/
theorem Way.length_le {passed : List Location} {path : Path} {dir : Location} {names : List (List Char)}
    (h : Way t here skip passed path dir names) (ht : WellFormed t) (hd : t.find here path = .ok (dir, .directory)) :
    names.length ≤ (t.unpassed (dir :: passed)).card * (t.entries.length + 1) + (t.entries.length + 1 - dir.length) := by
  have hdir := ht.length_le (h.get?_eq ht hd)
  induction h with
  | file =>
    simp only [List.length_singleton]
    omega
  | @on passed path dir l n rest hn hf hs hp hr ih =>
    have hg := hr.get?_eq ht hf
    have hl := ht.length_le hg
    have hrest := ih hf hl
    rw [unpassed_cons t l] at hrest
    rw [List.length_cons]
    rcases ht.find_below_cases hd hn hf with ⟨rfl, -, -⟩ | hlink
    · have hcard := Finset.card_erase_le (a := dir ++ [n]) (s := t.unpassed (dir :: passed))
      have := Nat.mul_le_mul_right (t.entries.length + 1) hcard
      rw [List.length_append, List.length_singleton] at hrest hl
      omega
    · have hcard := Finset.card_erase_add_one (mem_unpassed_of_directory hg (hp hlink))
      rw [← hcard, Nat.add_mul, Nat.one_mul]
      omega

/-- The name `n` is that of a link that leads back to a directory that the names `front` pass below `root`. -/
def ReturnsAt (t : FileTree) (here : Location) (root : Path) (front : List (List Char)) (n : List Char) : Prop :=
  t.IsLink here (root.below (front ++ [n])) ∧ ∃ earlier l, earlier <+: front ∧
    t.find here (root.below earlier) = .ok (l, .directory) ∧
    t.find here (root.below (front ++ [n])) = .ok (l, .directory)

/-- The names lead from `root` to a file. No directory on the way has a name that is to be skipped,
and no link on the way leads back to a directory that was passed. -/
structure Reaches (t : FileTree) (here : Location) (root : Path) (skip : List Char → Bool)
    (names : List (List Char)) : Prop where
  areNames : AreNames names
  file : ∃ l content, t.find here (root.below names) = .ok (l, .file content)
  kept : ∀ n ∈ names.dropLast, skip n = false
  no_return : ∀ front n rest, names = front ++ n :: rest → ¬ t.ReturnsAt here root front n

/-- The names `front` lead from `root` to the directory `dir`, through the directories `passed`. -/
structure Passes (t : FileTree) (here : Location) (root : Path) (skip : List Char → Bool)
    (front : List (List Char)) (passed : List Location) (dir : Location) : Prop where
  areNames : AreNames front
  directory : t.find here (root.below front) = .ok (dir, .directory)
  kept : ∀ n ∈ front, skip n = false
  no_return : ∀ before n rest, front = before ++ n :: rest → ¬ t.ReturnsAt here root before n
  mem_iff : ∀ l, l ∈ dir :: passed ↔ ∃ earlier, earlier <+: front ∧
    t.find here (root.below earlier) = .ok (l, .directory)

theorem passes_nil {root : Path} {dir : Location} (hd : t.find here root = .ok (dir, .directory)) :
    Passes t here root skip [] [] dir where
  areNames := areNames_nil
  directory := hd
  kept := by simp
  no_return := by simp
  mem_iff l := by simp [hd, eq_comm]

theorem split_concat {front before rest : List (List Char)} {n m : List Char}
    (h : front ++ [n] = before ++ m :: rest) :
    (before = front ∧ m = n) ∨ ∃ rest', front = before ++ m :: rest' := by
  obtain rfl | ⟨rest', k, rfl⟩ := List.eq_nil_or_concat rest
  · obtain ⟨rfl, hm⟩ := List.append_inj' h rfl
    cases hm
    exact .inl ⟨rfl, rfl⟩
  · rw [List.concat_eq_append, ← List.cons_append, ← List.append_assoc] at h
    exact .inr ⟨rest', (List.append_inj' h rfl).1⟩

namespace Passes
variable {root : Path} {front : List (List Char)} {passed : List Location} {dir : Location}
  (h : Passes t here root skip front passed dir)
include h

theorem below_append {rest : List (List Char)} (hr : AreNames rest) :
    (root.below front).below rest = root.below (front ++ rest) :=
  (Path.below_append root h.areNames hr).symm

theorem returnsAt_iff {n : List Char} {l : Location}
    (hf : t.find here (root.below (front ++ [n])) = .ok (l, .directory)) :
    t.ReturnsAt here root front n ↔ t.IsLink here (root.below (front ++ [n])) ∧ l ∈ dir :: passed := by
  rw [ReturnsAt, h.mem_iff, hf]
  simp only [Except.ok.injEq, Prod.mk.injEq, and_true]
  constructor
  · rintro ⟨hl, earlier, m, he, hm, rfl⟩
    exact ⟨hl, earlier, he, hm⟩
  · rintro ⟨hl, earlier, he, hm⟩
    exact ⟨hl, earlier, l, he, hm, rfl⟩

theorem no_return_concat {n : List Char} (hn : ¬ t.ReturnsAt here root front n) {before : List (List Char)}
    {m : List Char} {rest : List (List Char)} (he : front ++ [n] = before ++ m :: rest) :
    ¬ t.ReturnsAt here root before m := by
  rcases split_concat he with ⟨rfl, rfl⟩ | ⟨rest', hfront⟩
  · exact hn
  · exact h.no_return before m rest' hfront

theorem on {n : List Char} {l : Location} (hn : IsName n)
    (hf : t.find here (root.below (front ++ [n])) = .ok (l, .directory)) (hs : skip n = false)
    (hr : ¬ t.ReturnsAt here root front n) : Passes t here root skip (front ++ [n]) (dir :: passed) l where
  areNames := h.areNames.append hn.areNames
  directory := hf
  kept m hm := by
    rcases List.mem_append.1 hm with hm | hm
    · exact h.kept m hm
    · rwa [List.mem_singleton.1 hm]
  no_return before m rest he := h.no_return_concat hr he
  mem_iff m := by
    rw [List.mem_cons, h.mem_iff]
    constructor
    · rintro (rfl | ⟨earlier, he, hm⟩)
      · exact ⟨front ++ [n], List.prefix_rfl, hf⟩
      · exact ⟨earlier, he.trans (List.prefix_append ..), hm⟩
    · rintro ⟨earlier, he, hm⟩
      rcases List.prefix_concat_iff.1 (by simpa using he) with rfl | he
      · rw [hf] at hm
        cases hm
        exact .inl rfl
      · exact .inr ⟨earlier, he, hm⟩

theorem way_iff {names : List (List Char)} :
    Way t here skip passed (root.below front) dir names ↔ names ≠ [] ∧ Reaches t here root skip (front ++ names) := by
  constructor
  · intro hway
    refine ⟨hway.ne_nil, ?_⟩
    generalize hp : root.below front = path at hway
    induction hway generalizing front with
    | @file passed path dir l n content hn hf =>
      subst hp
      rw [h.below_append hn.areNames] at hf
      refine ⟨h.areNames.append hn.areNames, ⟨l, content, hf⟩, by simpa using h.kept, fun before m rest he => ?_⟩
      refine h.no_return_concat (fun hr => ?_) he
      obtain ⟨-, _, _, -, -, hf'⟩ := hr
      rw [hf] at hf'
      cases hf'
    | @on passed path dir l n rest hn hf hs hl _ ih =>
      subst hp
      rw [h.below_append hn.areNames] at hf hl
      have hr : ¬ t.ReturnsAt here root front n := fun hr =>
        hl ((h.returnsAt_iff hf).1 hr).1 ((h.returnsAt_iff hf).1 hr).2
      simpa using ih (h.on hn hf hs hr) (h.below_append hn.areNames).symm
  · rintro ⟨hne, hr⟩
    induction names generalizing front passed dir with
    | nil => contradiction
    | cons n rest ih =>
      have hnames : AreNames (n :: rest) := hr.areNames.right
      have hn : IsName n := hnames n (by simp)
      obtain ⟨m, content, hf⟩ := hr.file
      by_cases hrest : rest = []
      · subst hrest
        exact .file hn (by rwa [h.below_append hn.areNames])
      · rw [← h.below_append hnames] at hf
        obtain ⟨l, hl⟩ := find_below_of_rest h.directory hrest hnames hf
        have hl' := hl
        rw [h.below_append hn.areNames] at hl'
        have hs : skip n = false := by
          refine hr.kept n ?_
          rw [List.dropLast_append_of_ne_nil (by simp), List.dropLast_cons_of_ne_nil hrest]
          simp
        have hret := hr.no_return front n rest rfl
        refine .on hn hl hs (fun hlink hmem => hret ?_) ?_
        · rw [h.below_append hn.areNames] at hlink
          exact (h.returnsAt_iff hl').2 ⟨hlink, hmem⟩
        · rw [h.below_append hn.areNames]
          exact ih (h.on hn hl' hs hret) hrest (by simpa using hr)

end Passes

theorem WellFormed.exists_filesBelow (ht : WellFormed t) {root : Path} {x : Location × Entry}
    (hx : t.find here root = .ok x) (skip : List Char → Bool) :
    ∃ files, t.filesBelow here root skip = .ok files ∧ files.Nodup ∧
      ∀ names, names ∈ files ↔ Reaches t here root skip names := by
  obtain ⟨dir, e⟩ := x
  cases e with
  | link target => exact absurd hx (find_ne_link t here root)
  | file content =>
    refine ⟨[[]], by simp [filesBelow, foundBelow, hx, bind, Except.bind, Except.map, Except.toOption], by simp, fun names => ?_⟩
    rw [List.mem_singleton]
    constructor
    · rintro rfl
      exact ⟨areNames_nil, ⟨dir, content, hx⟩, by simp, by simp⟩
    · intro hr
      obtain ⟨l, content', hf⟩ := hr.file
      by_contra hne
      obtain ⟨d, hd⟩ := exists_directory_of_find_below hx hne hr.areNames hf
      cases hd
  | directory =>
    refine ⟨_, by rw [filesBelow, foundBelow, hx]; rfl, ht.nodup_walkFiles .., fun names => ?_⟩
    have hway : Way t here skip [] root dir names ↔ names ≠ [] ∧ Reaches t here root skip names :=
      (passes_nil hx).way_iff
    rw [ht.mem_walkFiles_iff hx, hway]
    constructor
    · rintro ⟨-, -, hr⟩
      exact hr
    · intro hr
      have hne : names ≠ [] := by
        rintro rfl
        obtain ⟨l, content, hf⟩ := hr.file
        rw [below_nil, hx] at hf
        cases hf
      refine ⟨?_, hne, hr⟩
      have hl := (hway.2 ⟨hne, hr⟩).length_le ht hx
      have hc := Nat.mul_le_mul_right (t.entries.length + 1) (t.card_unpassed_le [dir])
      rw [Nat.mul_succ]
      omega

end ComponentDocs.FileTree

/-! The files below a directory of a tree without links. -/
namespace ComponentDocs.FileTree
open ComponentDocs.Path

theorem Plain.not_isLink {t : FileTree} (ht : Plain t) (here : Location) (p : Path) : ¬ t.IsLink here p := by
  rintro ⟨l, target, h⟩
  obtain ⟨dir, pieces, hw⟩ := resolve_eq_ok h
  clear h
  fun_induction walk t false dir pieces <;> simp_all [ht.no_link]

theorem below_path {d names : List (List Char)} (hd : AreNames d) (hn : AreNames names) :
    (Location.path d).below names = Location.path (d ++ names) := by
  by_cases hne : names = []
  · subst hne
    rw [below_nil, List.append_nil]
  · rw [below_of_ne_nil _ hne, Location.join_path d hne hn hd]

theorem Plain.filesBelow_path {t : FileTree} (ht : Plain t) (here : Location) (skip : List Char → Bool)
    {d : Location} (hd : t.get? d = some .directory) :
    ∃ files, t.filesBelow here d.path skip = .ok files ∧ ∀ names, names ∈ files ↔
      names ≠ [] ∧ t.fileAt? (d ++ names) ≠ none ∧ ∀ n ∈ names.dropLast, skip n = false := by
  have hfits := areNames_of_fits (ht.fits hd)
  have hfind : t.find here d.path = .ok (d, .directory) := (ht.find_path_iff hfits).2 ⟨rfl, hd⟩
  obtain ⟨files, hf, -, hm⟩ := ht.exists_filesBelow hfind skip
  refine ⟨files, hf, fun names => ?_⟩
  have hfile : t.fileAt? (d ++ names) ≠ none ↔ ∃ content, t.get? (d ++ names) = some (.file content) := by
    simp [Option.ne_none_iff_exists', fileAt?_eq_some_iff]
  rw [hm, hfile]
  constructor
  · intro hr
    obtain ⟨l, content, hl⟩ := hr.file
    rw [below_path hfits hr.areNames, ht.find_path_iff (hfits.append hr.areNames)] at hl
    obtain ⟨rfl, hg⟩ := hl
    refine ⟨?_, ⟨content, hg⟩, hr.kept⟩
    rintro rfl
    rw [List.append_nil, hd] at hg
    cases hg
  · rintro ⟨hne, ⟨content, hg⟩, hk⟩
    have hnames : AreNames names := (areNames_of_fits (ht.fits hg)).right
    refine ⟨hnames, ⟨d ++ names, content, ?_⟩, hk, fun front n rest _ hr => ht.not_isLink here _ hr.1⟩
    rw [below_path hfits hnames]
    exact (ht.find_path_iff (hfits.append hnames)).2 ⟨rfl, hg⟩

end ComponentDocs.FileTree
