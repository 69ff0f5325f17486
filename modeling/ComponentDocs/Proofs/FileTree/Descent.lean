import ComponentDocs.Proofs.FileTree.Footprint
/-! How making directories ends in a tree without links, and what it makes. Only the files on the way
count: directories that are there already and those that are missing are passed alike. -/
namespace ComponentDocs.FileTree
open ComponentDocs.Path

/-- How it ends to go down some names from a directory, where what is missing is made. -/
def descent (t : FileTree) (dir : Location) : List (List Char) → Except FileError Unit
  | [] => .ok ()
  | n :: rest =>
    if maxNameBytes < nameBytes n then .error .nameTooLong
    else
      match t.fileAt? (dir ++ [n]) with
      | some _ => .error (if rest.isEmpty then .alreadyExists else .notDirectory)
      | none => descent t (dir ++ [n]) rest

def HasNul (d : Location) : Prop := ∃ n ∈ d, '\x00' ∈ n

instance (d : Location) : Decidable (HasNul d) := inferInstanceAs (Decidable (∃ n ∈ d, '\x00' ∈ n))

theorem hasNul_append {a b : Location} : HasNul (a ++ b) ↔ HasNul a ∨ HasNul b := by
  simp [HasNul, or_and_right, exists_or]

/-- How making a directory with those above it ends. -/
def making (t : FileTree) (d : Location) : Except FileError Unit :=
  if HasNul d then .error .nulInName else t.descent [] d

/-- The directories that are made or passed on the way to one. -/
def Enters (t : FileTree) (d l : Location) : Prop := ¬ HasNul d ∧ l <+: d ∧ t.Passable l

/-- Two trees have the same files on the way to a place, and there. -/
def SameOnWay (t u : FileTree) (d : Location) : Prop := ∀ front, front <+: d → t.fileAt? front = u.fileAt? front

theorem SameOnWay.mono {t u : FileTree} {d k : Location} (h : SameOnWay t u d) (hk : k <+: d) : SameOnWay t u k :=
  fun front hf => h front (hf.trans hk)

theorem descent_congr {t u : FileTree} {dir : Location} {names : List (List Char)}
    (h : SameOnWay t u (dir ++ names)) : t.descent dir names = u.descent dir names := by
  induction names generalizing dir with
  | nil => rfl
  | cons n rest ih =>
    have hs : dir ++ n :: rest = dir ++ [n] ++ rest := by simp
    rw [hs] at h
    rw [descent, descent, h (dir ++ [n]) (List.prefix_append _ _), ih h]

theorem making_congr {t u : FileTree} {d : Location} (h : SameOnWay t u d) : t.making d = u.making d := by
  rw [making, making, descent_congr h]

theorem passable_congr {t u : FileTree} {d : Location} (h : SameOnWay t u d) : t.Passable d ↔ u.Passable d :=
  and_congr_right fun _ => forall₂_congr fun front hf => by rw [h front hf]

theorem enters_congr {t u : FileTree} {d : Location} (h : SameOnWay t u d) (l : Location) :
    t.Enters d l ↔ u.Enters d l :=
  and_congr_right fun _ => and_congr_right fun hl => passable_congr (h.mono hl)

theorem WellFormed.not_hasNul {t : FileTree} (ht : WellFormed t) {d : Location} {e : Entry} (h : t.get? d = some e) :
    ¬ HasNul d := no_nul_of_fits (ht.fits h)

theorem descent_append {t : FileTree} {dir front : Location} (hb : ∀ n ∈ front, nameBytes n ≤ maxNameBytes)
    (hf : ∀ k, k <+: front → t.fileAt? (dir ++ k) = none) (rest : List (List Char)) :
    t.descent dir (front ++ rest) = t.descent (dir ++ front) rest := by
  induction front generalizing dir with
  | nil => simp
  | cons n ns ih =>
    have hn := hf [n] ⟨ns, rfl⟩
    rw [List.cons_append, descent, if_neg (Nat.not_lt.2 (hb n (by simp))), hn]
    dsimp only
    rw [ih (fun m hm => hb m (by simp [hm])) fun k hk => by
      simpa using hf (n :: k) (List.cons_prefix_cons.2 ⟨rfl, hk⟩)]
    simp

theorem Passable.descent {t : FileTree} {d : Location} (h : t.Passable d) (rest : List (List Char)) :
    t.descent [] (d ++ rest) = t.descent d rest := by
  rw [descent_append (fun n hn => (h.1 n hn).short) (by simpa using h.2), List.nil_append]

theorem Passable.making {t : FileTree} {d : Location} (h : t.Passable d) : t.making d = .ok () := by
  have hd := h.descent []
  rw [List.append_nil] at hd
  rw [FileTree.making, if_neg (show ¬ HasNul d from no_nul_of_fits h.1), hd, FileTree.descent]

theorem descent_eq_ok {t : FileTree} {dir : Location} {names : List (List Char)} (h : t.descent dir names = .ok ()) :
    (∀ n ∈ names, nameBytes n ≤ maxNameBytes) ∧ ∀ k, k <+: names → k ≠ [] → t.fileAt? (dir ++ k) = none := by
  induction names generalizing dir with
  | nil => simp
  | cons n rest ih =>
    rw [FileTree.descent] at h
    split at h
    · cases h
    · next hb =>
      cases hf : t.fileAt? (dir ++ [n]) with
      | some content =>
        rw [hf] at h
        cases h
      | none =>
        rw [hf] at h
        obtain ⟨hshort, hnone⟩ := ih h
        refine ⟨by simpa [Nat.not_lt.1 hb] using hshort, fun k hk hne => ?_⟩
        obtain ⟨k', rfl, hk'⟩ := (List.prefix_cons_iff.1 hk).resolve_left hne
        by_cases he : k' = []
        · simpa [he] using hf
        · simpa using hnone k' hk' he

theorem passable_of_making {t : FileTree} {d : Location} (hd : AreNames d) (h : t.making d = .ok ()) :
    ¬ HasNul d ∧ t.Passable d := by
  unfold FileTree.making at h
  split at h
  · cases h
  · next hz =>
    obtain ⟨hshort, hnone⟩ := descent_eq_ok h
    refine ⟨hz, fun n hn => ⟨hd n hn, fun hnul => hz ⟨n, hn, hnul⟩, hshort n hn⟩, fun front hf => ?_⟩
    by_cases he : front = []
    · simp [he, fileAt?]
    · simpa using hnone front hf he

/-- Going down one name more. Where there is no file at the end so far, it fails as before or goes on. -/
theorem descent_concat {t : FileTree} {dir : Location} {names : List (List Char)}
    (h : names ≠ [] → t.fileAt? (dir ++ names) = none) (m : List Char) :
    t.descent dir (names ++ [m]) = (t.descent dir names).bind fun _ => t.descent (dir ++ names) [m] := by
  induction names generalizing dir with
  | nil => simp [descent, Except.bind]
  | cons n rest ih =>
    have hs : dir ++ n :: rest = dir ++ [n] ++ rest := by simp
    rw [hs] at h ⊢
    rw [List.cons_append, descent, descent]
    split
    · rfl
    · cases hf : t.fileAt? (dir ++ [n]) with
      | none => exact ih fun _ => h (by simp)
      | some content =>
        have hr : rest ≠ [] := by
          rintro rfl
          have hn := h (by simp)
          rw [List.append_nil, hf] at hn
          cases hn
        simp [hr, Except.bind]

/-- What has come of making a directory with those above it. -/
structure MadeBy (t : FileTree) (d : Location) (made : FileTree × Except FileError Unit) : Prop where
  plain : Plain made.1
  result : made.2 = t.making d
  directory : ∀ l, made.1.get? l = some .directory ↔ t.get? l = some .directory ∨ t.Enters d l

theorem MadeBy.there {t : FileTree} {d : Location} {made : FileTree × Except FileError Unit} (h : MadeBy t d made)
    (hd : AreNames d) (hok : made.2 = .ok ()) : made.1.get? d = some .directory := by
  obtain ⟨hz, hp⟩ := passable_of_making hd (h.result.symm.trans hok)
  exact (h.directory d).2 (.inr ⟨hz, List.prefix_rfl, hp⟩)

theorem MadeBy.elsewhere {t : FileTree} {d : Location} {made : FileTree × Except FileError Unit} (h : MadeBy t d made)
    (ha : AddsDirectories t made.1) {l : Location} (hl : ¬ l <+: d) : made.1.get? l = t.get? l := by
  rcases ha l with he | ⟨hnone, hmade⟩
  · exact he
  · rcases (h.directory l).1 hmade with ht | ⟨-, hp, -⟩
    · rw [hmade, ht]
    · exact absurd hp hl

theorem Plain.madeBy_there {t : FileTree} (ht : Plain t) {d : Location} (h : t.get? d = some .directory) :
    MadeBy t d (t, .ok ()) :=
  ⟨ht, (ht.passable h).making.symm, fun _ => ⟨.inl, fun hl => hl.elim id fun he => ht.get?_onWay h he.2.1⟩⟩

/-- Where the way ends at a name that cannot be passed, nothing is made. -/
theorem Plain.madeBy_stopped {t : FileTree} (ht : Plain t) {dir : Location} {n : List Char} {rest : List (List Char)}
    (hd : t.get? dir = some .directory) (hn : HasNul (n :: rest) ∨ ¬ t.Passable (dir ++ [n])) {e : FileError}
    (he : t.making (dir ++ n :: rest) = .error e) : MadeBy t (dir ++ n :: rest) (t, .error e) := by
  refine ⟨ht, he.symm, fun l => ⟨.inl, fun hl => hl.elim id ?_⟩⟩
  rintro ⟨hz, hl, hp⟩
  have hn' : ¬ t.Passable (dir ++ [n]) := hn.resolve_left fun h => hz (hasNul_append.2 (.inr h))
  have hw : dir ++ [n] <+: dir ++ n :: rest := ⟨rest, by simp⟩
  rcases List.prefix_or_prefix_of_prefix hl hw with h | h
  · rcases List.prefix_concat_iff.1 h with rfl | h
    · exact absurd hp hn'
    · exact ht.get?_onWay hd h
  · exact absurd (hp.mono h) hn'

theorem MadeBy.concat {t t₁ : FileTree} {d : Location} {m : List Char} (h : MadeBy t d (t₁, .ok ()))
    (hp : t.Passable (d ++ [m])) : MadeBy t (d ++ [m]) (t₁.set (d ++ [m]) .directory, .ok ()) := by
  have hz : ¬ HasNul (d ++ [m]) := no_nul_of_fits hp.1
  have hz' : ¬ HasNul d := fun h => hz (hasNul_append.2 (.inl h))
  have hd := (h.directory d).2 (.inr ⟨hz', List.prefix_rfl, hp.mono (List.prefix_append d [m])⟩)
  refine ⟨h.plain.set hd (hp.1 m (by simp)) (by simp) (by simp), hp.making.symm, fun l => ?_⟩
  by_cases hl : l = d ++ [m]
  · subst hl
    simp only [get?_set_self t₁ (List.append_ne_nil_of_right_ne_nil d (List.cons_ne_nil m [])), true_iff]
    exact .inr ⟨hz, List.prefix_rfl, hp⟩
  · rw [get?_set_of_ne t₁ hl, h.directory l]
    simp [Enters, hz, hz', List.prefix_concat_iff, hl]

/-- One more directory cannot be made, because its name is too long or those above it cannot be made. -/
theorem MadeBy.concat_error {t t₁ : FileTree} {d : Location} {m : List Char} {r : Except FileError Unit}
    {e : FileError} (h : MadeBy t d (t₁, r)) (hz : ¬ HasNul (d ++ [m])) (hp : ¬ t.Passable (d ++ [m]))
    (he : t.making (d ++ [m]) = .error e) : MadeBy t (d ++ [m]) (t₁, .error e) := by
  have hz' : ¬ HasNul d := fun h => hz (hasNul_append.2 (.inl h))
  refine ⟨h.plain, he.symm, fun l => (h.directory l).trans (or_congr_right ?_)⟩
  simp only [Enters, hz, hz', List.prefix_concat_iff]
  constructor
  · rintro ⟨-, hl, hpass⟩
    exact ⟨not_false, .inr hl, hpass⟩
  · rintro ⟨-, rfl | hl, hpass⟩
    · exact absurd hpass hp
    · exact ⟨not_false, hl, hpass⟩

theorem Plain.making_stop {t : FileTree} (ht : Plain t) {dir : Location} (hd : t.get? dir = some .directory)
    (n : List Char) (rest : List (List Char)) :
    t.making (dir ++ n :: rest) = if HasNul (n :: rest) then .error .nulInName else t.descent dir (n :: rest) := by
  have hz : HasNul (dir ++ n :: rest) ↔ HasNul (n :: rest) := by
    rw [hasNul_append, or_iff_right (ht.not_hasNul hd)]
  rw [making, (ht.passable hd).descent]
  simp only [hz]

theorem Plain.makeDirectory_stop {t : FileTree} (ht : Plain t) (here : Location) {dir : Location} {n : List Char}
    {rest : List (List Char)} (hd : t.get? dir = some .directory) (hn : t.get? (dir ++ [n]) ≠ some .directory)
    (hl : AreNames (dir ++ n :: rest)) : t.makeDirectory here (Location.path (dir ++ n :: rest)) =
      if HasNul (n :: rest) then .error .nulInName
      else if maxNameBytes < nameBytes n then .error .nameTooLong
      else if t.get? (dir ++ [n]) = none then
        if rest = [] then .ok (t.set (dir ++ [n]) .directory) else .error .notFound
      else .error (if rest.isEmpty then .alreadyExists else .notDirectory) := by
  have hr : t.resolve here (Location.path (dir ++ n :: rest)) false =
      if HasNul (n :: rest) then .error .nulInName else stopAt t dir n rest := ht.resolve_stop hd hn hl here false
  rw [makeDirectory, hr, stopAt]
  split
  · rfl
  · split
    · rfl
    · cases t.get? (dir ++ [n]) <;> cases rest <;> rfl

/-- Where making a directory is tried once only. -/
theorem Plain.madeBy_once {t : FileTree} (ht : Plain t) (here : Location) {dir : Location} {n : List Char}
    {rest : List (List Char)} (hd : t.get? dir = some .directory) (hn : t.get? (dir ++ [n]) ≠ some .directory)
    (hl : AreNames (dir ++ n :: rest)) :
    (∃ e, e ≠ .notFound ∧ t.makeDirectory here (Location.path (dir ++ n :: rest)) = .error e ∧
      MadeBy t (dir ++ n :: rest) (t, .error e)) ∨
    (∃ t', t.makeDirectory here (Location.path (dir ++ n :: rest)) = .ok t' ∧
      MadeBy t (dir ++ n :: rest) (t', .ok ())) ∨
    (rest ≠ [] ∧ ¬ HasNul (n :: rest) ∧ t.get? (dir ++ [n]) = none ∧
      t.makeDirectory here (Location.path (dir ++ n :: rest)) = .error .notFound) := by
  rw [ht.makeDirectory_stop here hd hn hl]
  have hmaking := ht.making_stop hd n rest
  by_cases hz : HasNul (n :: rest)
  · rw [if_pos hz] at hmaking ⊢
    exact .inl ⟨_, by simp, rfl, ht.madeBy_stopped hd (.inl hz) hmaking⟩
  rw [if_neg hz, descent] at hmaking
  rw [if_neg hz]
  by_cases hb : maxNameBytes < nameBytes n
  · rw [if_pos hb] at hmaking ⊢
    have hp : ¬ t.Passable (dir ++ [n]) := fun hp => absurd (hp.1 n (by simp)).short (Nat.not_le.2 hb)
    exact .inl ⟨_, by simp, rfl, ht.madeBy_stopped hd (.inr hp) hmaking⟩
  rw [if_neg hb] at hmaking ⊢
  have hfits : Fits n := ⟨hl n (by simp), fun h => hz ⟨n, by simp, h⟩, Nat.not_lt.1 hb⟩
  cases hg : t.get? (dir ++ [n]) with
  | none =>
    rw [if_pos rfl]
    by_cases hr : rest = []
    · subst hr
      rw [if_pos rfl]
      have hp := passable_append (ht.passable hd) hfits (by simp [fileAt?, hg])
      exact .inr (.inl ⟨_, rfl, (ht.madeBy_there hd).concat hp⟩)
    · rw [if_neg hr]
      exact .inr (.inr ⟨hr, hz, rfl, rfl⟩)
  | some e =>
    obtain ⟨content, hf⟩ : ∃ content, t.fileAt? (dir ++ [n]) = some content := by
      cases e with
      | directory => exact absurd hg hn
      | link target => exact absurd hg (ht.no_link _ _)
      | file content => exact ⟨content, by simp [fileAt?, hg]⟩
    rw [hf] at hmaking
    have hp : ¬ t.Passable (dir ++ [n]) := fun hp => by simp [hp.2 _ List.prefix_rfl] at hf
    refine .inl ⟨_, ?_, by rw [if_neg (by simp)], ht.madeBy_stopped hd (.inr hp) hmaking⟩
    cases rest <;> simp

theorem making_concat {t : FileTree} {d : Location} {m : List Char} (hz : ¬ HasNul (d ++ [m]))
    (hf : t.fileAt? d = none) : t.making (d ++ [m]) = (t.making d).bind fun _ => t.descent d [m] := by
  have hz' : ¬ HasNul d := fun h => hz (hasNul_append.2 (.inl h))
  rw [making, making, if_neg hz, if_neg hz']
  exact descent_concat (fun _ => by simpa using hf) m

/-- The second try, when all above the directory is made. -/
theorem MadeBy.again {t t₁ : FileTree} {d : Location} {m : List Char} (h : MadeBy t d (t₁, .ok ())) (here : Location)
    (hd : t₁.get? d = some .directory) (hnone : t.get? (d ++ [m]) = none)
    (hnone' : t.get? d = none) (hm : t₁.get? (d ++ [m]) = none) (hl : AreNames (d ++ [m])) (hz : ¬ HasNul (d ++ [m])) :
    MadeBy t (d ++ [m])
      (match t₁.makeDirectory here (Location.path (d ++ [m])) with
      | .ok t => (t, .ok ())
      | .error e => (t₁, if t₁.isDirectory here (Location.path (d ++ [m])) then .ok () else .error e)) := by
  have hz' : ¬ HasNul [m] := fun h => hz (hasNul_append.2 (.inr h))
  have hfile {l : Location} (h : t.get? l = none) : t.fileAt? l = none := by simp [fileAt?, h]
  have hmaking := making_concat hz (hfile hnone')
  rw [← h.result, descent, hfile hnone] at hmaking
  have hn : t₁.get? (d ++ [m]) ≠ some .directory := by simp [hm]
  rw [h.plain.makeDirectory_stop here hd hn hl, if_neg hz']
  by_cases hb : maxNameBytes < nameBytes m
  · rw [if_pos hb] at hmaking ⊢
    simp only [if_neg (mt (h.plain.isDirectory_path here hl).1 hn)]
    exact h.concat_error hz (fun hp => absurd (hp.1 m (by simp)).short (Nat.not_le.2 hb)) hmaking
  · rw [if_neg hb, if_pos hm, if_pos rfl]
    obtain ⟨-, -, hp⟩ := ((h.directory d).1 hd).resolve_left (by simp [hnone'])
    exact h.concat (passable_append hp ⟨hl m (by simp), fun h => hz' ⟨m, by simp, h⟩, Nat.not_lt.1 hb⟩ (hfile hnone))

/-- Below a name that leads nowhere there is nothing. -/
theorem WellFormed.get?_missing {t : FileTree} (ht : WellFormed t) {dir : Location} {n : List Char}
    (h : t.get? (dir ++ [n]) = none) (rest : List (List Char)) : t.get? (dir ++ n :: rest) = none := by
  cases rest with
  | nil => exact h
  | cons k ks =>
    have hd : t.get? (dir ++ [n]) ≠ some .directory := by simp [h]
    simpa using ht.get?_below hd (List.cons_ne_nil k ks)

theorem Plain.madeBy_makeParents {t : FileTree} (ht : Plain t) (here : Location) {d : Location} (hd : AreNames d)
    {fuel : Nat} (hf : d.length < fuel) : MadeBy t d (makeParents here fuel t d.path) := by
  induction fuel generalizing d with
  | zero => omega
  | succ fuel ih =>
    have he : d.path.isEmpty = false := rfl
    unfold makeParents
    rw [he, if_neg Bool.false_ne_true]
    rcases exists_front t [] rfl d with h | ⟨dir, n, rest, rfl, hdir, hn⟩
    · rw [List.nil_append] at h
      have hm : t.makeDirectory here d.path = .error .alreadyExists := by
        rw [makeDirectory, ht.resolve_directory h]
        rfl
      simp only [hm, (ht.isDirectory_path here hd).2 h, if_true]
      exact ht.madeBy_there h
    rw [List.nil_append] at hdir hn
    have hisd := mt (ht.isDirectory_path here hd).1 fun h => hn (ht.get?_onWay h ⟨rest, by simp⟩)
    rcases ht.madeBy_once here hdir hn hd with ⟨e, hne, hm, hmade⟩ | ⟨t', hm, hmade⟩ | ⟨hr, hz, hg, hm⟩
    · simp only [hm, if_neg hisd]
      exact hmade
    · simp only [hm]
      exact hmade
    · obtain ⟨front, m, rfl⟩ := exists_eq_append hr
      have hs : dir ++ n :: (front ++ [m]) = dir ++ n :: front ++ [m] := by simp
      rw [hs] at hd hm hf ⊢
      have hz' : ¬ HasNul (dir ++ n :: front ++ [m]) := by
        rw [← hs, hasNul_append, or_iff_right (ht.not_hasNul hdir)]
        exact hz
      have hnone : t.get? (dir ++ n :: front ++ [m]) = none := hs ▸ ht.get?_missing hg (front ++ [m])
      have hnone' := ht.get?_missing hg front
      have hlt : (dir ++ n :: front).length < fuel := by
        rw [List.length_append, List.length_singleton] at hf
        omega
      have hmade := ih hd.left hlt
      have hadds := makeParents_addsDirectories here fuel t (Location.path (dir ++ n :: front))
      simp only [hm, Location.parent?_path hd]
      cases hr : makeParents here fuel t (Location.path (dir ++ n :: front)) with
      | mk t₁ r =>
        rw [hr] at hmade hadds
        cases r with
        | error e =>
          have hmaking := making_concat hz' (t := t) (by simp [fileAt?, hnone'])
          rw [← hmade.result] at hmaking
          exact hmade.concat_error hz' (fun hp => by rw [hp.making] at hmaking; cases hmaking) hmaking
        | ok _ =>
          have hkept : t₁.get? (dir ++ n :: front ++ [m]) = none :=
            (hmade.elsewhere hadds fun hp => absurd hp.length_le (by simp)).trans hnone
          exact hmade.again here (hmade.there hd.left rfl) hnone hnone' hkept hd hz'

/-- Making directories ends by the files on the way, and adds those that are entered. -/
theorem Plain.madeBy_makeDirectories {t : FileTree} (ht : Plain t) (here : Location) {d : Location} (hd : AreNames d) :
    MadeBy t d (t.makeDirectories here d.path) := by
  refine ht.madeBy_makeParents here hd ?_
  have := hd.length_le_glue
  simp only [Location.path, List.length_cons]
  omega

/-- What has come of making a directory with those above it: if it could be made, it is there. -/
structure Made (t : FileTree) (d : Location) (made : FileTree × Except FileError Unit) : Prop where
  plain : Plain made.1
  elsewhere : ∀ l, ¬ l <+: d → made.1.get? l = t.get? l
  directory : made.2 = .ok () → made.1.get? d = some .directory
  ok : t.Passable d → made.2 = .ok ()

theorem Plain.made_makeDirectories {t : FileTree} (ht : Plain t) (here : Location) {d : Location} (hd : AreNames d) :
    Made t d (t.makeDirectories here d.path) := by
  have h := ht.madeBy_makeDirectories here hd
  exact ⟨h.plain, fun l hl => h.elsewhere (makeDirectories_addsDirectories t here d.path) hl, h.there hd,
    fun hp => h.result.trans hp.making⟩

theorem Plain.write_below {t : FileTree} (ht : Plain t) (here : Location) {dir : Location} {n : List Char}
    (hd : t.get? dir = some .directory) (hl : AreNames (dir ++ [n])) (content : Content) :
    t.write here (Location.path (dir ++ [n])) content =
      if t.get? (dir ++ [n]) = some .directory then .error .isDirectory
      else if HasNul [n] then .error .nulInName
      else if maxNameBytes < nameBytes n then .error .nameTooLong
      else .ok (t.set (dir ++ [n]) (.file content)) := by
  unfold write
  by_cases hn : t.get? (dir ++ [n]) = some .directory
  · rw [if_pos hn, ht.resolve_directory hn]
    rfl
  have hr : t.resolve here (Location.path (dir ++ [n])) true =
      if HasNul [n] then .error .nulInName else stopAt t dir n [] := ht.resolve_stop hd hn hl here true
  rw [if_neg hn, hr, stopAt]
  split
  · rfl
  · split
    · rfl
    · cases hg : t.get? (dir ++ [n]) with
      | none => rfl
      | some e =>
        cases e with
        | directory => exact absurd hg hn
        | link target => exact absurd hg (ht.no_link _ _)
        | file old => rfl

theorem Plain.resolve_missing {t : FileTree} (ht : Plain t) (here : Location) {dir : Location} {n : List Char}
    (hd : t.get? dir ≠ some .directory) (hl : AreNames (dir ++ [n])) (fl : Bool) :
    ∃ e, t.resolve here (Location.path (dir ++ [n])) fl = .error e := by
  obtain h | ⟨front, m, rest, rfl, hf, hm⟩ := exists_front t [] rfl dir
  · exact absurd (by simpa using h) hd
  rw [List.nil_append] at hf hm
  rw [List.append_assoc, List.cons_append] at hl ⊢
  rw [ht.resolve_stop hf hm hl]
  split
  · exact ⟨_, rfl⟩
  · unfold stopAt
    split
    · exact ⟨_, rfl⟩
    · cases t.get? (front ++ [m]) <;> simp

/-- A file is written where its directory is there and the place is not that of a directory. -/
theorem Plain.write_path {t : FileTree} (ht : Plain t) (here : Location) {dir : Location} {n : List Char}
    (hl : AreNames (dir ++ [n])) (content : Content) :
    (t.get? dir = some .directory ∧ Fits n ∧ t.get? (dir ++ [n]) ≠ some .directory ∧
      t.write here (Location.path (dir ++ [n])) content = .ok (t.set (dir ++ [n]) (.file content))) ∨
    (¬ (t.get? dir = some .directory ∧ Fits n ∧ t.get? (dir ++ [n]) ≠ some .directory) ∧
      ∃ e, t.write here (Location.path (dir ++ [n])) content = .error e) := by
  by_cases hd : t.get? dir = some .directory
  swap
  · obtain ⟨e, he⟩ := ht.resolve_missing here hd hl true
    exact .inr ⟨fun h => hd h.1, e, by rw [write, he]; rfl⟩
  rw [ht.write_below here hd hl]
  by_cases hn : t.get? (dir ++ [n]) = some .directory
  · exact .inr ⟨fun h => h.2.2 hn, _, if_pos hn⟩
  rw [if_neg hn]
  by_cases hz : HasNul [n]
  · exact .inr ⟨fun h => h.2.1.no_nul (by simpa [HasNul] using hz), _, if_pos hz⟩
  rw [if_neg hz]
  by_cases hb : maxNameBytes < nameBytes n
  · exact .inr ⟨fun h => absurd h.2.1.short (Nat.not_le.2 hb), _, if_pos hb⟩
  · exact .inl ⟨hd, ⟨hl n (by simp), by simpa [HasNul] using hz, Nat.not_lt.1 hb⟩, hn, if_neg hb⟩

theorem Plain.writtenAt_put {t : FileTree} (ht : Plain t) (here : Location) {dir : Location} {n : List Char}
    (hl : AreNames (dir ++ [n])) (content : Content) :
    WrittenAt t (dir ++ [n]) (t.put here (Location.path (dir ++ [n])) (.file content)) := by
  have hm := ht.made_makeDirectories here hl.left
  have ha := makeDirectories_addsDirectories t here dir.path
  simp only [put, put.above, Location.parent?_path hl]
  refine .of_addsDirectories ?_ ha
  rcases hm.plain.write_path here hl content with ⟨hd, hn, hnd, hw⟩ | ⟨-, e, hw⟩
  · rw [hw]
    exact hm.plain.writtenAt_set hd hn hnd content
  · rw [hw]
    exact (AddsDirectories.rfl _).writtenAt hm.plain _

end ComponentDocs.FileTree
