import ComponentDocs.FileTree.Update
import ComponentDocs.FileTree.Walk
import ComponentDocs.Proofs.Path.Join
import ComponentDocs.Proofs.Stages
/-! What is found, read and written does not depend on where paths start from, if they are anchored. -/
namespace ComponentDocs.FileTree
open ComponentDocs.Path

variable {p : Path} (hp : p.IsAnchored) (t : FileTree) (x y : Location)

section Anchored
include hp

theorem resolve_anchored (followLast : Bool) : t.resolve x p followLast = t.resolve y p followLast := by
  unfold resolve
  rcases hp with hp | hp
  · simp only [hp, if_true]
  · simp only [hp, if_true]

theorem find_anchored : t.find x p = t.find y p := by rw [find, find, resolve_anchored hp t x y]

theorem exists?_anchored : t.exists? x p = t.exists? y p := by rw [exists?, exists?, find_anchored hp t x y]

theorem isDirectory_anchored : t.isDirectory x p = t.isDirectory y p := by
  rw [isDirectory, isDirectory, find_anchored hp t x y]

theorem readText_anchored : t.readText x p = t.readText y p := by
  rw [readText, readText, read, read, find_anchored hp t x y]

theorem write_anchored (content : Content) : t.write x p content = t.write y p content := by
  rw [write, write, resolve_anchored hp t x y]

theorem makeDirectory_anchored : t.makeDirectory x p = t.makeDirectory y p := by
  rw [makeDirectory, makeDirectory, resolve_anchored hp t x y]

end Anchored

theorem makeParents_anchored (fuel : Nat) (t : FileTree) {p : Path} (hp : p.IsAnchored) :
    makeParents x fuel t p = makeParents y fuel t p := by
  induction fuel generalizing t p with
  | zero => rfl
  | succ fuel ih =>
    have hparents : ∀ parent ∈ p.parent?, makeParents x fuel t parent = makeParents y fuel t parent :=
      fun parent h => ih t (hp.parent? h)
    simp only [makeParents, makeDirectory_anchored hp _ x y, isDirectory_anchored hp _ x y]
    split
    · rfl
    · split
      · rfl
      · cases hparent : p.parent? with
        | none => rfl
        | some parent => simp only [hparents parent hparent]
      · rfl

theorem makeDirectories_anchored (t : FileTree) {p : Path} (hp : p.IsAnchored) :
    t.makeDirectories x p = t.makeDirectories y p :=
  makeParents_anchored x y _ t hp

/-- All that is found below a path from the root is found by paths from the root. -/
theorem walkBelow_anchored (skip : List Char → Bool) (fuel : Nat) (passed : List Location) {way : Path}
    (hway : way.isAbsolute = true) (dir : Location) :
    walkBelow t x skip fuel passed way dir = walkBelow t y skip fuel passed way dir := by
  induction fuel generalizing passed way dir with
  | zero => rfl
  | succ fuel ih =>
    unfold walkBelow
    refine List.flatMap_congr fun entry _ => ?_
    obtain ⟨name, e⟩ := entry
    have hname : (way.join ⟨name⟩).isAbsolute = true := isAbsolute_join_left hway _
    simp only [ih _ hname, find_anchored (.of_isAbsolute hname) t x y]

theorem foundBelow_anchored {p : Path} (hp : p.isAbsolute = true) (skip : List Char → Bool) :
    t.foundBelow x p skip = t.foundBelow y p skip := by
  unfold foundBelow
  rw [find_anchored (.of_isAbsolute hp) t x y]
  simp only [walkBelow_anchored t x y skip _ _ hp]

end ComponentDocs.FileTree

/-! Trees that are the same but for the texts of some files. Paths lead to the same places in them. -/
namespace ComponentDocs.FileTree

/-- Where the second tree is not the same as the first, there is a file in both, and their texts are related. -/
def Retold (R : String → String → Prop) (t t' : FileTree) : Prop :=
  ∀ l, t'.get? l = t.get? l ∨ ∃ text text', t.get? l = some (.file (.text text)) ∧
    t'.get? l = some (.file (.text text')) ∧ R text text'

/-- The two ends of a path: the same, or files with related texts at the same place. -/
def Place.Retold (R : String → String → Prop) (p p' : Place) : Prop :=
  p' = p ∨ ∃ l text text', p = .taken l (.file (.text text)) ∧ p' = .taken l (.file (.text text')) ∧ R text text'

variable {R : String → String → Prop} {t t' : FileTree} (h : Retold R t t')

theorem retold_set (t : FileTree) {l : Location} (hl : l ≠ []) {text text' : String} (hR : R text text') :
    Retold R (t.set l (.file (.text text))) (t.set l (.file (.text text'))) := by
  intro m
  by_cases hm : m = l
  · subst hm
    exact .inr ⟨text, text', get?_set_self t hl _, get?_set_self t hl _, hR⟩
  · exact .inl ((get?_set_of_ne t hm _).trans (get?_set_of_ne t hm _).symm)

include h

theorem walk_retold (followLast : Bool) (dir : Location) (pieces : List (List Char)) :
    walk t' followLast dir pieces = walk t followLast dir pieces ∨
      ∃ p p', walk t followLast dir pieces = .place p ∧ walk t' followLast dir pieces = .place p' ∧
        Place.Retold R p p' := by
  induction pieces generalizing dir with
  | nil => exact .inl rfl
  | cons piece rest ih =>
    unfold walk
    split
    · exact ih dir
    · exact ih dir.dropLast
    · split
      · exact .inl rfl
      · rcases h (dir ++ [piece]) with heq | ⟨text, text', ht, ht', hR⟩
        · rw [heq]
          rcases t.get? (dir ++ [piece]) with _ | _ | _ | _
          · exact .inl rfl
          · exact .inl rfl
          · exact ih (dir ++ [piece])
          · exact .inl rfl
        · rw [ht, ht']
          dsimp only
          split
          · exact .inr ⟨_, _, rfl, rfl, .inr ⟨_, _, _, rfl, rfl, hR⟩⟩
          · exact .inl rfl

theorem follow_retold (followLast : Bool) (links : Nat) (dir : Location) (pieces : List (List Char)) :
    Paired (Place.Retold R) (follow t followLast links dir pieces) (follow t' followLast links dir pieces) := by
  induction links generalizing dir pieces with
  | zero =>
    unfold follow
    rcases walk_retold h followLast dir pieces with heq | ⟨p, p', hp, hp', hR⟩
    · rw [heq]
      exact .of_refl (fun _ => .inl rfl) _
    · rw [hp, hp']
      exact .ok hR
  | succ links ih =>
    unfold follow
    rcases walk_retold h followLast dir pieces with heq | ⟨p, p', hp, hp', hR⟩
    · rw [heq]
      rcases walk t followLast dir pieces with p | ⟨way, target, rest⟩ | e
      · exact .ok (.inl rfl)
      · dsimp only
        split
        · exact .error _
        · exact ih _ _
      · exact .error _
    · rw [hp, hp']
      exact .ok hR

theorem resolve_retold (cwd : Location) (p : Path) (followLast : Bool) :
    Paired (Place.Retold R) (t.resolve cwd p followLast) (t'.resolve cwd p followLast) := by
  unfold resolve
  split
  · exact .error _
  · split
    · exact .error _
    · exact follow_retold h _ _ _ _

theorem find_retold (cwd : Location) (p : Path) :
    Paired (fun a b => b = a ∨ ∃ l text text', a = (l, .file (.text text)) ∧ b = (l, .file (.text text')) ∧ R text text')
      (t.find cwd p) (t'.find cwd p) := by
  refine (resolve_retold h cwd p true).bind fun a b hab => ?_
  rcases hab with rfl | ⟨l, text, text', rfl, rfl, hR⟩
  · exact .of_refl (fun _ => .inl rfl) _
  · exact .ok (.inr ⟨l, text, text', rfl, rfl, hR⟩)

theorem exists?_retold (cwd : Location) (p : Path) : t'.exists? cwd p = t.exists? cwd p := by
  have hfind := find_retold h cwd p
  unfold exists?
  generalize t.find cwd p = r, t'.find cwd p = r' at hfind ⊢
  cases hfind <;> rfl

theorem canonicalize_retold (cwd : Location) (p : Path) : t'.canonicalize cwd p = t.canonicalize cwd p := by
  refine (Paired.map (find_retold h cwd p) fun a b hab => ?_).eq.symm
  rcases hab with rfl | ⟨l, text, text', rfl, rfl, -⟩
  · rfl
  · rfl

theorem readText_retold (cwd : Location) (p : Path) :
    Paired (fun text text' => text' = text ∨ R text text') (t.readText cwd p) (t'.readText cwd p) := by
  have hread : Paired (fun a b => b = a ∨ ∃ text text', a = .text text ∧ b = .text text' ∧ R text text')
      (t.read cwd p) (t'.read cwd p) := by
    refine (find_retold h cwd p).bind fun a b hab => ?_
    rcases hab with rfl | ⟨l, text, text', rfl, rfl, hR⟩
    · exact .of_refl (fun _ => .inl rfl) _
    · exact .ok (.inr ⟨text, text', rfl, rfl, hR⟩)
  refine hread.bind fun a b hab => ?_
  rcases hab with rfl | ⟨text, text', rfl, rfl, hR⟩
  · exact .of_refl (fun _ => .inl rfl) _
  · exact .ok (.inr hR)

end ComponentDocs.FileTree
