import Mathlib.Tactic
import Mathlib.Data.List.Forall2
/-! Computations in stages, each of which may fail, one by one and side by side. -/
namespace ComponentDocs

theorem bind_eq_ok {ε α β : Type} {r : Except ε α} {f : α → Except ε β} {b : β} (h : r >>= f = .ok b) :
    ∃ a, r = .ok a ∧ f a = .ok b := by
  cases r with
  | error e => cases h
  | ok a => exact ⟨a, rfl, h⟩

/-- The same error, or two values that are related. -/
inductive Paired {ε α β : Type} (R : α → β → Prop) : Except ε α → Except ε β → Prop
  | error (e : ε) : Paired R (.error e) (.error e)
  | ok {a : α} {b : β} (h : R a b) : Paired R (.ok a) (.ok b)

namespace Paired
variable {ε α β γ δ : Type} {R : α → β → Prop} {Q : γ → δ → Prop} {r : Except ε α} {r' : Except ε β}

theorem of_refl {R : α → α → Prop} (hR : ∀ a, R a a) (r : Except ε α) : Paired R r r := by
  cases r with
  | error e => exact .error e
  | ok a => exact .ok (hR a)

theorem eq {r r' : Except ε α} (h : Paired Eq r r') : r = r' := by
  cases h with
  | error e => rfl
  | ok h => exact congrArg _ h

theorem bind {f : α → Except ε γ} {f' : β → Except ε δ} (h : Paired R r r')
    (hf : ∀ a b, R a b → Paired Q (f a) (f' b)) : Paired Q (r >>= f) (r' >>= f') := by
  cases h with
  | error e => exact .error e
  | ok h => exact hf _ _ h

theorem map {f : α → γ} {f' : β → δ} (h : Paired R r r') (hf : ∀ a b, R a b → Q (f a) (f' b)) :
    Paired Q (r.map f) (r'.map f') := by
  cases h with
  | error e => exact .error e
  | ok h => exact .ok (hf _ _ h)

theorem foldlM {xs : List γ} {f : α → γ → Except ε α} {f' : β → γ → Except ε β}
    (hf : ∀ x ∈ xs, ∀ a b, R a b → Paired R (f a x) (f' b x)) {a : α} {b : β} (h : R a b) :
    Paired R (xs.foldlM f a) (xs.foldlM f' b) := by
  induction xs generalizing a b with
  | nil => exact .ok h
  | cons x xs ih =>
    obtain ⟨hfirst, hrest⟩ := List.forall_mem_cons.1 hf
    rw [List.foldlM_cons, List.foldlM_cons]
    exact (hfirst a b h).bind fun _ _ h => ih hrest h

end Paired

/-! A list that is gone through once: what a computation makes of its elements, and the elements that it fails on,
both in the order of the list. -/

variable {ε α β : Type}

inductive Sifted (f : α → Except ε β) : List α → List β → List (α × ε) → Prop
  | nil : Sifted f [] [] []
  | ok {a : α} {b : β} {as : List α} {made : List β} {failed : List (α × ε)} (h : f a = .ok b)
    (rest : Sifted f as made failed) : Sifted f (a :: as) (b :: made) failed
  | error {a : α} {e : ε} {as : List α} {made : List β} {failed : List (α × ε)} (h : f a = .error e)
    (rest : Sifted f as made failed) : Sifted f (a :: as) made ((a, e) :: failed)

variable {f : α → Except ε β} {as : List α} {made : List β} {failed : List (α × ε)}

theorem exists_sifted (f : α → Except ε β) (as : List α) : ∃ made failed, Sifted f as made failed := by
  induction as with
  | nil => exact ⟨[], [], .nil⟩
  | cons a as ih =>
    obtain ⟨made, failed, hrest⟩ := ih
    cases h : f a with
    | ok b => exact ⟨b :: made, failed, .ok h hrest⟩
    | error e => exact ⟨made, (a, e) :: failed, .error h hrest⟩

namespace Sifted

theorem mem_made_iff (h : Sifted f as made failed) {b : β} : b ∈ made ↔ ∃ a ∈ as, f a = .ok b := by
  induction h with
  | nil => simp
  | ok h _ ih => simp [h, ih, eq_comm]
  | error h _ ih => simp [h, ih]

/-- The elements that failed are those that the computation fails on, each with its error. -/
theorem forall₂_failed (h : Sifted f as made failed) :
    List.Forall₂ (fun a x => x.1 = a ∧ f a = .error x.2) (as.filter fun a => !(f a).isOk) failed := by
  induction h with
  | nil => exact .nil
  | ok h _ ih => simpa [h, Except.isOk, Except.toBool] using ih
  | error h _ ih => simpa [h, Except.isOk, Except.toBool] using ih

theorem map_fst_failed (h : Sifted f as made failed) : failed.map Prod.fst = as.filter fun a => !(f a).isOk := by
  have hsame := h.forall₂_failed.imp fun _ _ hx => hx.1.symm
  rw [eq_comm, ← List.forall₂_eq_eq_eq, List.forall₂_map_right_iff]
  exact hsame

/-- Nothing failed when the computation does not fail on any element. -/
theorem failed_eq_nil_iff (h : Sifted f as made failed) : failed = [] ↔ ∀ a ∈ as, (f a).isOk = true := by
  have hfail := h.forall₂_failed
  constructor
  · rintro rfl
    simpa using List.forall₂_nil_right_iff.1 hfail
  · intro hok
    have hnone : as.filter (fun a => !(f a).isOk) = [] := by simpa using hok
    rw [hnone] at hfail
    exact List.forall₂_nil_left_iff.1 hfail

theorem map_of_none_failed (h : Sifted f as made []) : as.map f = made.map .ok := by
  generalize hnone : ([] : List (α × ε)) = failed at h
  induction h with
  | nil => rfl
  | ok h _ ih => rw [List.map_cons, List.map_cons, h, ih hnone]
  | error => cases hnone

end Sifted

end ComponentDocs
