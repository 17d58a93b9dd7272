import Mathlib.Algebra.BigOperators.Group.Finset.Basic
import Mathlib.Algebra.BigOperators.Group.Finset.Piecewise
import Mathlib.Algebra.Order.BigOperators.Group.Finset
import Mathlib.Data.Fintype.Basic

/-!
# Totals over the threads

`total w f` adds up what each thread contributes (`w`) at its place `f t`.
Counts of threads and multisets of what the threads hold are both totals;
`total_update` says how one changes when a single thread moves.
-/

namespace TKH

variable {τ β M : Type*} [Fintype τ]

/-- The sum over all threads of `w` of where the thread is. -/
def total [AddCommMonoid M] (w : β → M) (f : τ → β) : M := ∑ t, w (f t)

theorem total_congr [AddCommMonoid M] {w w' : β → M} {f f' : τ → β}
    (h : ∀ t, w (f t) = w' (f' t)) : total w f = total w' f' :=
  Finset.sum_congr rfl fun t _ => h t

theorem total_le {w w' : β → ℕ} {f f' : τ → β} (h : ∀ t, w (f t) ≤ w' (f' t)) :
    total w f ≤ total w' f' :=
  Finset.sum_le_sum fun t _ => h t

theorem total_eq_zero {w : β → ℕ} {f : τ → β} : total w f = 0 ↔ ∀ t, w (f t) = 0 := by
  simp [total, Finset.sum_eq_zero_iff]

/-- A total to which only `t` contributes. -/
theorem total_eq_single [AddCommMonoid M] {w : β → M} {f : τ → β} {t : τ} (h : ∀ u, u ≠ t → w (f u) = 0) :
    total w f = w (f t) :=
  Finset.sum_eq_single t (fun u _ hu => h u hu) fun ht => absurd (Finset.mem_univ t) ht

theorem single_le_total (w : β → ℕ) (f : τ → β) (t : τ) : w (f t) ≤ total w f :=
  Finset.single_le_sum (f := fun u => w (f u)) (fun _ _ => Nat.zero_le _) (Finset.mem_univ t)

theorem exists_of_total_pos {w : β → ℕ} {f : τ → β} (h : 0 < total w f) : ∃ t, 0 < w (f t) := by
  by_contra hn
  push Not at hn
  rw [total_eq_zero.mpr fun t => Nat.le_zero.mp (hn t)] at h
  exact absurd h (Nat.lt_irrefl 0)

variable [DecidableEq τ]

/-- Of a total of at most 1 one thread has all. -/
theorem eq_of_total_le_one {w : β → ℕ} {f : τ → β} (h : total w f ≤ 1) {t u : τ} (ht : 0 < w (f t))
    (hu : 0 < w (f u)) : t = u := by
  by_contra hne
  have hle : ∑ x ∈ {t, u}, w (f x) ≤ total w f := Finset.sum_le_sum_of_subset (Finset.subset_univ _)
  rw [Finset.sum_pair hne] at hle
  omega

/-- A total, with what `t` contributes apart. -/
theorem total_eq_add [AddCommMonoid M] (w : β → M) (f : τ → β) (t : τ) :
    total w f = w (f t) + ∑ u ∈ Finset.univ.erase t, w (f u) := by
  rw [total, ← Finset.add_sum_erase _ _ (Finset.mem_univ t)]

theorem total_update_eq_add [AddCommMonoid M] (w : β → M) (f : τ → β) (t : τ) (x : β) :
    total w (Function.update f t x) = w x + ∑ u ∈ Finset.univ.erase t, w (f u) := by
  rw [total_eq_add w _ t, Function.update_self]
  refine congrArg (w x + ·) (Finset.sum_congr rfl fun u hu => ?_)
  rw [Function.update_of_ne (Finset.ne_of_mem_erase hu)]

/-- How a total changes when `t` moves to `x`. -/
theorem total_update [AddCommMonoid M] (w : β → M) (f : τ → β) (t : τ) (x : β) :
    total w (Function.update f t x) + w (f t) = total w f + w x := by
  rw [total_update_eq_add, total_eq_add w f t, add_right_comm, add_comm (w x), add_right_comm]

/-- A move that does not change what the thread contributes keeps the total. -/
theorem total_update_eq [AddCommMonoid M] {w : β → M} {f : τ → β} {t : τ} {x : β}
    (h : w x = w (f t)) : total w (Function.update f t x) = total w f :=
  total_congr fun u => by
    by_cases hu : u = t
    · subst hu; rw [Function.update_self, h]
    · rw [Function.update_of_ne hu]

end TKH
