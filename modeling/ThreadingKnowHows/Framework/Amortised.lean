import Mathlib.Algebra.Ring.Nat
import ThreadingKnowHows.Framework.System
import ThreadingKnowHows.Framework.Total

/-!
# Amortised accounting

The length of a run is bounded by what its steps can be paid from: a potential
that they use up, what the actions pay in, and what they are charged to
(`System.length_add_le_of_pay`). A potential that adds up what the threads have
yet to do grows with what a step of one of them costs the others
(`total_update_le`).
-/

namespace TKH

theorem total_le_mul {τ β : Type*} [Fintype τ] {w : β → ℕ} {f : τ → β} {c : ℕ} (h : ∀ t, w (f t) ≤ c) :
    total w f ≤ c * Fintype.card τ := by
  have hle : total w f ≤ total (fun _ => c) f := total_le h
  rwa [total.eq_1 (fun _ => c), Finset.sum_const_nat fun _ _ => rfl, Finset.card_univ, Nat.mul_comm] at hle

/-- How much a total grows at most when `t` moves to `x`, and what each of the
others contributes grows by at most `d`. -/
theorem total_update_le {τ β : Type*} [Fintype τ] [DecidableEq τ] {w w' : β → ℕ} {f : τ → β}
    {t : τ} {d : ℕ} (h : ∀ u, u ≠ t → w' (f u) ≤ w (f u) + d) (x : β) :
    total w' (Function.update f t x) + w (f t) ≤ total w f + w' x + d * (Fintype.card τ - 1) := by
  have hle : ∑ u ∈ Finset.univ.erase t, w' (f u) ≤ ∑ u ∈ Finset.univ.erase t, (w (f u) + d) :=
    Finset.sum_le_sum fun u hu => h u (Finset.ne_of_mem_erase hu)
  rw [Finset.sum_add_distrib, Finset.sum_const_nat fun _ _ => rfl, Finset.card_erase_of_mem (Finset.mem_univ t),
    Finset.card_univ, Nat.mul_comm] at hle
  rw [total_update_eq_add, total_eq_add w f t]
  omega

/-- Amortised accounting: if each step costs 1 of `f`, of what the action pays
in, or of what it adds to `g`, these together bound the length of a run. -/
theorem System.length_add_le_of_pay {σ α : Type*} {S : System σ α} {f g : σ → ℕ} {pay : α → ℕ}
    (hf : ∀ {s a s'}, S.Reach s → S.next s a = some s' → f s' + g s + 1 ≤ f s + g s' + pay a) {as : List α} {s₀ s : σ}
    (h₀ : S.Reach s₀) (h : S.run s₀ as = some s) : as.length + f s + g s₀ ≤ f s₀ + g s + (as.map pay).sum := by
  induction as generalizing s₀ with
  | nil =>
    cases h
    simp
  | cons a as ih =>
    obtain ⟨s₁, ha, hr⟩ := run_cons h
    have h1 := hf h₀ ha
    have h2 := ih (.step h₀ trivial ha) hr
    rw [List.length_cons, List.map_cons, List.sum_cons]
    omega

end TKH
