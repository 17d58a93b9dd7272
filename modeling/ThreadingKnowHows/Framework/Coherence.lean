import Mathlib.Data.List.Basic
import Mathlib.Data.List.Pairwise
import Mathlib.Order.Defs.PartialOrder
import Mathlib.Logic.Function.Basic

/-!
# An atomic variable with stale loads

The values that an atomic variable has had, in its modification order, and for
each thread the latest of them that it has read or written. A relaxed load may
return any value that is not older than that; a read-modify-write reads the
last one.
-/

namespace TKH

variable {τ V : Type*}

structure Atomic (τ V : Type*) where
  first : V
  later : List V
  /-- The place of the latest value that a thread has seen. -/
  seen : τ → ℕ
  seen_le : ∀ t, seen t ≤ later.length

namespace Atomic

/-- The modification order. -/
def mo (a : Atomic τ V) : List V := a.first :: a.later

/-- The last value. -/
def value (a : Atomic τ V) : V := a.mo.getLast (List.cons_ne_nil _ _)

def init (v : V) : Atomic τ V := ⟨v, [], fun _ => 0, fun _ => Nat.zero_le _⟩

variable [DecidableEq τ]

/-- `t` loads the value at the place `i`, if it may. -/
def load (a : Atomic τ V) (t : τ) (i : ℕ) : Option (V × Atomic τ V) :=
  if h : a.seen t ≤ i ∧ i ≤ a.later.length then
    a.mo[i]?.map fun v => (v, { a with
      seen := Function.update a.seen t i
      seen_le := fun u => by
        by_cases hu : u = t
        · subst hu; rw [Function.update_self]; exact h.2
        · rw [Function.update_of_ne hu]; exact a.seen_le u })
  else none

/-- A read-modify-write of `t` stores `v`. -/
def store (a : Atomic τ V) (t : τ) (v : V) : Atomic τ V where
  first := a.first
  later := a.later ++ [v]
  seen := Function.update a.seen t (a.later.length + 1)
  seen_le u := by
    rw [List.length_append, List.length_singleton]
    by_cases hu : u = t
    · subst hu; exact Nat.le_of_eq (Function.update_self ..)
    · rw [Function.update_of_ne hu]; exact Nat.le_succ_of_le (a.seen_le u)

omit [DecidableEq τ] in
@[simp] theorem mo_init (v : V) : (init v : Atomic τ V).mo = [v] := rfl
omit [DecidableEq τ] in
@[simp] theorem value_init (v : V) : (init v : Atomic τ V).value = v := rfl
@[simp] theorem mo_store (a : Atomic τ V) (t : τ) (v : V) : (a.store t v).mo = a.mo ++ [v] := rfl

@[simp] theorem value_store (a : Atomic τ V) (t : τ) (v : V) : (a.store t v).value = v :=
  List.getLast_append_singleton a.mo

omit [DecidableEq τ] in
theorem value_mem (a : Atomic τ V) : a.value ∈ a.mo := List.getLast_mem _

omit [DecidableEq τ] in
/-- If the values have only grown, the last is the greatest. -/
theorem le_value [Preorder V] {a : Atomic τ V} (h : a.mo.Pairwise (· ≤ ·)) {v : V} (hv : v ∈ a.mo) : v ≤ a.value :=
  h.rel_getLast hv

/-- A load changes neither the values nor what another thread has seen. -/
theorem load_iff {a a' : Atomic τ V} {t : τ} {i : ℕ} {v : V} (h : a.load t i = some (v, a')) :
    a.seen t ≤ i ∧ a.mo[i]? = some v ∧ a'.mo = a.mo ∧ a'.value = a.value ∧
      a'.seen = Function.update a.seen t i := by
  simp only [load] at h
  split at h
  · rename_i hi
    obtain ⟨w, hw, he⟩ := Option.map_eq_some_iff.mp h
    cases he
    exact ⟨hi.1, hw, rfl, rfl, rfl⟩
  · cases h

end Atomic

end TKH
