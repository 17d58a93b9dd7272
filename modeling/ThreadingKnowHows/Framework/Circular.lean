import Mathlib.Data.List.Basic
import Mathlib.Data.Nat.ModEq

/-!
# Circular buffers

`circular cap buf tail n` is the list in the `n` slots of `buf` from `tail` on,
modulo `cap`. It grows at its end, into a slot that it does not use
(`circular_store`), and shrinks at its front (`circular_succ`).
-/

namespace TKH

variable {α : Type*} {cap tail n : ℕ}

def circular (cap : ℕ) (buf : ℕ → α) (tail n : ℕ) : List α :=
  (List.range n).map fun k => buf ((tail + k) % cap)

@[simp] theorem length_circular (buf : ℕ → α) : (circular cap buf tail n).length = n := by simp [circular]

@[simp] theorem circular_zero (buf : ℕ → α) : circular cap buf tail 0 = [] := rfl

/-- The slots are different ones, and so is the one after them. -/
theorem slot_ne {k : ℕ} (hk : k < n) (hn : n < cap) : (tail + k) % cap ≠ (tail + n) % cap := by
  intro h
  have hmod : k ≡ n [MOD cap] := Nat.ModEq.add_left_cancel' tail h
  have heq : k = n := by simpa [Nat.ModEq, Nat.mod_eq_of_lt hn, Nat.mod_eq_of_lt (hk.trans hn)] using hmod
  omega

/-- The first slot. -/
theorem circular_succ (buf : ℕ → α) :
    circular cap buf tail (n + 1) = buf (tail % cap) :: circular cap buf ((tail + 1) % cap) n := by
  simp only [circular, List.range_succ_eq_map, List.map_cons, List.map_map, Nat.add_zero, List.cons.injEq, true_and]
  refine List.map_congr_left fun k _ => ?_
  simp only [Function.comp_apply, Nat.mod_add_mod]
  congr 2
  omega

/-- Storing into the next slot. -/
theorem circular_store (buf : ℕ → α) (v : α) (hn : n < cap) :
    circular cap (Function.update buf ((tail + n) % cap) v) tail (n + 1) = circular cap buf tail n ++ [v] := by
  simp only [circular, List.range_succ, List.map_append, List.map_singleton, Function.update_self]
  refine congrArg (· ++ [v]) (List.map_congr_left fun k hk => ?_)
  exact Function.update_of_ne (slot_ne (List.mem_range.mp hk) hn) ..

end TKH
