import Mathlib.Data.List.Nodup
import Mathlib.Logic.Function.Basic

/-!
# Linked lists

`Linked next h as`: following `next` from the address `h` leads through the
addresses `as` to null. Such a list is determined by `h` (`Linked.unique`), has
no cycle (`Linked.nodup`), and depends on `next` only at its own nodes
(`Linked.congr`). What a thread owns of such a list it owns alone
(`single_owner_update`).
-/

namespace TKH

variable {A : Type*}

def Linked (next : A → Option A) : Option A → List A → Prop
  | h, [] => h = none
  | h, a :: as => h = some a ∧ Linked next (next a) as

variable {next next' : A → Option A} {h : Option A} {a : A} {as bs : List A}

@[simp] theorem linked_nil : Linked next h [] ↔ h = none := Iff.rfl

@[simp] theorem linked_cons : Linked next h (a :: as) ↔ h = some a ∧ Linked next (next a) as := Iff.rfl

theorem linked_some (hl : Linked next (some a) as) : ∃ bs, as = a :: bs ∧ Linked next (next a) bs := by
  cases as with
  | nil => cases hl
  | cons b bs => obtain ⟨h, hl⟩ := hl; cases h; exact ⟨bs, rfl, hl⟩

theorem linked_none (hl : Linked next none as) : as = [] := by
  cases as with
  | nil => rfl
  | cons b bs => cases hl.1

/-- A list is determined by where it starts. -/
theorem Linked.unique (ha : Linked next h as) (hb : Linked next h bs) : as = bs := by
  induction as generalizing h bs with
  | nil => cases ha; exact (linked_none hb).symm
  | cons a as ih =>
    obtain ⟨rfl, ha⟩ := ha
    obtain ⟨cs, rfl, hc⟩ := linked_some hb
    rw [ih ha hc]

theorem Linked.append (hl : Linked next h (as ++ a :: bs)) : Linked next (next a) bs := by
  induction as generalizing h with
  | nil => exact hl.2
  | cons b as ih => exact ih hl.2

/-- A list has no cycle: behind two equal nodes the same list would follow. -/
theorem Linked.nodup (hl : Linked next h as) : as.Nodup := by
  induction as generalizing h with
  | nil => exact List.nodup_nil
  | cons a as ih =>
    refine List.nodup_cons.mpr ⟨fun ha => ?_, ih hl.2⟩
    obtain ⟨bs, cs, rfl⟩ := List.append_of_mem ha
    have hlen := congrArg List.length (hl.2.unique hl.2.append)
    simp only [List.length_append, List.length_cons] at hlen
    omega

theorem Linked.congr (hl : Linked next h as) (he : ∀ a ∈ as, next' a = next a) : Linked next' h as := by
  induction as generalizing h with
  | nil => exact hl
  | cons a as ih =>
    refine ⟨hl.1, ?_⟩
    rw [he a (List.mem_cons_self ..)]
    exact ih hl.2 fun b hb => he b (List.mem_cons_of_mem _ hb)

/-- A node keeps its only owner when `t` moves to `k`, where it owns no node of
another thread. -/
theorem single_owner_update {τ σ : Type*} [DecidableEq τ] {owns : σ → Option A} {pc : τ → σ} {t : τ} {k : σ}
    (h : ∀ u v a, owns (pc u) = some a → owns (pc v) = some a → u = v)
    (hk : ∀ a, owns k = some a → ∀ u, u ≠ t → owns (pc u) ≠ some a) (u v : τ) (a : A) :
    owns (Function.update pc t k u) = some a → owns (Function.update pc t k v) = some a → u = v := by
  by_cases hu : u = t <;> by_cases hv : v = t
  · subst hu; subst hv; exact fun _ _ => rfl
  · subst hu
    rw [Function.update_self, Function.update_of_ne hv]
    exact fun hn hn' => absurd hn' (hk a hn v hv)
  · subst hv
    rw [Function.update_self, Function.update_of_ne hu]
    exact fun hn hn' => absurd hn (hk a hn' u hu)
  · rw [Function.update_of_ne hu, Function.update_of_ne hv]
    exact h u v a

end TKH
