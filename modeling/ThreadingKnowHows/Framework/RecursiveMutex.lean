import Mathlib.Logic.Function.Basic
import Mathlib.Tactic.Common

/-!
# Recursive mutexes

A mutex that its owner may lock again, and has to unlock as many times. What
the threads hold of it (`held`) says it all: `lock` and `unlock` change that of
the caller by one, and no two threads hold it (`held_unique`).
-/

namespace TKH

variable {τ : Type*}

structure RecursiveMutex (τ : Type*) where
  owner : Option τ
  depth : ℕ
  free_iff : owner = none ↔ depth = 0

namespace RecursiveMutex

/-- Nobody holds it. -/
def free : RecursiveMutex τ := ⟨none, 0, by simp⟩

variable [DecidableEq τ]

/-- `t` locks it, if no other thread holds it. -/
def lock (m : RecursiveMutex τ) (t : τ) : Option (RecursiveMutex τ) :=
  if m.owner = none ∨ m.owner = some t then some ⟨some t, m.depth + 1, by simp⟩ else none

/-- `t` unlocks it once. -/
def unlock (m : RecursiveMutex τ) (t : τ) : Option (RecursiveMutex τ) :=
  if h : m.owner = some t then
    some ⟨if m.depth = 1 then none else some t, m.depth - 1, by
      have hpos : m.depth ≠ 0 := fun hd => by
        have := m.free_iff.mpr hd
        rw [h] at this
        cases this
      split
      · simp [*]
      · simp only [reduceCtorEq, false_iff]
        omega⟩
  else none

/-- How many times `t` has locked it and not unlocked it. -/
def held (m : RecursiveMutex τ) (t : τ) : ℕ := if m.owner = some t then m.depth else 0

variable {m m' : RecursiveMutex τ} {t u : τ}

@[simp] theorem held_free (t : τ) : (free : RecursiveMutex τ).held t = 0 := rfl

theorem held_pos_iff : 0 < m.held t ↔ m.owner = some t := by
  have hfree := m.free_iff
  simp only [held]
  split
  · rename_i ho
    simp only [ho, iff_true]
    rw [ho] at hfree
    have : m.depth ≠ 0 := fun h => by simpa using hfree.mpr h
    omega
  · simp [*]

theorem held_unique (ht : 0 < m.held t) (hu : 0 < m.held u) : t = u :=
  Option.some.inj ((held_pos_iff.mp ht).symm.trans (held_pos_iff.mp hu))

theorem owner_eq_none_iff : m.owner = none ↔ ∀ t, m.held t = 0 := by
  constructor
  · intro h t
    simp [held, h]
  · intro h
    cases ho : m.owner with
    | none => rfl
    | some t =>
      have := held_pos_iff.mpr ho
      rw [h t] at this
      exact absurd this (Nat.lt_irrefl 0)

theorem lock_spec (h : m.lock t = some m') :
    (∀ u, u ≠ t → m.held u = 0) ∧ m'.held = Function.update m.held t (m.held t + 1) := by
  have hfree := m.free_iff
  simp only [lock] at h
  split at h
  · rename_i ho
    cases h
    have hother : ∀ u, u ≠ t → m.held u = 0 := fun u hu => by
      rcases ho with ho | ho <;> simp [held, ho, Ne.symm hu]
    refine ⟨hother, funext fun u => ?_⟩
    by_cases hu : u = t
    · subst hu
      rcases ho with ho | ho
      · simp [held, ho, hfree.mp ho]
      · simp [held, ho]
    · rw [Function.update_of_ne hu, hother u hu]
      simp [held, Ne.symm hu]
  · cases h

theorem unlock_spec (h : m.unlock t = some m') :
    0 < m.held t ∧ m'.held = Function.update m.held t (m.held t - 1) := by
  simp only [unlock] at h
  split at h
  · rename_i ho
    cases h
    refine ⟨held_pos_iff.mpr ho, funext fun u => ?_⟩
    by_cases hu : u = t
    · subst hu
      simp only [held, ho, Function.update_self, if_true]
      split <;> simp_all
    · have hne : t ≠ u := Ne.symm hu
      rw [Function.update_of_ne hu]
      simp only [held, ho, Option.some.injEq, hne, if_false]
      split <;> simp [hne]
  · cases h

end RecursiveMutex

end TKH
