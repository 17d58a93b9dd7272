import Mathlib.Data.Finset.Insert
import Mathlib.Data.Finset.Erase

/-!
# Shared mutexes

A mutex that any number of threads hold shared, or one exclusively. Nothing is
said about who gets it first.
-/

namespace TKH

variable {τ : Type*}

structure SharedMutex (τ : Type*) where
  shared : Finset τ
  exclusive : Option τ
  excludes : exclusive ≠ none → shared = ∅

namespace SharedMutex

/-- Nobody holds it. -/
def free : SharedMutex τ := ⟨∅, none, fun _ => rfl⟩

/-- `t` may hold it as well as the others that hold it shared. -/
def lockShared [DecidableEq τ] (m : SharedMutex τ) (t : τ) : Option (SharedMutex τ) :=
  if h : m.exclusive = none then some ⟨insert t m.shared, m.exclusive, fun hn => absurd h hn⟩ else none

def unlockShared [DecidableEq τ] (m : SharedMutex τ) (t : τ) : SharedMutex τ :=
  ⟨m.shared.erase t, m.exclusive, fun h => by rw [m.excludes h]; rfl⟩

/-- `t` may hold it alone. -/
def lock [DecidableEq τ] (m : SharedMutex τ) (t : τ) : Option (SharedMutex τ) :=
  if h : m.exclusive = none ∧ m.shared = ∅ then some ⟨m.shared, some t, fun _ => h.2⟩ else none

def unlock (m : SharedMutex τ) : SharedMutex τ := ⟨m.shared, none, fun h => absurd rfl h⟩

variable [DecidableEq τ] {m m' : SharedMutex τ} {t : τ}

omit [DecidableEq τ] in
theorem some_mk_iff {sh : Finset τ} {ex : Option τ} {h : ex ≠ none → sh = ∅} :
    some (⟨sh, ex, h⟩ : SharedMutex τ) = some m' ↔ m'.shared = sh ∧ m'.exclusive = ex := by
  obtain ⟨sh', ex', h'⟩ := m'
  simp only [Option.some.injEq, SharedMutex.mk.injEq]
  exact ⟨fun ⟨h₁, h₂⟩ => ⟨h₁.symm, h₂.symm⟩, fun ⟨h₁, h₂⟩ => ⟨h₁.symm, h₂.symm⟩⟩

theorem lockShared_iff : m.lockShared t = some m' ↔
    m.exclusive = none ∧ m'.shared = insert t m.shared ∧ m'.exclusive = none := by
  simp only [lockShared]
  split
  · rename_i h
    simp only [some_mk_iff, h, true_and]
  · rename_i h
    exact ⟨fun hn => (by cases hn), fun hm => absurd hm.1 h⟩

theorem lock_iff : m.lock t = some m' ↔
    m.exclusive = none ∧ m.shared = ∅ ∧ m'.shared = ∅ ∧ m'.exclusive = some t := by
  simp only [lock]
  split
  · rename_i h
    simp only [some_mk_iff, h, true_and]
  · rename_i h
    exact ⟨fun hn => (by cases hn), fun hm => absurd ⟨hm.1, hm.2.1⟩ h⟩

end SharedMutex

end TKH
