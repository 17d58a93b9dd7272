import Mathlib.Data.Finset.Erase
import Mathlib.Data.Finset.Insert
import Mathlib.Order.WellFounded
import Mathlib.Data.Fintype.Order
import ThreadingKnowHows.Framework.System

/-!
# Locking in an order

Threads that lock and unlock mutexes, each with its code left. A mutex knows
only whether it is locked; `held` is what a thread has locked and not unlocked
yet. Code that locks in ascending order, and unlocks only what is held
(`Ordered`), never deadlocks: of the mutexes that are waited for, the greatest
is held by a thread that does not wait.
-/

namespace TKH

/-- A step of a thread's code. -/
inductive LockOp (A : Type*)
  | lock (a : A)
  | unlock (a : A)
  deriving DecidableEq

variable {T A : Type*} [DecidableEq T] [DecidableEq A]

structure LockState (T A : Type*) where
  locked : A → Bool
  held : T → Finset A
  code : T → List (LockOp A)

/-- An action is a step of a thread; a thread waits for a mutex that is locked. -/
def lockSystem (code : T → List (LockOp A)) : System (LockState T A) T where
  start := { locked := fun _ => false, held := fun _ => ∅, code := code }
  next s t := match s.code t with
    | [] => none
    | .lock a :: is =>
      if s.locked a then none
      else some {
        locked := Function.update s.locked a true
        held := Function.update s.held t (insert a (s.held t))
        code := Function.update s.code t is }
    | .unlock a :: is => some {
        locked := Function.update s.locked a false
        held := Function.update s.held t ((s.held t).erase a)
        code := Function.update s.code t is }

/-- From the mutexes `held`, the code locks in ascending order, unlocks only
what it has locked, and ends with nothing. -/
def Ordered [LT A] : Finset A → List (LockOp A) → Prop
  | held, [] => held = ∅
  | held, .lock a :: is => (∀ b ∈ held, b < a) ∧ Ordered (insert a held) is
  | held, .unlock a :: is => a ∈ held ∧ Ordered (held.erase a) is

/-- What holds in every state of threads with ordered code. -/
structure Held [LT A] (s : LockState T A) : Prop where
  ordered : ∀ t, Ordered (s.held t) (s.code t)
  locked : ∀ a, s.locked a = true ↔ ∃ t, a ∈ s.held t
  unique : ∀ {t u a}, a ∈ s.held t → a ∈ s.held u → t = u

variable {s s' : LockState T A} {t : T} {code : T → List (LockOp A)}

theorem Held.lock [Preorder A] (h : Held s) {a : A} {is : List (LockOp A)} (hc : s.code t = .lock a :: is)
    (hfree : s.locked a = false) : Held {
      locked := Function.update s.locked a true
      held := Function.update s.held t (insert a (s.held t))
      code := Function.update s.code t is } := by
  have hnone : ∀ u, a ∉ s.held u := fun u hu => by
    rw [(h.locked a).mpr ⟨u, hu⟩] at hfree; cases hfree
  have hmem : ∀ {u b}, b ∈ Function.update s.held t (insert a (s.held t)) u ↔ b ∈ s.held u ∨ (b = a ∧ u = t) := by
    intro u b
    by_cases hu : u = t
    · subst hu; simp [or_comm]
    · simp [hu]
  refine ⟨fun u => ?_, fun b => ?_, fun {u v b} hu hv => ?_⟩
  · dsimp only
    by_cases hu : u = t
    · subst hu
      have := h.ordered u
      rw [hc] at this
      simpa using this.2
    · simpa [hu] using h.ordered u
  · dsimp only
    by_cases hb : b = a
    · subst hb
      simp only [Function.update_self, true_iff]
      exact ⟨t, hmem.mpr (.inr ⟨rfl, rfl⟩)⟩
    · rw [Function.update_of_ne hb, h.locked b]
      exact exists_congr fun u => by rw [hmem]; simp [hb]
  · rcases hmem.mp hu with hu' | ⟨hbu, hut⟩ <;> rcases hmem.mp hv with hv' | ⟨hbv, hvt⟩
    · exact h.unique hu' hv'
    · exact absurd (hbv ▸ hu') (hnone u)
    · exact absurd (hbu ▸ hv') (hnone v)
    · rw [hut, hvt]

theorem Held.unlock [Preorder A] (h : Held s) {a : A} {is : List (LockOp A)} (hc : s.code t = .unlock a :: is) :
    Held {
      locked := Function.update s.locked a false
      held := Function.update s.held t ((s.held t).erase a)
      code := Function.update s.code t is } := by
  have hcode := h.ordered t
  rw [hc] at hcode
  have hmem : ∀ {u b}, b ∈ Function.update s.held t ((s.held t).erase a) u ↔ b ∈ s.held u ∧ b ≠ a := by
    intro u b
    by_cases hu : u = t
    · subst hu; simp [and_comm]
    · simp only [Function.update_of_ne hu]
      refine ⟨fun hb => ⟨hb, ?_⟩, And.left⟩
      rintro rfl
      exact hu (h.unique hb hcode.1)
  refine ⟨fun u => ?_, fun b => ?_, fun hu hv => h.unique (hmem.mp hu).1 (hmem.mp hv).1⟩
  · dsimp only
    by_cases hu : u = t
    · subst hu
      simpa using hcode.2
    · simpa [hu] using h.ordered u
  · dsimp only
    by_cases hb : b = a
    · subst hb
      simp [hmem]
    · rw [Function.update_of_ne hb, h.locked b]
      exact exists_congr fun u => by rw [hmem]; simp [hb]

theorem held_of_reach [Preorder A] (hcode : ∀ t, Ordered ∅ (code t)) (h : (lockSystem code).Reach s) : Held s := by
  refine h.inv (I := Held) ⟨hcode, fun a => ?_, fun hu => ?_⟩ fun {s t s'} _ _ ha hi => ?_
  · simp [lockSystem]
  · simp [lockSystem] at hu
  · simp only [lockSystem] at ha
    split at ha
    · cases ha
    · rename_i a is hc
      split at ha
      · cases ha
      · rename_i hfree
        cases ha
        exact hi.lock hc (Bool.eq_false_iff.mpr hfree)
    · rename_i a is hc
      cases ha
      exact hi.unlock hc

/-- There is no circular wait. -/
theorem exists_step [LinearOrder A] [Finite A] (hcode : ∀ t, Ordered ∅ (code t)) (h : (lockSystem code).Reach s)
    (ht : ∃ t, s.code t ≠ []) : ∃ t, ((lockSystem code).next s t).isSome = true := by
  have hi := held_of_reach hcode h
  by_contra hstuck
  push Not at hstuck
  have hnone : ∀ t, (lockSystem code).next s t = none := fun t => by simpa using hstuck t
  -- a thread that has not finished waits for a mutex that another one holds
  have hwaits : ∀ t, s.code t ≠ [] → ∃ a is, s.code t = .lock a :: is ∧ ∃ u, a ∈ s.held u := fun t hne => by
    have hn := hnone t
    simp only [lockSystem] at hn
    split at hn
    · exact absurd ‹_› hne
    · rename_i a is hc
      split at hn
      · exact ⟨a, is, hc, (hi.locked a).mp ‹_›⟩
      · cases hn
    · cases hn
  let wanted : Set A := {a | ∃ t is, s.code t = .lock a :: is}
  have hwanted : wanted.Nonempty := by
    obtain ⟨t, hne⟩ := ht
    obtain ⟨a, is, hc, -⟩ := hwaits t hne
    exact ⟨a, t, is, hc⟩
  obtain ⟨a, ⟨t, is, hc⟩, hmax⟩ := WellFounded.has_min (wellFounded_gt : WellFounded fun a b : A => a > b) wanted hwanted
  obtain ⟨a', is', hc', u, hu⟩ := hwaits t (by rw [hc]; simp)
  cases hc.symm.trans hc'
  have hordered := hi.ordered u
  have hne : s.code u ≠ [] := fun he => by
    rw [he] at hordered
    rw [show s.held u = ∅ from hordered] at hu
    simp at hu
  obtain ⟨b, is', hcu, -⟩ := hwaits u hne
  rw [hcu] at hordered
  have hlt : a < b := hordered.1 a hu
  exact hmax b ⟨u, is', hcu⟩ hlt

end TKH
