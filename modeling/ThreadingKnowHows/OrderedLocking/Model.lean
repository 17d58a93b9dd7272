import ThreadingKnowHows.Framework.LockOrder

/-!
# Locking by address

`lock_ordered` and `unlock_two` of `01_pthreads/02_mutex/05_deadlock_demo.c`,
and `take_both` of `04_pitfalls/02_deadlock.cpp`: two mutexes are locked in the
order of their addresses, whichever order the caller names them in. A thread
runs any rounds of these.
-/

namespace TKH.OrderedLocking

variable {A T : Type} [LinearOrder A]

def lockOrdered (x y : A) : List (LockOp A) :=
  if x < y then [.lock x, .lock y] else [.lock y, .lock x]

def unlockTwo (x y : A) : List (LockOp A) := [.unlock x, .unlock y]

def takeBoth (x y : A) : List (LockOp A) :=
  (if x < y then [.lock x, .lock y] else [.lock y, .lock x]) ++ [.unlock x, .unlock y]

/-- Two mutexes, in the order in which the caller names them. -/
structure Pair (A : Type) where
  x : A
  y : A
  distinct : x ≠ y

inductive Round (A : Type)
  /-- `lock_ordered`, and then `unlock_two` with the arguments in the same order
  or `swapped`. -/
  | lockOrdered (p : Pair A) (swapped : Bool)
  | takeBoth (p : Pair A)

def Round.code : Round A → List (LockOp A)
  | lockOrdered p swapped =>
    OrderedLocking.lockOrdered p.x p.y ++ (if swapped then unlockTwo p.y p.x else unlockTwo p.x p.y)
  | takeBoth p => OrderedLocking.takeBoth p.x p.y

def code (rounds : List (Round A)) : List (LockOp A) := rounds.flatMap Round.code

/-- `good_a` and `good_b`. -/
def goodA (m1 m2 : A) (h : m1 ≠ m2) : List (Round A) := [.lockOrdered ⟨m1, m2, h⟩ false]

def goodB (m1 m2 : A) (h : m1 ≠ m2) : List (Round A) := [.lockOrdered ⟨m2, m1, h.symm⟩ true]

/-! ## The code is ordered -/

/-- Two mutexes, locked in ascending order and unlocked in either order. -/
theorem ordered_two {lo hi u v : A} {is : List (LockOp A)} (hlt : lo < hi)
    (huv : (u = lo ∧ v = hi) ∨ (u = hi ∧ v = lo)) (his : Ordered ∅ is) :
    Ordered ∅ (.lock lo :: .lock hi :: .unlock u :: .unlock v :: is) := by
  have hempty : ((insert hi (insert lo ∅) : Finset A).erase u).erase v = ∅ := by
    ext a
    rcases huv with ⟨rfl, rfl⟩ | ⟨rfl, rfl⟩ <;> simp <;> tauto
  refine ⟨by simp, by simpa using hlt, ?_, ?_, by rw [hempty]; exact his⟩
  · rcases huv with ⟨rfl, -⟩ | ⟨rfl, -⟩ <;> simp
  · rcases huv with ⟨rfl, rfl⟩ | ⟨rfl, rfl⟩
    · simpa using hlt.ne'
    · simpa using hlt.ne

/-- The branch that is taken locks the smaller address first. -/
theorem ordered_pair {p : Pair A} {u v : A} {is : List (LockOp A)} (huv : (u = p.x ∧ v = p.y) ∨ (u = p.y ∧ v = p.x))
    (his : Ordered ∅ is) :
    Ordered ∅ ((if p.x < p.y then [.lock p.x, .lock p.y] else [.lock p.y, .lock p.x]) ++
      (.unlock u :: .unlock v :: is)) := by
  split
  · rename_i hlt
    exact ordered_two hlt huv his
  · rename_i hlt
    exact ordered_two (lt_of_le_of_ne (not_lt.mp hlt) p.distinct.symm) huv.symm his

theorem Round.ordered (r : Round A) {is : List (LockOp A)} (his : Ordered ∅ is) : Ordered ∅ (r.code ++ is) := by
  cases r with
  | lockOrdered p swapped =>
    rw [Round.code, List.append_assoc]
    cases swapped with
    | false => exact ordered_pair (.inl ⟨rfl, rfl⟩) his
    | true => exact ordered_pair (.inr ⟨rfl, rfl⟩) his
  | takeBoth p =>
    rw [Round.code, OrderedLocking.takeBoth, List.append_assoc]
    exact ordered_pair (.inl ⟨rfl, rfl⟩) his

theorem ordered_code (rounds : List (Round A)) : Ordered ∅ (code rounds) := by
  induction rounds with
  | nil => rfl
  | cons r rounds ih => exact r.ordered ih

variable [DecidableEq T]

/-- Locking by address excludes, and never deadlocks. -/
theorem ordered_locking_deadlock_free [Finite A] (rounds : T → List (Round A)) {s : LockState T A}
    (h : (lockSystem fun t => code (rounds t)).Reach s) :
    (∀ t u a, a ∈ s.held t → a ∈ s.held u → t = u) ∧
    ((∃ t, s.code t ≠ []) → ∃ t, ((lockSystem fun t => code (rounds t)).next s t).isSome = true) := by
  have hcode : ∀ t, Ordered ∅ (code (rounds t)) := fun t => ordered_code (rounds t)
  exact ⟨fun t u a => (held_of_reach hcode h).unique, exists_step hcode h⟩

/-- `good_a` has locked the first mutex, which `good_b` waits for. -/
theorem ordered_locking_deadlock_free_good :
    let rounds : Bool → List (Round Bool) := fun t =>
      if t then goodA false true (by decide) else goodB false true (by decide)
    ∃ s, (lockSystem fun t => code (rounds t)).run (lockSystem fun t => code (rounds t)).start [true] = some s ∧
      (lockSystem fun t => code (rounds t)).next s false = none ∧
      ∃ t, ((lockSystem fun t => code (rounds t)).next s t).isSome = true := by
  intro rounds
  have hr : ((lockSystem fun t => code (rounds t)).run (lockSystem fun t => code (rounds t)).start [true]).any
      (fun s => ((lockSystem fun t => code (rounds t)).next s false).isNone = true ∧ s.code true ≠ []) = true := by
    decide +kernel
  obtain ⟨s, hs, hp⟩ := System.exists_of_run hr
  obtain ⟨hnone, hne⟩ := of_decide_eq_true hp
  obtain ⟨-, hstep⟩ := ordered_locking_deadlock_free rounds (System.reach_of_run hs)
  exact ⟨s, hs, Option.isNone_iff_eq_none.mp hnone, hstep ⟨true, hne⟩⟩

end TKH.OrderedLocking
