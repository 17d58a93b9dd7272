import ThreadingKnowHows.Deadlock.Model

/-!
# When opposite orders deadlock

`bad_a` and `bad_b` come to their ends in exactly those runs that go through no
state in which each waits for the other (`deadlock_run_ends_iff`).
-/

namespace TKH.Deadlock

variable {A : Type} [DecidableEq A] {m1 m2 : A}

theorem balanced_bad (h : m1 ≠ m2) (t : Bool) : Balanced ∅ (if t then badB m1 m2 else badA m1 m2) := by
  have h' := h.symm
  cases t
  · simp [badA, Balanced, h', Finset.erase_insert_eq_erase]
  · simp [badB, Balanced, h, Finset.erase_insert_eq_erase]

/-- If no thread can go on after a run, the threads are at their ends, with both
mutexes free, exactly if they have never waited for each other. -/
theorem deadlock_run_ends_iff (h : m1 ≠ m2) {as : List Bool} {s : LockState Bool A}
    (hr : (deadlockRun m1 m2).run (deadlockRun m1 m2).start as = some s)
    (hq : ∀ t, (deadlockRun m1 m2).next s t = none) :
    ((∀ t, s.code t = []) ∧ ∀ a, s.locked a = false) ↔
      (deadlockRun m1 m2).Always (fun s => ¬ (Waits s false true ∧ Waits s true false)) (deadlockRun m1 m2).start as := by
  have hacc : ∀ {s}, (deadlockRun m1 m2).Reach s → Accounted s := accounted (balanced_bad h)
  have hs := hacc (System.reach_of_run hr)
  have hpersist : ∀ {s : LockState Bool A} {t s'}, (deadlockRun m1 m2).Reach s →
      (deadlockRun m1 m2).next s t = some s' →
      ¬ (Waits s' false true ∧ Waits s' true false) → ¬ (Waits s false true ∧ Waits s true false) := by
    intro s t s' hs ha
    rw [← (hacc hs).circularWait_bool, ← (hacc (.step hs trivial ha)).circularWait_bool]
    exact mt fun hc => hc.step (hacc hs) ha
  rw [and_iff_left_of_imp hs.free, System.always_iff_last hpersist .refl hr, ← hs.circularWait_bool]
  exact hs.finished_iff hq

/-- Each thread locks its first mutex. -/
theorem deadlock_run_ends_iff_stuck :
    ∃ s, (deadlockRun 1 2).run (deadlockRun 1 2).start [false, true] = some s ∧
      (∀ t, (deadlockRun 1 2).next s t = none) ∧ ¬ ((∀ t, s.code t = []) ∧ ∀ a, s.locked a = false) ∧
      ¬ (deadlockRun 1 2).Always (fun s => ¬ (Waits s false true ∧ Waits s true false)) (deadlockRun 1 2).start
        [false, true] := by
  have hr : ((deadlockRun 1 2).run (deadlockRun 1 2).start [false, true]).any
      (fun s => (∀ t, ((deadlockRun 1 2).next s t).isNone = true) ∧ s.code false ≠ []) = true := by
    decide +kernel
  obtain ⟨s, hs, hp⟩ := System.exists_of_run hr
  obtain ⟨hnone, hne⟩ := of_decide_eq_true hp
  have hq : ∀ t, (deadlockRun 1 2).next s t = none := fun t => Option.isNone_iff_eq_none.mp (hnone t)
  have hend : ¬ ((∀ t, s.code t = []) ∧ ∀ a, s.locked a = false) := fun he => hne (he.1 false)
  exact ⟨s, hs, hq, hend, fun h => hend ((deadlock_run_ends_iff (by decide) hs hq).mpr h)⟩

end TKH.Deadlock
