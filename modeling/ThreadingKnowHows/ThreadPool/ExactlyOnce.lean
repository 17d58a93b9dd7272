import Mathlib.Algebra.Order.Group.Multiset
import Mathlib.Data.Multiset.Range
import ThreadingKnowHows.Framework.Ledger
import ThreadingKnowHows.ThreadPool.Calls

/-!
# The thread pool runs each accepted job exactly once

The queue, the workers and the jobs that ended together hold each accepted job
once (`pool_ledger`). The last worker leaves when the pool is stopped and the
queue is empty, and nothing is accepted after the stop, so that in the end all
accepted jobs have run.
-/

namespace TKH.ThreadPool

variable {n : ℕ} {E : Type}

/-- The job a thread has taken and not ended. -/
def holds : Pc → Option ℕ
  | .submit (.job j) _ => some j
  | .worker (.unlock j) | .worker (.running j) | .worker (.finish j) => some j
  | _ => none

def inHand (l : Pc) : Multiset ℕ := (holds l).elim 0 fun j => {j}

theorem pool_ledger [DecidableEq E] [Fintype E] : Ledger (pool n E) held InOrder tested
    (fun d => (d.tasks : Multiset ℕ) + d.ran) (fun d => Multiset.range d.accepted) inHand where
  toAnnotation := pool_annotation
  opens := by
    have : total inHand (pool n E).entry = 0 :=
      Finset.sum_eq_zero fun t _ => by cases t <;> rfl
    simp [pool] at this ⊢
    exact this
  conserves t l := by
    cases l with
    | out =>
      intro k hk
      dsimp only at hk
      split at hk <;> first | rfl | cases hk
    | gone => trivial
    | submit c p =>
      cases p with
      | lock => cases c <;> rfl
      | body =>
        intro d _
        dsimp only
        split
        · cases c <;> rfl
        · have hw : ∀ r, inHand (.submit c (.unlock r)) = inHand (.submit c .body) := by
            intro r; cases c <;> rfl
          simp only [hw, Multiset.range_succ, ← Multiset.coe_add, Multiset.coe_singleton,
            ← Multiset.singleton_add]
          abel
      | unlock r => cases c <;> cases r <;> rfl
      | notify j => cases c <;> rfl
      | ret r => intro d _; cases c <;> rfl
    | worker p =>
      cases p with
      | lock | sleep | unlock | leave => rfl
      | test => intro d _; dsimp only; split <;> rfl
      | body =>
        intro d hp
        dsimp only
        split
        · split <;> rfl
        · rename_i j js hj
          simp only [hj, ← Multiset.cons_coe, inHand, holds, Option.elim, ← Multiset.singleton_add]
          abel
      | running j => exact fun d k hk => by rcases jobStep_iff.mp hk with rfl | rfl <;> rfl
      | finish j =>
        intro d _
        simp only [inHand, holds, Option.elim, ← Multiset.coe_add, Multiset.coe_singleton]
        abel
      | returned => trivial
      | undefined => exact fun d _ => rfl
    | destructor p =>
      cases p with
      | idle => exact fun k hk => by dsimp only at hk; split at hk <;> first | rfl | cases hk
      | lock | unlock | notify => rfl
      | set => exact fun d _ => rfl
      | join i => simp only [pool, destruct]; split <;> [rfl; exact fun d _ => rfl]
      | returned => trivial

/-- Once stopped, the pool stays so and accepts nothing. -/
theorem stopped_step {s s' : State (Thread n E) Cv Data Pc} [DecidableEq E] {a : Act (Thread n E) Pc}
    (h : (pool n E).Step s a s') (hs : s.data.stop = true) :
    s'.data.stop = true ∧ s'.data.accepted = s.data.accepted := by
  rcases h.data with he | ⟨t, l, f, -, -, hc, rfl⟩
  · rw [he]; exact ⟨hs, rfl⟩
  cases l with
  | out | gone => cases hc
  | submit c p =>
    cases p with
    | body => cases hc; simp [hs]
    | ret r => cases hc; exact ⟨hs, rfl⟩
    | _ => cases hc
  | worker p =>
    cases p with
    | test | finish | undefined => cases hc; exact ⟨hs, rfl⟩
    | body => cases hc; dsimp only; split <;> exact ⟨hs, rfl⟩
    | _ => cases hc
  | destructor p =>
    cases p with
    | set => cases hc; exact ⟨rfl, rfl⟩
    | join i =>
      simp only [pool, destruct] at hc
      split at hc <;> cases hc
      exact ⟨hs, rfl⟩
    | _ => cases hc

variable [DecidableEq E] [Fintype E] {s : State (Thread n E) Cv Data Pc}

/-- Each accepted job is in the queue, held by a thread, or has ended. -/
theorem one_place (h : (pool n E).system.Reach s) (j : ℕ) :
    s.data.tasks.count j + (Finset.univ.filter fun t => holds (s.th t).point = some j).card +
      s.data.ran.count j = if j < s.data.accepted then 1 else 0 := by
  have hplace := pool_ledger.one_place h j
  simp only [Multiset.count_add, Multiset.coe_count] at hplace
  omega

theorem in_order (h : (pool n E).system.Reach s) : InOrder s.data :=
  pool_annotation.always (fun _ _ h => h.1) h

/-- Only workers hold jobs. -/
theorem worker_of_holds (h : (pool n E).system.Reach s) {t : Thread n E} {j : ℕ}
    (ht : holds (s.th t).point = some j) : ∃ i, t = .worker i := by
  have hr := pool_local.assert h t
  cases t with
  | worker i => exact ⟨i, rfl⟩
  | external e =>
    rcases hp : (s.th (.external e)).point with _ | _ | ⟨_ | _, _⟩ | _ | _ <;>
      rw [hp] at hr ht <;> first | exact hr.elim | cases ht
  | destructor =>
    rcases hp : (s.th .destructor).point with _ | _ | ⟨_ | _, _⟩ | _ | _ <;>
      rw [hp] at hr ht <;> first | exact hr.elim | cases ht

/-- A worker halts when the pool is stopped and its queue empty. -/
theorem worker_halted (h : (pool n E).system.Reach s) {i : Fin (workers n)}
    (hi : (pool n E).halted s (.worker i) = true) :
    s.th (.worker i) = .run (.worker .returned) ∧ s.data.stop = true ∧ s.data.tasks = [] := by
  have hr := pool_local.assert h (.worker i)
  simp only [Program.halted] at hi
  split at hi
  · rename_i l hl
    rw [hl, Status.point_run] at hr
    split at hi
    · rename_i hc
      cases l with
      | out => cases hc
      | gone => exact hr.elim
      | submit c p => cases p <;> cases hc
      | destructor p => exact hr.elim
      | worker p => cases p <;> cases hc; exact ⟨hl, hr⟩
    · cases hi
  · cases hi

theorem workers_pos (n : ℕ) : 0 < workers n := by
  simp only [workers]; split <;> omega

theorem stopped_path {s' : State (Thread n E) Cv Data Pc} (hs : s.data.stop = true)
    (h : (pool n E).system.Path (fun _ _ => True) s s') :
    s'.data.stop = true ∧ s'.data.accepted = s.data.accepted :=
  h.inv (I := fun s' => s'.data.stop = true ∧ s'.data.accepted = s.data.accepted) ⟨hs, rfl⟩
    fun _ _ ha hi => (stopped_step (Program.step_of_next ha) hi.1).imp id fun he => he.trans hi.2

/-- When the workers have returned, all accepted jobs have run. -/
theorem drained (h : (pool n E).system.Reach s)
    (hall : ∀ i, s.th (.worker i) = .run (.worker .returned)) (hempty : s.data.tasks = []) (j : ℕ) :
    s.data.ran.count j = if j < s.data.accepted then 1 else 0 := by
  have hnone : (Finset.univ.filter fun t => holds (s.th t).point = some j) = ∅ := by
    refine Finset.filter_eq_empty_iff.mpr fun t _ ht => ?_
    obtain ⟨i, rfl⟩ := worker_of_holds h ht
    rw [hall i] at ht
    cases ht
  have := one_place h j
  rw [hempty, hnone] at this
  simpa using this

/-- The pool accepts, runs and drains exactly once. -/
theorem pool_exactly_once {as : List (Act (Thread n E) Pc)}
    (hr : (pool n E).system.run (pool n E).system.start as = some s) :
    (∀ j, s.data.tasks.count j + (Finset.univ.filter fun t => holds (s.th t).point = some j).card +
      s.data.ran.count j = if j < s.data.accepted then 1 else 0) ∧
    (∀ t j, holds (s.th t).point = some j → ∃ i, t = .worker i) ∧
    s.data.taken ++ s.data.tasks = List.range s.data.accepted ∧
    (∀ t c, s.th t = .run (.submit c .body) → ∃ s', (pool n E).system.next s (.exec t) = some s' ∧
      if s.data.stop then s'.th t = .run (.submit c (.unlock none)) ∧ s'.data = s.data
      else s'.th t = .run (.submit c (.unlock (some s.data.accepted))) ∧
        s'.data.tasks = s.data.tasks ++ [s.data.accepted]) ∧
    (∀ t, Recorded (s.th t).point (journal t ((pool n E).system.trace (outputs event) (pool n E).system.start as))) ∧
    ((∀ i, (pool n E).halted s (.worker i) = true) →
      s.data.tasks = [] ∧ (∀ j, s.data.ran.count j = if j < s.data.accepted then 1 else 0) ∧
        ∀ s', (pool n E).system.Path (fun _ _ => True) s s' → s'.data.accepted = s.data.accepted) := by
  have h := System.reach_of_run hr
  refine ⟨one_place h, fun t j => worker_of_holds h, in_order h, fun t c ht => ?_, recorded hr, fun hall => ?_⟩
  · refine ⟨_, (Program.Step.act ht rfl).next, ?_⟩
    cases s.data.stop <;> simp [State.goto]
  · obtain ⟨-, hstop, hempty⟩ := worker_halted h (hall ⟨0, workers_pos n⟩)
    exact ⟨hempty, drained h (fun i => (worker_halted h (hall i)).1) hempty,
      fun s' hp => (stopped_path hstop hp).2⟩

/-- One worker: an external thread submits a job, which submits another one;
then the pool is destroyed. -/
def twoJobs (worker : Thread 1 Unit) : List (Act (Thread 1 Unit) Pc) :=
  let external : Thread 1 Unit := .external ()
  let steps (t : Thread 1 Unit) (k : ℕ) : List (Act (Thread 1 Unit) Pc) := List.replicate k (.exec t)
  [[.ext external (.submit .external .lock)], steps external 5, [.ext external .gone], steps worker 4,
    [.pick worker (.submit (.job 0) .lock)], steps worker 5, [.pick worker (.worker (.finish 0))], steps worker 5,
    [.pick worker (.worker (.finish 1)), .exec worker, .ext .destructor (.destructor .lock)],
    steps .destructor 4, steps worker 4, steps .destructor 2].flatten

theorem pool_exactly_once_two :
    ∃ s, (pool 1 Unit).system.run (pool 1 Unit).system.start (twoJobs (.worker (0 : Fin 1))) = some s ∧
      s.data.tasks = [] ∧ (∀ j, s.data.ran.count j = if j < 2 then 1 else 0) ∧
      ∀ t, Recorded (s.th t).point
        (journal t ((pool 1 Unit).system.trace (outputs event) (pool 1 Unit).system.start (twoJobs (.worker (0 : Fin 1))))) := by
  have hr : ((pool 1 Unit).system.run (pool 1 Unit).system.start (twoJobs (.worker (0 : Fin 1)))).any
      (fun s => s.data.accepted = 2 ∧ ∀ i, (pool 1 Unit).halted s (.worker i)) = true := by decide +kernel
  obtain ⟨s, hs, hp⟩ := System.exists_of_run hr
  obtain ⟨htwo, hall⟩ := of_decide_eq_true hp
  obtain ⟨-, -, -, -, hcalls, h⟩ := pool_exactly_once hs
  exact ⟨s, hs, (h hall).1, htwo ▸ (h hall).2.1, hcalls⟩

end TKH.ThreadPool
