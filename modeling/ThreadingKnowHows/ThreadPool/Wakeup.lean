import ThreadingKnowHows.Framework.Wakeup
import ThreadingKnowHows.ThreadPool.ExactlyOnce

/-!
# The thread pool strands neither a worker nor a job

Each job in the queue is an invitation to a sleeping worker. A worker between
its test and its effect accounts for one, and so does a `submit` that has yet
to notify; the destructor has yet to notify all after it has set `stop_`.
-/

namespace TKH.ThreadPool

variable {n : ℕ} {E : Type}

/-- What the workers are told. -/
def jobs : Signal Data Pc where
  need d := d.tasks.length
  weight
    | .worker .test | .worker .body => 1
    | .submit _ (.unlock (some _)) | .submit _ (.notify _) => 1
    | _ => 0
  urgent d := d.stop = true
  rouses
    | .destructor .unlock | .destructor .notify => True
    | _ => False

theorem submit_signals (c : Caller) (p : SubmitPc) :
    (submit c p : Cmd (Thread n E) Cv Data Pc).Signals held tested .cv jobs (.submit c p) := by
  cases p with
  | lock => exact ⟨le_rfl, id⟩
  | body =>
    -- the new job is accounted for by the notification to come
    refine fun d _ => ?_
    dsimp only
    split
    · exact ⟨id, .inl, id, .inl ‹_›⟩
    · exact ⟨id, .inl, id, .inr (.inr (by simp [jobs]))⟩
  | unlock r => cases r <;> exact ⟨le_rfl, id⟩
  | notify j => exact ⟨id, le_rfl⟩
  | ret r => exact fun d _ => ⟨id, .inl, False.elim, .inr (.inr (by cases c <;> exact le_rfl))⟩

theorem workerLoop_signals (p : WorkerPc) :
    (workerLoop p : Cmd (Thread n E) Cv Data Pc).Signals held tested .cv jobs (.worker p) := by
  cases p with
  | lock => exact ⟨Nat.zero_le _, id⟩
  | test =>
    refine fun d _ => ⟨id, .inl, False.elim, .inr ?_⟩
    dsimp only
    split
    · exact .inr le_rfl
    · rename_i h
      exact .inl (by simp [jobs, (mayTake_eq_false.mp (Bool.not_eq_true _ ▸ h)).2])
  | sleep =>
    refine ⟨id, le_rfl, fun d h => ?_⟩
    have h := mayTake_eq_false.mp h.2
    exact ⟨by simp [jobs, h.2], by simp [jobs, h.1]⟩
  | body =>
    refine fun d _ => ?_
    dsimp only
    split
    · rename_i hn
      exact ⟨id, .inl, False.elim, .inr (.inl (by simp [jobs, hn]))⟩
    · rename_i j js hj
      exact ⟨id, .inl, False.elim, .inr (.inr (by simp [jobs, hj]))⟩
  | unlock | leave => exact ⟨le_rfl, id⟩
  | running | returned => exact ⟨rfl, id⟩
  | finish | undefined => exact fun d _ => ⟨id, .inl, id, .inr (.inr le_rfl)⟩

theorem destruct_signals (p : DestructorPc) :
    (destruct p : Cmd (Thread n E) Cv Data Pc).Signals held tested .cv jobs (.destructor p) := by
  cases p with
  | idle | returned => exact ⟨rfl, id⟩
  | lock => exact ⟨le_rfl, False.elim⟩
  | set => exact fun d _ => ⟨fun _ => rfl, fun _ => .inr trivial, False.elim, .inl rfl⟩
  | unlock => exact ⟨le_rfl, id⟩
  | notify => exact fun h => absurd rfl h
  | join i =>
    simp only [destruct]
    split
    · exact ⟨rfl, id⟩
    · exact fun d _ => ⟨id, .inl, False.elim, .inr (.inr le_rfl)⟩

theorem pool_jobs : Waking (pool n E) held InOrder tested .cv jobs where
  toAnnotation := pool_annotation
  signals t l := by
    cases l with
    | out | gone => exact ⟨rfl, id⟩
    | submit c p => exact submit_signals c p
    | worker p => exact workerLoop_signals p
    | destructor p => exact destruct_signals p

/-! ## Quiet states -/

theorem wait_point {t : Thread n E} {l k : Pc} {c : Cv} (h : (pool n E).code t l = .wait c k) :
    k = .worker .test := by
  cases l with
  | out | gone => cases h
  | submit c p => cases p <;> cases h
  | worker p => cases p <;> cases h; rfl
  | destructor p =>
    cases p with
    | join i => simp only [pool, destruct] at h; split at h <;> cases h
    | _ => cases h

variable [DecidableEq E] [Fintype E] {s : State (Thread n E) Cv Data Pc}

/-- In a quiet state a worker sleeps, with nothing to do, or has returned. -/
theorem worker_quiet (h : (pool n E).system.Reach s) (hq : (pool n E).Quiet s) (i : Fin (workers n)) :
    (s.th (.worker i) = .asleep .cv (.worker .test) ∧ s.data.tasks = [] ∧ s.data.stop = false) ∨
      (s.th (.worker i) = .run (.worker .returned) ∧ s.data.stop = true ∧ s.data.tasks = []) := by
  have hr := pool_local.assert h (.worker i)
  rcases (pool_discipline.quiet (pool_discipline.locked h) hq).2 (.worker i) with
    ⟨l, hl, hrest⟩ | ⟨⟨⟩, k, hk⟩
  · rw [hl, Status.point_run] at hr
    cases l with
    | out | gone | destructor => exact hr.elim
    | submit c p => cases p <;> exact hrest.elim
    | worker p =>
      cases p with
      | returned => exact .inr ⟨hl, hr⟩
      | running j =>
        -- a running job ends
        exact (not_step_of_quiet hq (.pick hl rfl (jobStep_iff.mpr (.inr rfl))) trivial).elim
      | _ => exact hrest.elim
  · obtain ⟨l, hc⟩ := Program.wait_of_asleep h hk
    obtain ⟨hn, hu⟩ := pool_jobs.asleep h hq hk
    rw [wait_point hc] at hk
    exact .inl ⟨hk, List.length_eq_zero_iff.mp hn, by simpa [jobs] using hu⟩

/-- In a quiet state the destructor has not been called, or has returned. -/
theorem destructor_quiet (h : (pool n E).system.Reach s) (hq : (pool n E).Quiet s) :
    (s.th .destructor = .run (.destructor .idle) ∧ s.data.stop = false) ∨
      (s.th .destructor = .run (.destructor .returned) ∧ s.data.stop = true) := by
  have hr := pool_local.assert h .destructor
  rcases (pool_discipline.quiet (pool_discipline.locked h) hq).2 .destructor with ⟨l, hl, hrest⟩ | ⟨c, k, hk⟩
  · rw [hl, Status.point_run] at hr
    cases l with
    | out | gone | worker => exact hr.elim
    | submit c p => cases c <;> exact hr.elim
    | destructor p =>
      cases p with
      | idle => exact .inl ⟨hl, hr⟩
      | returned => exact .inr ⟨hl, hr⟩
      | join i =>
        -- the worker it waits for has seen the stop flag
        by_cases hi : i < workers n
        · have hcode : (pool n E).code .destructor (.destructor (.join i)) = _ := dif_pos hi
          refine (not_step_of_quiet hq (.join hl hcode fun u hu => ?_) trivial).elim
          cases u with
          | worker k =>
            rcases worker_quiet h hq k with ⟨-, -, hs⟩ | ⟨hk, -, -⟩
            · rw [show s.data.stop = true from hr] at hs; cases hs
            · simp only [Program.halted, hk]; rfl
          | _ => cases hu
        · have hcode : (pool n E).code .destructor (.destructor (.join i)) = _ := dif_neg hi
          rw [hcode] at hrest
          exact hrest.elim
      | _ => exact hrest.elim
  · obtain ⟨l, hc⟩ := Program.wait_of_asleep h hk
    rw [hk, Status.point_asleep, wait_point hc] at hr
    exact hr.elim

/-- The pool never strands a worker or a job. -/
theorem pool_never_strands (h : (pool n E).system.Reach s) (hq : (pool n E).Quiet s) :
    (s.th .destructor = .run (.destructor .idle) ∧ s.data.tasks = [] ∧
      ∀ i, s.th (.worker i) = .asleep .cv (.worker .test)) ∨
    (s.th .destructor = .run (.destructor .returned) ∧
      (∀ i, s.th (.worker i) = .run (.worker .returned)) ∧
      s.data.tasks = [] ∧ ∀ j, s.data.ran.count j = if j < s.data.accepted then 1 else 0) := by
  have hw := worker_quiet h hq
  rcases destructor_quiet h hq with ⟨hd, hs⟩ | ⟨hd, hs⟩
  · have hw : ∀ i, s.th (.worker i) = .asleep .cv (.worker .test) ∧ s.data.tasks = [] := fun i => by
      rcases hw i with ⟨hi, he, -⟩ | ⟨-, hs', -⟩
      · exact ⟨hi, he⟩
      · rw [hs] at hs'; cases hs'
    exact .inl ⟨hd, (hw ⟨0, workers_pos n⟩).2, fun i => (hw i).1⟩
  · have hw : ∀ i, s.th (.worker i) = .run (.worker .returned) ∧ s.data.tasks = [] := fun i => by
      rcases hw i with ⟨-, -, hs'⟩ | ⟨hi, -, he⟩
      · rw [hs] at hs'; cases hs'
      · exact ⟨hi, he⟩
    have he := (hw ⟨0, workers_pos n⟩).2
    exact .inr ⟨hd, fun i => (hw i).1, he, drained h (fun i => (hw i).1) he⟩

theorem pool_never_strands_two :
    ∃ s, (pool 1 Unit).system.run (pool 1 Unit).system.start (twoJobs (.worker (0 : Fin 1))) = some s ∧
      (pool 1 Unit).Quiet s ∧ s.data.tasks = [] := by
  have hr : ((pool 1 Unit).system.run (pool 1 Unit).system.start (twoJobs (.worker (0 : Fin 1)))).any
      (fun s => ∀ t, (pool 1 Unit).blocked s t) = true := by decide +kernel
  obtain ⟨s, hs, hb⟩ := System.exists_of_run hr
  have hq : (pool 1 Unit).Quiet s := quiet_of_blocked (of_decide_eq_true hb)
  rcases pool_never_strands (System.reach_of_run hs) hq with ⟨-, he, -⟩ | ⟨-, -, he, -⟩
  · exact ⟨s, hs, hq, he⟩
  · exact ⟨s, hs, hq, he⟩

end TKH.ThreadPool
