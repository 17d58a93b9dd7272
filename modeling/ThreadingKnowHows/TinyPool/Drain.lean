import Mathlib.Algebra.Order.Group.Multiset
import Mathlib.Data.Multiset.Range
import ThreadingKnowHows.Framework.Ledger
import ThreadingKnowHows.Framework.Wakeup
import ThreadingKnowHows.TinyPool.Model

/-!
# The tiny pool drains

A job may be put into the queue while the destructor is already joining the
workers, but then a worker has put it there, and that one will look at the
queue again: as long as the queue is not empty some worker has not left
(`empty_of_left`). So when the destructor has joined all workers every job has
run, and in a state where nobody can go on no worker is left behind.
-/

namespace TKH.TinyPool

variable {n : ℕ} {E : Type}

/-! ## Where the jobs are -/

/-- The job a thread has taken and not ended. -/
def holds : Pc → Option ℕ
  | .submit (.job j) _ => some j
  | .worker (.unlock j) | .worker (.running j) | .worker (.finish j) => some j
  | _ => none

def inHand (l : Pc) : Multiset ℕ := (holds l).elim 0 fun j => {j}

theorem pool_ledger [DecidableEq E] [Fintype E] : Ledger (pool n E) held (fun _ => True) tested
    (fun d => (d.q : Multiset ℕ) + d.ran) (fun d => Multiset.range d.submitted) inHand where
  toAnnotation := pool_annotation
  opens := by
    have hw : total inHand (pool n E).entry = 0 := Finset.sum_eq_zero fun t _ => by cases t <;> rfl
    rw [hw]; rfl
  conserves t l := by
    cases l with
    | out => exact fun k hk => by rcases callStep_iff.mp hk with rfl | rfl <;> rfl
    | gone => trivial
    | submit c p =>
      cases p with
      | lock | unlock => cases c <;> rfl
      | emplace =>
        intro d _
        have hw : inHand (.submit c .unlock) = inHand (.submit c .emplace) := by cases c <;> rfl
        simp only [hw, Multiset.range_succ, ← Multiset.coe_add, Multiset.coe_singleton, ← Multiset.singleton_add]
        abel
      | notify => cases c <;> rfl
    | worker p =>
      cases p with
      | lock | sleep | unlock | leave => rfl
      | test => intro d _; dsimp only; split <;> rfl
      | body =>
        intro d _
        dsimp only
        split
        · split <;> rfl
        · rename_i j js hj
          simp only [hj, ← Multiset.cons_coe, inHand, holds, Option.elim, ← Multiset.singleton_add]
          abel
      | running j => exact fun d k hk => by rcases jobStep_iff.mp hk with rfl | rfl <;> rfl
      | finish j =>
        intro d _
        simp only [inHand, holds, Option.elim, ← Multiset.coe_add, Multiset.coe_singleton]
        abel
      | returned => trivial
      | undefined => exact fun d _ => rfl
    | destructor p =>
      cases p with
      | idle => exact fun k hk => by rw [of_decide_eq_true hk]; rfl
      | lock | unlock | notify => rfl
      | set => exact fun d _ => rfl
      | join i => simp only [pool, destruct]; split <;> [rfl; exact fun d _ => rfl]
      | returned => trivial

/-! ## No lost wakeups -/

/-- What the workers are told. -/
def jobs : Signal Data Pc where
  need d := d.q.length
  weight
    | .worker .test | .worker .body => 1
    | .submit _ .unlock | .submit _ .notify => 1
    | _ => 0
  urgent d := d.stop = true
  rouses
    | .destructor .unlock | .destructor .notify => True
    | _ => False

theorem pool_jobs : Waking (pool n E) held (fun _ => True) tested .cv jobs where
  toAnnotation := pool_annotation
  signals t l := by
    cases l with
    | out | gone => exact ⟨rfl, id⟩
    | submit c p =>
      cases p with
      | lock => exact ⟨Nat.zero_le _, False.elim⟩
      | emplace =>
        -- the new job is accounted for by the notification to come
        exact fun d _ => ⟨id, .inl, False.elim, .inr (.inr (by simp [jobs]))⟩
      | unlock => exact ⟨le_rfl, id⟩
      | notify => cases c <;> exact ⟨id, le_rfl⟩
    | worker p =>
      cases p with
      | lock => exact ⟨Nat.zero_le _, id⟩
      | test =>
        refine fun d _ => ⟨id, .inl, False.elim, .inr ?_⟩
        dsimp only
        split
        · exact .inr le_rfl
        · rename_i h
          exact .inl (by simp [jobs, (mayTake_eq_false.mp (Bool.not_eq_true _ ▸ h)).2])
      | sleep =>
        refine ⟨id, le_rfl, fun d h => ?_⟩
        have h := mayTake_eq_false.mp h
        exact ⟨by simp [jobs, h.2], by simp [jobs, h.1]⟩
      | body =>
        refine fun d _ => ?_
        dsimp only
        split
        · rename_i hn
          exact ⟨id, .inl, False.elim, .inr (.inl (by simp [jobs, hn]))⟩
        · rename_i j js hj
          exact ⟨id, .inl, False.elim, .inr (.inr (by simp [jobs, hj]))⟩
      | unlock | leave => exact ⟨le_rfl, id⟩
      | running | returned => exact ⟨rfl, id⟩
      | finish | undefined => exact fun d _ => ⟨id, .inl, id, .inr (.inr le_rfl)⟩
    | destructor p =>
      cases p with
      | idle | returned => exact ⟨rfl, id⟩
      | lock => exact ⟨le_rfl, False.elim⟩
      | set => exact fun d _ => ⟨fun _ => rfl, fun _ => .inr trivial, False.elim, .inl rfl⟩
      | unlock => exact ⟨le_rfl, id⟩
      | notify => exact fun h => absurd rfl h
      | join i =>
        simp only [pool, destruct]
        split
        · exact ⟨rfl, id⟩
        · exact fun d _ => ⟨id, .inl, False.elim, .inr (.inr le_rfl)⟩

/-! ## Where the threads are -/

/-- The threads that may be at a control point. -/
def home : Thread n E → Pc → Prop
  | .worker _, .worker _ | .worker _, .submit (.job _) _ => True
  | .external _, .out | .external _, .gone | .external _, .submit .external _ => True
  | .destructor, .destructor _ => True
  | _, _ => False

/-- The threads that the destructor has joined, or that have ended before. -/
def joined : Pc → Thread n E → Prop
  | .destructor .idle, _ => False
  | .destructor _, .external _ => True
  | .destructor (.join i), .worker k => k < i
  | .destructor .returned, .worker _ => True
  | _, _ => False

theorem home_of_leads {t : Thread n E} {l k : Pc} {d : Data} (h : ((pool n E).code t l).Leads d k)
    (hl : home t l) : home t k := by
  cases l with
  | out => rcases callStep_iff.mp h with rfl | rfl <;> cases t <;> exact hl
  | gone => cases h
  | submit c p => cases p <;> cases h <;> cases t <;> cases c <;> exact hl
  | worker p =>
    cases p with
    | running j => rcases jobStep_iff.mp h with rfl | rfl <;> cases t <;> exact hl
    | body =>
      simp only [pool, workerLoop, Cmd.Leads] at h
      split at h <;> cases h <;> cases t <;> exact hl
    | returned => cases h
    | _ => cases h; cases t <;> exact hl
  | destructor p =>
    cases p with
    | idle => rw [of_decide_eq_true h]; cases t <;> exact hl
    | join i =>
      simp only [pool, destruct] at h
      split at h <;> cases h <;> cases t <;> exact hl
    | returned => cases h
    | _ => cases h; cases t <;> exact hl

theorem destructor_of_leads {t : Thread n E} {l : Pc} {d : Data} {p : DestructorPc}
    (h : ((pool n E).code t l).Leads d (.destructor p)) : ∃ p, l = .destructor p := by
  cases l with
  | out => rcases callStep_iff.mp h with he | he <;> cases he
  | gone => cases h
  | submit c p => cases p <;> cases c <;> cases h
  | worker p =>
    cases p with
    | running j => rcases jobStep_iff.mp h with he | he <;> cases he
    | test | body =>
      simp only [pool, workerLoop, Cmd.Leads] at h
      split at h <;> cases h
    | _ => cases h
  | destructor p => exact ⟨p, rfl⟩

theorem joined_of_leads {t : Thread n E} {l k : Pc} {d : Data} {u : Thread n E}
    (hk : ((pool n E).code t l).Leads d k) (hu : joined k u) :
    joined l u ∨ ((pool n E).code t l).awaits u = true := by
  cases k with
  | destructor p' =>
    obtain ⟨p, rfl⟩ := destructor_of_leads hk
    cases p with
    | idle =>
      cases of_decide_eq_true hk
      cases u with
      | external e => exact .inr rfl
      | _ => exact hu.elim
    | lock | set | unlock => cases hk; exact .inl (by cases u <;> exact hu)
    | notify =>
      cases hk
      cases u with
      | external e => exact .inl trivial
      | worker i => exact absurd hu (Nat.not_lt_zero _)
      | destructor => exact hu.elim
    | join i =>
      simp only [pool, destruct] at hk ⊢
      cases u with
      | external e => exact .inl trivial
      | destructor => split at hk <;> cases hk <;> exact hu.elim
      | worker k =>
        split at hk
        · cases hk
          rcases Nat.lt_succ_iff_lt_or_eq.mp hu with hlt | heq
          · exact .inl hlt
          · exact .inr (by simp [Cmd.awaits, *, Fin.ext_iff])
        · cases hk
          exact .inl (show (k : ℕ) < i by omega)
    | returned => cases hk
  | _ => cases u <;> exact hu.elim

variable [DecidableEq E] [Fintype E] {s s' : State (Thread n E) Cv Data Pc} {a : Act (Thread n E) Pc}

theorem home_of_reach (h : (pool n E).system.Reach s) (t : Thread n E) : home t (s.th t).point :=
  point_of_leads (I := home) (by rintro (i | e | _) <;> trivial) (fun _ _ _ _ => home_of_leads) h t

theorem halted_of_destructor (h : (pool n E).system.Reach s) {u : Thread n E}
    (hu : joined (s.th .destructor).point u) : (pool n E).halted s u = true := by
  refine halted_of_joined (fun t u hu => ?_) (fun _ _ _ _ _ => joined_of_leads) h hu
  cases t <;> cases u <;> exact hu

/-! ## The stop flag -/

omit [Fintype E] in
/-- What a step does to the queue and to the flag. -/
theorem data_step (hs : (pool n E).Step s a s') :
    (s'.data.q = s.data.q ∧ s'.data.stop = s.data.stop) ∨
    (∃ t c, s.th t = .run (.submit c .emplace) ∧ s'.data.stop = s.data.stop) ∨
    (∃ j, s.data.q = j :: s'.data.q ∧ s'.data.stop = s.data.stop) ∨
    ∃ t, a = .exec t ∧ s.th t = .run (.destructor .set) ∧ s'.th t = .run (.destructor .unlock) ∧
      s'.data.q = s.data.q ∧ s'.data.stop = true := by
  rcases hs.data with he | ⟨t, l, f, ha, hl, hc, rfl⟩
  · exact .inl (by rw [he]; exact ⟨rfl, rfl⟩)
  cases l with
  | out | gone => cases hc
  | submit c p =>
    cases p with
    | emplace => cases hc; exact .inr (.inl ⟨t, c, hl, rfl⟩)
    | _ => cases hc
  | worker p =>
    cases p with
    | body =>
      cases hc
      dsimp only
      split
      · exact .inl ⟨rfl, rfl⟩
      · exact .inr (.inr (.inl ⟨_, ‹_›, rfl⟩))
    | test | finish | undefined => cases hc; exact .inl ⟨rfl, rfl⟩
    | _ => cases hc
  | destructor p =>
    cases p with
    | set => cases hc; exact .inr (.inr (.inr ⟨t, ha, hl, by simp [State.goto], rfl, rfl⟩))
    | join i => simp only [pool, destruct] at hc; split at hc <;> cases hc; exact .inl ⟨rfl, rfl⟩
    | _ => cases hc

omit [Fintype E] in
theorem stop_step (hs : (pool n E).Step s a s') (hstop : s.data.stop = true) : s'.data.stop = true := by
  rcases data_step hs with ⟨-, he⟩ | ⟨-, -, -, he⟩ | ⟨-, -, he⟩ | ⟨-, -, -, -, -, he⟩
  · exact he.trans hstop
  · exact he.trans hstop
  · exact he.trans hstop
  · exact he

/-- The destructor has set the flag. -/
def past : Pc → Bool
  | .destructor p => match p with
    | .idle | .lock | .set => false
    | _ => true
  | _ => false

omit [DecidableEq E] [Fintype E] in
theorem past_of_leads {t : Thread n E} {l k : Pc} {d : Data} (h : ((pool n E).code t l).Leads d k)
    (hl : past l = true) : past k = true := by
  cases l with
  | destructor p =>
    cases p with
    | idle | lock | set => cases hl
    | join i =>
      simp only [pool, destruct] at h
      split at h <;> cases h <;> rfl
    | _ => cases h <;> rfl
  | _ => cases hl

theorem past_of_stop (h : (pool n E).system.Reach s) (hstop : s.data.stop = true) :
    past (s.th .destructor).point = true := by
  revert hstop
  refine h.inv (I := fun s => s.data.stop = true → past (s.th .destructor).point = true) (fun hs => by cases hs)
    fun {s₁ a s₂} hr _ ha ih hstop => ?_
  have hs := Program.step_of_next ha
  have hkeep : s₁.data.stop = true → past (s₂.th .destructor).point = true := fun hstop => by
    rcases hs.leads .destructor with ⟨hp, -⟩ | ⟨l, hl, hk, -⟩
    · rw [hp]; exact ih hstop
    · exact past_of_leads hk (by have := ih hstop; rwa [hl] at this)
  rcases data_step hs with ⟨-, he⟩ | ⟨-, -, -, he⟩ | ⟨-, -, he⟩ | ⟨t, -, ht, ht', -, -⟩
  · exact hkeep (he.symm.trans hstop)
  · exact hkeep (he.symm.trans hstop)
  · exact hkeep (he.symm.trans hstop)
  · have hh := home_of_reach hr t
    rw [ht] at hh
    cases t with
    | destructor => rw [ht']; rfl
    | _ => exact hh.elim

/-- Once the flag is set the external threads have made their last call. -/
theorem external_halted (h : (pool n E).system.Reach s) (hstop : s.data.stop = true) (e : E) :
    (pool n E).halted s (.external e) = true := by
  refine halted_of_destructor h ?_
  have hp := past_of_stop h hstop
  cases hd : (s.th .destructor).point with
  | destructor p =>
    rw [hd] at hp
    cases p with
    | idle => cases hp
    | _ => trivial
  | _ => rw [hd] at hp; cases hp

/-- The worker leaves, or has left. -/
def left : Pc → Bool
  | .worker .leave | .worker .returned => true
  | _ => false

omit [DecidableEq E] [Fintype E] in
theorem left_of_leads {t : Thread n E} {l k : Pc} {d : Data} (h : ((pool n E).code t l).Leads d k)
    (hk : left k = true) : left l = true ∨ (l = .worker .body ∧ d.q = []) := by
  cases l with
  | out => rcases callStep_iff.mp h with rfl | rfl <;> cases hk
  | gone => cases h
  | submit c p => cases p <;> cases h <;> cases c <;> cases hk
  | worker p =>
    cases p with
    | body =>
      simp only [pool, workerLoop, Cmd.Leads] at h
      split at h
      · exact .inr ⟨rfl, ‹_›⟩
      · rw [h] at hk; cases hk
    | test =>
      simp only [pool, workerLoop, Cmd.Leads] at h
      split at h <;> (rw [h] at hk; cases hk)
    | running j => rcases jobStep_iff.mp h with rfl | rfl <;> cases hk
    | leave | returned => exact .inl rfl
    | _ => cases h; cases hk
  | destructor p =>
    cases p with
    | idle => rw [of_decide_eq_true h] at hk; cases hk
    | join i =>
      simp only [pool, destruct] at h
      split at h <;> cases h <;> cases hk
    | _ => cases h <;> cases hk

/-- A worker leaves when it finds the flag set and the queue empty. -/
theorem leave_step (h : (pool n E).system.Reach s) (hs : (pool n E).Step s a s') {t : Thread n E}
    (hl : left (s.th t).point = false) (hl' : left (s'.th t).point = true) :
    s.data.stop = true ∧ s.data.q = [] ∧ s'.data = s.data := by
  rcases hs.leads t with ⟨hp, -⟩ | ⟨l, hat, hk, -⟩
  · rw [hp, hl] at hl'; cases hl'
  rw [hat, Status.point_run] at hl
  rcases left_of_leads hk hl' with hl₁ | ⟨rfl, hq⟩
  · rw [hl] at hl₁; cases hl₁
  · have hsound := pool_annotation.sound h
    have ht : mayTake s.data = true := hsound.holds t _ hat rfl
    refine ⟨stop_of_mayTake ht hq, hq, ?_⟩
    rcases hs.of_act hat rfl with hstay | ⟨-, he⟩
    · rw [hstay] at hl'; cases hl'
    · rw [he]
      simp only [hq]

theorem stop_of_left (h : (pool n E).system.Reach s) {t : Thread n E} (ht : left (s.th t).point = true) :
    s.data.stop = true := by
  revert ht
  refine h.inv (I := fun s => left (s.th t).point = true → s.data.stop = true) (fun ht => by cases t <;> cases ht)
    fun {s₁ a s₂} hr _ ha ih ht => ?_
  have hs := Program.step_of_next ha
  cases hl : left (s₁.th t).point with
  | true => exact stop_step hs (ih hl)
  | false => exact stop_step hs (leave_step hr hs hl ht).1

/-- As long as the queue is not empty, some worker has not left. -/
theorem empty_of_left (hn : 0 < n) (h : (pool n E).system.Reach s)
    (hall : ∀ i, left (s.th (.worker i)).point = true) : s.data.q = [] := by
  revert hall
  refine h.inv (I := fun s => (∀ i, left (s.th (.worker i)).point = true) → s.data.q = [])
    (fun hall => by cases hall ⟨0, hn⟩) fun {s₁ a s₂} hr _ ha ih hall => ?_
  have hs := Program.step_of_next ha
  by_cases hall₁ : ∀ i, left (s₁.th (.worker i)).point = true
  · have hempty := ih hall₁
    rcases data_step hs with ⟨he, -⟩ | ⟨t, c, ht, -⟩ | ⟨j, hj, -⟩ | ⟨-, -, -, -, he, -⟩
    · exact he.trans hempty
    · -- nobody is left to submit
      exfalso
      have hh := home_of_reach hr t
      rw [ht] at hh
      cases t with
      | worker i =>
        have := hall₁ i
        rw [ht] at this; cases this
      | external e =>
        have := external_halted hr (stop_of_left hr (hall₁ ⟨0, hn⟩)) e
        obtain ⟨l, hl, hc⟩ := Program.halted_iff.mp this
        cases ht.symm.trans hl
        cases hc
      | destructor => exact hh
    · rw [hempty] at hj; cases hj
    · exact he.trans hempty
  · push Not at hall₁
    obtain ⟨i, hi⟩ := hall₁
    obtain ⟨-, hq, he⟩ := leave_step hr hs (Bool.eq_false_iff.mpr hi) (hall i)
    rw [he]; exact hq

/-! ## The end -/

/-- Each submitted job is in the queue, held by a thread, or has ended. -/
theorem one_place (h : (pool n E).system.Reach s) (j : ℕ) :
    s.data.q.count j + (Finset.univ.filter fun t => holds (s.th t).point = some j).card + s.data.ran.count j =
      if j < s.data.submitted then 1 else 0 := by
  have hplace := pool_ledger.one_place h j
  simp only [Multiset.count_add, Multiset.coe_count] at hplace
  omega

theorem halted_of_returned (h : (pool n E).system.Reach s) (hret : s.th .destructor = .run (.destructor .returned))
    (t : Thread n E) : (pool n E).halted s t = true := by
  cases t with
  | destructor => exact Program.halted_iff.mpr ⟨_, hret, rfl⟩
  | _ => exact halted_of_destructor h (by rw [hret]; trivial)

theorem returned_of_halted (h : (pool n E).system.Reach s) {i : Fin n}
    (hi : (pool n E).halted s (.worker i) = true) : s.th (.worker i) = .run (.worker .returned) := by
  obtain ⟨l, hl, hc⟩ := Program.halted_iff.mp hi
  have hh := home_of_reach h (.worker i)
  rw [hl] at hh
  cases l with
  | worker p => cases p <;> cases hc; exact hl
  | submit c p => cases p <;> cases hc
  | _ => exact hh.elim

/-- When the destructor returns every job has run, and nothing happens any more. -/
theorem drained (hn : 0 < n) (h : (pool n E).system.Reach s)
    (hret : s.th .destructor = .run (.destructor .returned)) :
    s.data.q = [] ∧ (∀ j, s.data.ran.count j = if j < s.data.submitted then 1 else 0) ∧
      ∀ a, (pool n E).system.next s a = none := by
  have hall := halted_of_returned h hret
  have hw : ∀ i, s.th (.worker i) = .run (.worker .returned) := fun i => returned_of_halted h (hall _)
  have hq : s.data.q = [] := empty_of_left hn h fun i => by rw [hw i]; rfl
  refine ⟨hq, fun j => ?_, next_of_halted hall⟩
  have hnone : (Finset.univ.filter fun t => holds (s.th t).point = some j) = ∅ := by
    refine Finset.filter_eq_empty_iff.mpr fun t _ ht => ?_
    obtain ⟨l, hl, hc⟩ := Program.halted_iff.mp (hall t)
    rw [hl] at ht
    cases l with
    | worker p => cases p <;> cases hc; cases ht
    | submit c p => cases p <;> cases hc
    | _ => cases ht
  have := one_place h j
  rw [hq, hnone] at this
  simpa using this

/-- In a quiet state a worker sleeps, with nothing to do, or has returned. -/
theorem worker_quiet (h : (pool n E).system.Reach s) (hq : (pool n E).Quiet s) (i : Fin n) :
    (s.data.q = [] ∧ s.data.stop = false) ∨ s.th (.worker i) = .run (.worker .returned) := by
  have hh := home_of_reach h (.worker i)
  rcases (pool_discipline.quiet (pool_discipline.locked h) hq).2 (.worker i) with ⟨l, hl, hrest⟩ | ⟨⟨⟩, k, hk⟩
  · rw [hl] at hh
    cases l with
    | worker p =>
      cases p with
      | returned => exact .inr hl
      | running j =>
        -- a running job ends
        exact (not_step_of_quiet hq (.pick hl rfl (jobStep_iff.mpr (.inr rfl))) trivial).elim
      | _ => exact hrest.elim
    | submit c p => cases p <;> exact hrest.elim
    | _ => exact hh.elim
  · obtain ⟨hneed, hurgent⟩ := pool_jobs.asleep h hq hk
    exact .inl ⟨List.length_eq_zero_iff.mp hneed, by simpa [jobs] using hurgent⟩

/-- The pool runs each job exactly once before the destructor returns, and
leaves no worker behind. -/
theorem pool_drains_transitively (hn : 0 < n) (h : (pool n E).system.Reach s) :
    (∀ j, s.data.q.count j + (Finset.univ.filter fun t => holds (s.th t).point = some j).card + s.data.ran.count j =
      if j < s.data.submitted then 1 else 0) ∧
    (s.th .destructor = .run (.destructor .returned) → s.data.q = [] ∧
      (∀ j, s.data.ran.count j = if j < s.data.submitted then 1 else 0) ∧
      ∀ a, (pool n E).system.next s a = none) ∧
    ((pool n E).Quiet s → s.data.q ≠ [] ∨ s.data.stop = true →
      ∀ i, s.th (.worker i) = .run (.worker .returned)) := by
  refine ⟨one_place h, drained hn h, fun hq hleft i => ?_⟩
  rcases worker_quiet h hq i with ⟨he, hs⟩ | hi
  · rcases hleft with hne | hstop
    · exact absurd he hne
    · rw [hs] at hstop; cases hstop
  · exact hi

/-- One worker: while the destructor is joining it, the job 0 submits the job 1. -/
def lateJob (worker : Thread 1 Unit) : List (Act (Thread 1 Unit) Pc) :=
  let external : Thread 1 Unit := .external ()
  let steps (t : Thread 1 Unit) (k : ℕ) : List (Act (Thread 1 Unit) Pc) := List.replicate k (.exec t)
  [[.ext external (.submit .external .lock)], steps external 4, [.ext external .gone], steps worker 4,
    [.ext .destructor (.destructor .lock)], steps .destructor 4, [.pick worker (.submit (.job 0) .lock)],
    steps worker 4, [.pick worker (.worker (.finish 0))], steps worker 5, [.pick worker (.worker (.finish 1))],
    steps worker 5, steps .destructor 2].flatten

theorem pool_drains_transitively_late :
    ∃ s, (pool 1 Unit).system.run (pool 1 Unit).system.start (lateJob (.worker (0 : Fin 1))) = some s ∧
      s.data.q = [] ∧ ∀ j, s.data.ran.count j = if j < 2 then 1 else 0 := by
  have hr : ((pool 1 Unit).system.run (pool 1 Unit).system.start (lateJob (.worker (0 : Fin 1)))).any
      (fun s => s.th .destructor = .run (.destructor .returned) ∧ s.data.submitted = 2) = true := by decide +kernel
  obtain ⟨s, hs, hp⟩ := System.exists_of_run hr
  obtain ⟨hret, htwo⟩ := of_decide_eq_true hp
  obtain ⟨-, hdrained, -⟩ := pool_drains_transitively Nat.one_pos (System.reach_of_run hs)
  obtain ⟨hq, hran, -⟩ := hdrained hret
  exact ⟨s, hs, hq, htwo ▸ hran⟩

end TKH.TinyPool
