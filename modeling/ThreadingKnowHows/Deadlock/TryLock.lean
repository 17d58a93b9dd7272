import ThreadingKnowHows.Deadlock.Model
import ThreadingKnowHows.Framework.Amortised

/-!
# Trying in one order

The threads of `cure_try_lock` try the mutexes in the same order, and only the
one that has `m1` tries `m2`. So, unless a `try_lock` fails without need, the
back-off is never taken (`second_free`), a thread is held up only by another one
that has `m1`, and four steps of each thread bring all of them to their ends
(`cure_try_lock_ends`).
-/

namespace TKH.Deadlock

variable {τ : Type} [DecidableEq τ] {s s' : State τ}

def Holds : Pc → Mutex → Prop
  | .tryFirst, _ | .done, _ => False
  | .leaveSecond, _ => True
  | _, a => a = false

omit [DecidableEq τ] in
theorem discipline : Mutexes.Discipline (cureTryLock τ) (fun _ => Holds) fun _ => 0 where
  entry _ _ := id
  code _ l := by
    cases l with
    | tryFirst => exact ⟨id, fun a => by simp [Holds], fun a => Iff.rfl⟩
    | trySecond => exact ⟨nofun, fun a => by cases a <;> simp [Holds], fun a => Iff.rfl⟩
    | backOff => exact ⟨rfl, fun a => by simp [Holds]⟩
    | leaveSecond => exact ⟨trivial, fun a => by cases a <;> simp [Holds]⟩
    | leaveFirst => exact ⟨rfl, fun a => by simp [Holds]⟩
    | done => exact fun _ h => h

/-- While a thread tries `m2`, it is free. -/
theorem second_free (hs : (cureTryLock τ).system.Reach s) {t : τ} (ht : s.pc t = .trySecond) : s.owner true = none := by
  by_contra hne
  obtain ⟨u, hu⟩ := Option.ne_none_iff_exists'.mp hne
  have hu := (discipline.owner_iff hs u true).mp hu
  have hpc : s.pc u = .leaveSecond := by
    cases hl : s.pc u <;> rw [hl] at hu <;> first | rfl | cases hu
  -- both have `m1`
  have he : u = t := discipline.unique hs (a := false) (by rw [hpc]; trivial) (by rw [ht]; rfl)
  rw [← he, hpc] at ht
  cases ht

/-- A `try_lock` that fails with need is one of `m1`. -/
theorem waiting_of_genuine (hs : (cureTryLock τ).system.Reach s) {t : τ} (hg : Genuine s (.fail t))
    (ha : (cureTryLock τ).system.next s (.fail t) = some s') : Waiting s (.fail t) := by
  have hpc : s.pc t = .tryFirst ∨ s.pc t = .trySecond := by
    cases hl : s.pc t <;>
      simp [Mutexes.Program.system, Mutexes.Program.next, cureTryLock, takeWithBackoff, hl] at ha ⊢
  rcases hpc with hpc | hpc
  · obtain ⟨u, hu⟩ := Option.ne_none_iff_exists'.mp (hg.1 hpc)
    refine ⟨hpc, u, ?_, hu⟩
    rintro rfl
    have hh := (discipline.owner_iff hs u false).mp hu
    rw [hpc] at hh
    exact hh
  · exact absurd (second_free hs hpc) (hg.2 hpc)

/-- The steps that a thread has left, with no failure in between. -/
def Pc.rank : Pc → ℕ
  | backOff => 5
  | tryFirst => 4
  | trySecond => 3
  | leaveSecond => 2
  | leaveFirst => 1
  | done => 0

def failed : Mutexes.Act τ → Bool
  | .fail _ => true
  | _ => false

variable [Fintype τ]

/-- What a step costs: nothing if it is a failure to get `m1`. -/
theorem rank_step {a : Mutexes.Act τ} (ha : (cureTryLock τ).system.next s a = some s') :
    (failed a = false ∧ total Pc.rank s'.pc + 1 = total Pc.rank s.pc) ∨ ∃ t, a = .fail t ∧
      (s.pc t = .tryFirst → s' = s) := by
  have hcode : ∀ t l, (cureTryLock τ).code t l = takeWithBackoff l := fun _ _ => rfl
  have hmove : ∀ t k, k.rank + 1 = (s.pc t).rank → total Pc.rank (Function.update s.pc t k) + 1 = total Pc.rank s.pc :=
    fun t k hk => by
      have := total_update Pc.rank s.pc t k
      omega
  cases Mutexes.Program.step_of_next ha with
  | @lock t a k hc | @act t f hc | @choose t k which hc =>
    rw [hcode] at hc
    cases hpc : s.pc t <;> rw [hpc] at hc <;> cases hc
  | @tryLock t a yes no hc =>
    refine .inl ⟨rfl, hmove t yes ?_⟩
    rw [hcode] at hc
    cases hpc : s.pc t <;> rw [hpc] at hc <;> cases hc <;> rfl
  | @unlock t a k hc =>
    refine .inl ⟨rfl, hmove t k ?_⟩
    rw [hcode] at hc
    cases hpc : s.pc t <;> rw [hpc] at hc <;> cases hc <;> rfl
  | @fail t a yes no hc =>
    refine .inr ⟨t, rfl, fun hpc => ?_⟩
    rw [hcode, hpc] at hc
    cases hc
    rw [Mutexes.State.goto, ← hpc, Function.update_eq_self]

/-- All failures of a run are failures to get `m1`, and the other steps bring
the threads on. -/
theorem runs {as : List (Mutexes.Act τ)} {s₀ s : State τ} (h₀ : (cureTryLock τ).system.Reach s₀)
    (h : (cureTryLock τ).system.run s₀ as = some s) (hg : (cureTryLock τ).system.Along Genuine s₀ as) :
    (cureTryLock τ).system.Along (fun s a => failed a = true → Waiting s a) s₀ as ∧
      as.countP (fun a => !failed a) + total Pc.rank s.pc = total Pc.rank s₀.pc := by
  induction as generalizing s₀ with
  | nil =>
    cases h
    exact ⟨trivial, Nat.zero_add _⟩
  | cons a as ih =>
    obtain ⟨s₁, ha, hr⟩ := System.run_cons h
    obtain ⟨hwait, hcount⟩ := ih (.step h₀ trivial ha) hr (hg.2 s₁ ha)
    have htail : ∀ s₂, (cureTryLock τ).system.next s₀ a = some s₂ →
        (cureTryLock τ).system.Along (fun s a => failed a = true → Waiting s a) s₂ as := fun s₂ ha₂ => by
      cases ha.symm.trans ha₂
      exact hwait
    rw [List.countP_cons]
    rcases rank_step ha with ⟨hf, hrank⟩ | ⟨t, rfl, hsame⟩
    · refine ⟨⟨fun hf' => (Bool.false_ne_true (hf.symm.trans hf')).elim, htail⟩, ?_⟩
      simp only [hf, Bool.not_false, if_true]
      omega
    · have hw := waiting_of_genuine h₀ hg.1 ha
      refine ⟨⟨fun _ => hw, htail⟩, ?_⟩
      cases hsame hw.1
      simpa [failed] using hcount

omit [Fintype τ] in
/-- A state in which every step is a failure is the end. -/
theorem finished_of_quiet (hs : (cureTryLock τ).system.Reach s)
    (hq : (cureTryLock τ).system.Quiet (fun a => failed a = false) s) : Finished s := by
  have hno : ∀ {t s'}, ¬ (cureTryLock τ).Step s (.exec t) s' := fun hstep => by
    cases hstep.next.symm.trans (hq _ rfl)
  have hcode : ∀ {t l}, s.pc t = l → (cureTryLock τ).code t (s.pc t) = takeWithBackoff l := fun hl => by rw [hl]; rfl
  have howns : ∀ {t l a}, s.pc t = l → Holds l a → s.owner a = some t := fun {t l a} hl h =>
    (discipline.owner_iff hs t a).mpr (hl ▸ h)
  -- a thread that has `m1` could go on
  have hpc : ∀ t, s.pc t = .tryFirst ∨ s.pc t = .done := fun t => by
    cases hl : s.pc t with
    | tryFirst => exact .inl rfl
    | trySecond => exact (hno (.tryLock (hcode hl) (second_free hs hl))).elim
    | backOff => exact (hno (.unlock (hcode hl) (howns hl rfl))).elim
    | leaveSecond => exact (hno (.unlock (hcode hl) (howns hl trivial))).elim
    | leaveFirst => exact (hno (.unlock (hcode hl) (howns hl rfl))).elim
    | done => exact .inr rfl
  have hfree : ∀ a, s.owner a = none := fun a => by
    by_contra hne
    obtain ⟨t, ht⟩ := Option.ne_none_iff_exists'.mp hne
    have hh := (discipline.owner_iff hs t a).mp ht
    rcases hpc t with hl | hl <;> rw [hl] at hh <;> exact hh
  exact ⟨fun t => (hpc t).resolve_left fun hl => hno (.tryLock (hcode hl) (hfree false)), hfree⟩

/-- If a `try_lock` fails only when the mutex is taken, all failures are failures
to get `m1` while another thread has it, the other steps of a run are at most
four for each thread, and when only failures are possible, all threads are at
their ends, with the mutexes free. -/
theorem cure_try_lock_ends {as : List (Mutexes.Act τ)} {s : State τ}
    (h : (cureTryLock τ).system.run (cureTryLock τ).system.start as = some s)
    (hg : (cureTryLock τ).system.Along Genuine (cureTryLock τ).system.start as) :
    (cureTryLock τ).system.Along (fun s a => failed a = true → Waiting s a) (cureTryLock τ).system.start as ∧
      as.countP (fun a => !failed a) ≤ 4 * Fintype.card τ ∧
      ((cureTryLock τ).system.Quiet (fun a => failed a = false) s → Finished s) := by
  obtain ⟨hwait, hcount⟩ := runs .refl h hg
  have hstart : total Pc.rank (cureTryLock τ).system.start.pc ≤ 4 * Fintype.card τ := total_le_mul fun t => le_rfl
  exact ⟨hwait, by omega, finished_of_quiet (System.reach_of_run h)⟩

/-- The thread `true` fails while `false` has `m1`. -/
theorem cure_try_lock_ends_two : ∃ s, (cureTryLock Bool).system.run (cureTryLock Bool).system.start
      [.exec false, .fail true, .exec false, .fail true, .exec false, .exec false,
        .exec true, .exec true, .exec true, .exec true] = some s ∧ Finished s := by
  have hr : ((cureTryLock Bool).system.run (cureTryLock Bool).system.start
      [.exec false, .fail true, .exec false, .fail true, .exec false, .exec false,
        .exec true, .exec true, .exec true, .exec true]).any (fun s => ∀ t, s.pc t = .done) = true := by
    decide +kernel
  obtain ⟨s, hs, hp⟩ := System.exists_of_run hr
  have hdone : ∀ t, s.pc t = .done := of_decide_eq_true hp
  obtain ⟨-, -, hend⟩ := cure_try_lock_ends hs (by decide +kernel)
  refine ⟨s, hs, hend fun a hf => ?_⟩
  cases a with
  | fail t => cases hf
  | exec t | choose t _ =>
    simp [Mutexes.Program.system, Mutexes.Program.next, cureTryLock, takeWithBackoff, hdone]

end TKH.Deadlock
