import ThreadingKnowHows.AtomicFlag.Model
import ThreadingKnowHows.Framework.Total

/-!
# No increment is lost

The flag counts the threads between a `test_and_set` that returned `false` and
their `clear` (`Inv.inside`). So at most one is there, and `n` is what it has
read when it writes.
-/

namespace TKH.AtomicFlag

variable {τ : Type} [DecidableEq τ] [Fintype τ] {s s' : State τ} {t : τ} {rounds : τ → ℕ}

namespace Pc

/-- Whether the thread is between its `test_and_set` and its `clear`. -/
def inside : Pc → ℕ
  | read _ | write _ _ | unlock _ => 1
  | lock _ | done => 0

/-- The increments that the thread has still to make. -/
def left : Pc → ℕ
  | lock more | read more | write more _ => more + 1
  | unlock more => more
  | done => 0

@[simp] theorem inside_loop (more : ℕ) : (loop more).inside = 0 := by cases more <;> rfl

@[simp] theorem left_loop (more : ℕ) : (loop more).left = more := by cases more <;> rfl

end Pc

structure Inv (rounds : τ → ℕ) (s : State τ) : Prop where
  inside : total Pc.inside s.pc = s.flag.toNat
  value : ∀ {t more v}, s.pc t = .write more v → v = s.n
  left : s.n + total Pc.left s.pc = ∑ t, rounds t

omit [DecidableEq τ] in
/-- No more increments than there are rounds. -/
theorem Inv.n_le (h : Inv rounds s) : s.n ≤ ∑ t, rounds t := by
  rw [← h.left]
  exact Nat.le_add_right _ _

theorem Inv.unique (h : Inv rounds s) {t u : τ} (ht : 0 < (s.pc t).inside) (hu : 0 < (s.pc u).inside) : t = u :=
  eq_of_total_le_one (by rw [h.inside]; exact Bool.toNat_le _) ht hu

omit [DecidableEq τ] in
theorem Inv.flag_iff (h : Inv rounds s) : s.flag = true ↔ ∃ t, 0 < (s.pc t).inside := by
  have hinside := h.inside
  constructor
  · intro hflag
    rw [hflag] at hinside
    exact exists_of_total_pos (by rw [hinside]; exact Nat.one_pos)
  · rintro ⟨t, ht⟩
    have hle := single_le_total Pc.inside s.pc t
    cases hflag : s.flag with
    | true => rfl
    | false =>
      rw [hflag] at hinside
      exact absurd (ht.trans_le hle) (by rw [hinside]; exact Nat.lt_irrefl 0)

/-- A step of `t`, which goes on at `k`. -/
theorem Inv.move (h : Inv rounds s) {k : Pc} {flag : Bool} {n : ℕ}
    (hinside : s.flag.toNat + k.inside = flag.toNat + (s.pc t).inside)
    (hvalue : ∀ {more v}, k = .write more v → v = n)
    (hother : ∀ {u}, u ≠ t → 0 < (s.pc u).inside → n = s.n) (hleft : n + k.left = s.n + (s.pc t).left) :
    Inv rounds ⟨flag, n, Function.update s.pc t k⟩ where
  inside := by
    have hi := h.inside
    have hupdate := total_update Pc.inside s.pc t k
    simp only
    omega
  value {u more v} hu := by
    simp only at hu ⊢
    by_cases hut : u = t
    · subst hut
      rw [Function.update_self] at hu
      exact hvalue hu
    · rw [Function.update_of_ne hut] at hu
      rw [h.value hu, hother hut (by rw [hu]; exact Nat.one_pos)]
  left := by
    have hl := h.left
    have hupdate := total_update Pc.left s.pc t k
    simp only
    omega

theorem Step.inv (h : Step s t s') (hi : Inv rounds s) : Inv rounds s' := by
  cases h with
  | spin => exact hi
  | enter hpc hflag =>
    exact hi.move (by rw [hflag, hpc]; rfl) (fun he => by cases he) (fun _ _ => rfl) (by rw [hpc]; rfl)
  | read hpc =>
    exact hi.move (by rw [hpc]; rfl) (fun he => by cases he; rfl) (fun _ _ => rfl) (by rw [hpc]; rfl)
  | @write more v hpc =>
    have hin : 0 < (s.pc t).inside := by rw [hpc]; exact Nat.one_pos
    have hv := hi.value hpc
    refine hi.move (by rw [hpc]; rfl) (fun he => by cases he) (fun hu hin' => absurd (hi.unique hin' hin) hu) ?_
    rw [hpc]
    simp only [Pc.left]
    omega
  | clear hpc =>
    have hflag := hi.flag_iff.mpr ⟨t, by rw [hpc]; exact Nat.one_pos⟩
    refine hi.move ?_ (fun he => ?_) (fun _ _ => rfl) (by rw [hpc, Pc.left_loop]; rfl)
    · rw [hflag, hpc, Pc.inside_loop]
      rfl
    · rename_i more _ _
      cases more <;> cases he

theorem inv (h : (spinlock rounds).Reach s) : Inv rounds s := by
  refine h.inv (I := Inv rounds) ⟨total_eq_zero.mpr fun _ => Pc.inside_loop _, fun {t more v} hpc => ?_, ?_⟩
    fun _ _ ha hi => (step_of_next ha).inv hi
  · cases hr : rounds t <;> simp [spinlock, hr, loop] at hpc
  · simp only [spinlock, Nat.zero_add]
    exact Finset.sum_congr rfl fun t _ => Pc.left_loop _

/-- `n` has been incremented as many times as it was written. -/
theorem n_eq_length_writes {as : List τ} (hr : (spinlock rounds).run (spinlock rounds).start as = some s) :
    s.n = ((spinlock rounds).trace writes (spinlock rounds).start as).length := by
  refine System.trace_inv (I := fun es s => s.n = es.length) hr (System.along_true _ _) rfl ?_
  intro es s t s' hp _ ha ih
  rw [List.length_append, ← ih]
  cases step_of_next ha with
  | write hpc =>
    rw [(inv hp).value hpc]
    simp [writes, hpc, State.goto]
  | spin hpc | enter hpc | read hpc | clear hpc => simp [writes, hpc, State.goto]

omit [Fintype τ] in
/-- If the flag is clear the next `test_and_set` succeeds. -/
theorem enter_of_clear (hflag : s.flag = false) {more : ℕ} (hpc : s.pc t = .lock more) :
    next s t = some ({ s with flag := true }.goto t (.read more)) := by
  simp [next, hpc, hflag]

omit [Fintype τ] in
/-- A thread that is inside completes its next operation. -/
theorem step_of_inside (h : 0 < (s.pc t).inside) : ∃ s', next s t = some s' ∧ s'.pc t ≠ s.pc t := by
  cases hpc : s.pc t with
  | read more | write more v => exact ⟨_, by simp only [next, hpc]; rfl, by simp [State.goto]⟩
  | unlock more =>
    refine ⟨_, by simp only [next, hpc]; rfl, ?_⟩
    simp only [State.goto, Function.update_self]
    cases more <;> simp [loop]
  | lock more | done => rw [hpc] at h; exact absurd h (Nat.lt_irrefl 0)

/-- The spinlock excludes, no increment is lost, and some thread can go on. -/
theorem spinlock_protects {as : List τ} (hr : (spinlock rounds).run (spinlock rounds).start as = some s) :
    (∀ t u, 0 < (s.pc t).inside → 0 < (s.pc u).inside → t = u) ∧
    (s.flag = true ↔ ∃ t, 0 < (s.pc t).inside) ∧
    s.n = ((spinlock rounds).trace writes (spinlock rounds).start as).length ∧
    ((∀ t, s.pc t = .done) → s.n = ∑ t, rounds t) ∧
    ((∃ t, s.pc t ≠ .done) → ∃ t s', s.pc t ≠ .done ∧ next s t = some s' ∧ s'.pc t ≠ s.pc t) ∧
    ((∀ t, (s.pc t).inside = 0) → ∀ t more, s.pc t = .lock more →
      ∃ s', next s t = some s' ∧ s'.pc t = .read more) := by
  have hi := inv (System.reach_of_run hr)
  have hclear : (∀ t, (s.pc t).inside = 0) → s.flag = false := fun h => by
    rw [← Bool.not_eq_true, hi.flag_iff]
    rintro ⟨t, ht⟩
    rw [h t] at ht
    exact absurd ht (Nat.lt_irrefl 0)
  have henter : (∀ t, (s.pc t).inside = 0) → ∀ t more, s.pc t = .lock more →
      ∃ s', next s t = some s' ∧ s'.pc t = .read more := fun h t more hpc =>
    ⟨_, enter_of_clear (hclear h) hpc, by simp [State.goto]⟩
  refine ⟨fun t u => hi.unique, hi.flag_iff, n_eq_length_writes hr, fun hdone => ?_, ?_, henter⟩
  · have hleft := hi.left
    rwa [total_eq_zero.mpr fun t => by rw [hdone t]; rfl] at hleft
  · rintro ⟨t, ht⟩
    by_cases hnone : ∀ u, (s.pc u).inside = 0
    · -- nobody is inside, so that `t` is about to lock
      have ht' := hnone t
      cases hpc : s.pc t with
      | lock more =>
        obtain ⟨s', hs', hpc'⟩ := henter hnone t more hpc
        exact ⟨t, s', ht, hs', by rw [hpc', hpc]; simp⟩
      | done => exact absurd hpc ht
      | read | write | unlock => rw [hpc] at ht'; cases ht'
    · push Not at hnone
      obtain ⟨u, hu⟩ := hnone
      obtain ⟨s', hs', hne⟩ := step_of_inside (Nat.pos_of_ne_zero hu)
      exact ⟨u, s', fun hd => hu (by rw [hd]; rfl), hs', hne⟩

/-- Two threads of one round each; `true` spins while `false` is inside. -/
def contended : List Bool := [false, true, false, true, false, true, false, true, true, true, true]

theorem spinlock_protects_contended : ∃ s, (spinlock fun _ : Bool => 1).run (spinlock fun _ => 1).start contended = some s ∧
    s.n = 2 := by
  have hr : ((spinlock fun _ : Bool => 1).run (spinlock fun _ => 1).start contended).any
      (fun s => decide (∀ t, s.pc t = .done)) = true := by decide
  obtain ⟨s, hs, hp⟩ := System.exists_of_run hr
  obtain ⟨-, -, -, hn, -⟩ := spinlock_protects hs
  exact ⟨s, hs, hn (of_decide_eq_true hp)⟩

end TKH.AtomicFlag
