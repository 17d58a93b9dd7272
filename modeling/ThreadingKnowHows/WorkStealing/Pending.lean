import ThreadingKnowHows.WorkStealing.Order

/-!
# The count of pending tasks does not forget empty functions

A worker that takes an empty `std::function` from a deque treats it as if it
had found nothing, and does not count it down. So when the pool has come to
rest, `pending_` is the number of empty functions that were submitted, modulo
`2 ^ 32`, and with one of them the destructor polls for ever. This is so as long as
`submit` chooses deques that exist (`pending_zero_iff`).
-/

namespace TKH.WorkStealing

variable {n : ℕ} {E : Type} [DecidableEq E] [Fintype E]
  {s s' : State (Thread n E) Empty (Data n) (Pc n)} {a : Act (Thread n E) (Pc n)}

/-- Whether the function is empty that is pushed to some deque. -/
def submitted (s : State (Thread n E) Empty (Data n) (Pc n)) : Act (Thread n E) (Pc n) → List Bool
  | .exec t => match s.th t with
    | .run (.submit _ (.push empty _)) => [empty]
    | _ => []
  | _ => []

/-- The empty functions in the deques. -/
def hollow (d : Data n) : ℕ := total (fun l : List Task => l.countP Task.empty) d.deques

omit [DecidableEq E] [Fintype E] in
theorem submitted_cases (s : State (Thread n E) Empty (Data n) (Pc n)) (a : Act (Thread n E) (Pc n)) :
    submitted s a = [] ∨ ∃ t c b who, a = .exec t ∧ s.th t = .run (.submit c (.push b who)) ∧ submitted s a = [b] := by
  cases a with
  | exec t =>
    simp only [submitted]
    split
    · rename_i c b who ht
      exact .inr ⟨t, c, b, who, rfl, ht, rfl⟩
    · exact .inl rfl
  | _ => exact .inl rfl

theorem hollow_push (d : Data n) (b : Bool) (who : Fin n) : hollow (d.push b who) = hollow d + [b].count true := by
  have := total_update (fun l : List Task => l.countP Task.empty) d.deques who (d.deques who ++ [⟨d.pushed, b⟩])
  simp only [List.countP_append] at this
  simp only [hollow, Data.push]
  cases b <;> simp at this ⊢ <;> omega

theorem hollow_take {d : Data n} {i : Fin n} {t : Task} {rest : List Task} (h : Taken (d.deques i) t rest) :
    hollow (d.take i t rest) + (d.take i t rest).dropped.length = hollow d + d.dropped.length := by
  have := total_update (fun l : List Task => l.countP Task.empty) d.deques i rest
  rw [h.perm.countP_eq] at this
  simp only [hollow, Data.take]
  cases ht : t.empty <;> simp [ht] at this ⊢ <;> omega

/-- An empty function is in a deque, or was dropped. -/
theorem empties {as : List (Act (Thread n E) (Pc n))}
    (h : (pool n E).system.run (pool n E).system.start as = some s) :
    ((pool n E).system.trace submitted (pool n E).system.start as).count true =
      hollow s.data + s.data.dropped.length := by
  refine System.trace_inv (I := fun l s => l.count true = hollow s.data + s.data.dropped.length) h
    (System.along_true _ _) ?_ fun {l s₁ a s₂} _ _ ha hi => ?_
  · simp [hollow, total, pool, Program.system]
  rw [List.count_append, hi]
  rcases submitted_cases s₁ a with hsub | ⟨t, c, b, who, rfl, hl, hsub⟩
  · rw [hsub, List.count_nil, Nat.add_zero]
    rcases deques_step (Program.step_of_next ha) with ⟨hd, hdrop, -⟩ | ⟨t, c, b, who, rfl, hl, -⟩ | ⟨i, t, rest, ht, hd⟩
    · rw [hollow, hollow, hd, hdrop]
    · simp [submitted, hl] at hsub
    · rw [hd]
      exact (hollow_take ht).symm
  · rw [hsub, push_step ha hl, hollow_push]
    exact Nat.add_right_comm _ _ _

/-- The thread is in a call of `submit`. -/
def submitting : Pc n → Bool
  | .submit _ _ => true
  | _ => false

/-- When no `submit` is in progress, the deques are empty and no worker holds
a task, `pending_` counts the empty functions. -/
theorem pending_at_rest (h : (pool n E).system.Reach s) (hsubmit : ∀ t, submitting (s.th t).point = false)
    (hempty : ∀ i, s.data.deques i = []) (hheld : ∀ t, holds (s.th t).point = none) :
    s.data.pending = BitVec.ofNat 32 s.data.dropped.length := by
  have hcount : total (fun x => counting x.point) s.th = 0 := total_eq_zero.mpr fun t => by
    have ht := hsubmit t
    cases hp : (s.th t).point with
    | submit c p => rw [hp] at ht; cases ht
    | _ => rfl
  have hhand : total (fun x => (inHand x.point).card) s.th = 0 := total_eq_zero.mpr fun t => by
    rw [inHand, hheld t]; rfl
  have hpushed := pushed_eq h
  rw [queued_eq_zero.mpr hempty, hhand] at hpushed
  exact pending_eq h (by omega)

/-- When the pool has come to rest after choices that were all in range, `pending_` is
back at zero exactly if the number of empty functions that were submitted is a multiple
of `2 ^ 32`. -/
theorem pending_zero_iff {as : List (CountedAct n E)} {c : Counted n E}
    (h : (counted n E).run (counted n E).start as = some c) (hok : (counted n E).Along InRange (counted n E).start as)
    (hsubmit : ∀ t, submitting (c.pool.th t).point = false) (hempty : ∀ i, c.pool.data.deques i = [])
    (hheld : ∀ t, holds (c.pool.th t).point = none) :
    c.pool.data.pending = 0 ↔
      2 ^ 32 ∣ ((counted n E).trace ((layer n E).lift submitted) (counted n E).start as).count true := by
  have hr := Layer.run_start (l := layer n E) h hok
  have hhollow : hollow c.pool.data = 0 := total_eq_zero.mpr fun i => by simp [hempty i]
  have hpending : c.pool.data.pending = BitVec.ofNat 32 c.pool.data.dropped.length :=
    pending_at_rest (System.reach_of_run hr) hsubmit hempty hheld
  have hcount : ((counted n E).trace ((layer n E).lift submitted) (counted n E).start as).count true =
      c.pool.data.dropped.length := by
    rw [Layer.trace h hok]
    refine (empties hr).trans ?_
    rw [show hollow ((layer n E).state c).data = 0 from hhollow, Nat.zero_add]
    rfl
  rw [hcount, hpending, ← BitVec.toNat_inj, BitVec.toNat_ofNat]
  exact (Nat.dvd_iff_mod_eq_zero ..).symm

theorem pending_zero_shared : ∃ c, (counted 2 Unit).run (counted 2 Unit).start (sharedCounter 0 1) = some c ∧
    c.pool.data.pending = 0 := by
  have hr : ((counted 2 Unit).run (counted 2 Unit).start (sharedCounter 0 1)).any fun c =>
      (∀ t, submitting (c.pool.th t).point = false) ∧ (∀ i, c.pool.data.deques i = []) ∧
      ∀ t, holds (c.pool.th t).point = none := by
    decide +kernel
  obtain ⟨c, hc, hp⟩ := System.exists_of_run hr
  obtain ⟨hsubmit, hempty, hheld⟩ := of_decide_eq_true hp
  exact ⟨c, hc, (pending_zero_iff hc (along_inRange (by decide) (by decide) (by decide)) hsubmit hempty hheld).mpr
    (by decide +kernel)⟩

/-- An empty function is submitted; the only worker `i` takes and drops it. -/
def hollowSubmit (i : Fin 1) : List (Act (Thread 1 Unit) (Pc 1)) :=
  let external : Thread 1 Unit := .external ()
  [.ext external (.submit .external (.push true i)), .exec external, .exec external, .ext external .gone,
    .exec (.worker i), .exec (.worker i), .pick (.worker i) (.worker i (.steal 1)), .exec (.worker i)]

/-- Nothing is left to do, and one task is pending. -/
theorem pending_stays : (counted 1 Unit).Along InRange (counted 1 Unit).start ((hollowSubmit 0).map .step) ∧
    ∃ c, (counted 1 Unit).run (counted 1 Unit).start ((hollowSubmit 0).map .step) = some c ∧
      (∀ t, submitting (c.pool.th t).point = false) ∧ (∀ i, c.pool.data.deques i = []) ∧
      (∀ t, holds (c.pool.th t).point = none) ∧ c.pool.data.pending = 1 := by
  refine ⟨along_inRange (by decide) (by decide) (by decide), ?_⟩
  have hr : ((counted 1 Unit).run (counted 1 Unit).start ((hollowSubmit 0).map .step)).any fun c =>
      (∀ t, submitting (c.pool.th t).point = false) ∧ (∀ i, c.pool.data.deques i = []) ∧
      (∀ t, holds (c.pool.th t).point = none) ∧ c.pool.data.pending = 1 := by decide +kernel
  obtain ⟨c, hc, hp⟩ := System.exists_of_run hr
  exact ⟨c, hc, of_decide_eq_true hp⟩

end TKH.WorkStealing
