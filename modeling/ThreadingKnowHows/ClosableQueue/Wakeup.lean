import ThreadingKnowHows.ClosableQueue.Linearizable
import ThreadingKnowHows.Framework.Wakeup

/-!
# The blocking queues lose no wakeup

Each value in the queue is an invitation to a sleeping popper, and each free
slot one to a sleeping pusher. `values` and `slots` say who accounts for
them: a popper (pusher) between its test and its effect, which uses one up,
and a pusher (popper) that has yet to notify. A `close` that has yet to
notify all accounts for the rest. This holds whether the notification comes
inside the critical section or after it (`Style.late`).
-/

namespace TKH.ClosableQueue

variable {τ α : Type*}

def PopPc.uses : PopPc α → ℕ
  | .test | .body => 1
  | _ => 0

def PushPc.uses : PushPc → ℕ
  | .test | .body => 1
  | _ => 0

/-- A push that has yet to notify a popper. -/
def PushPc.owes (S : Style) : PushPc → ℕ
  | .notify | .notifyLate => 1
  | .unlock ok => if S.late && ok then 1 else 0
  | _ => 0

/-- A pop that has yet to notify a pusher. -/
def PopPc.owes (S : Style) : PopPc α → ℕ
  | .notify _ | .notifyLate _ => 1
  | .unlock (some _) => if S.late then 1 else 0
  | _ => 0

/-- What the poppers are told. -/
def values (S : Style) : Signal (Data τ α) (Pc α) where
  need d := d.q.length
  weight
    | .push _ p => p.owes S
    | .pop p => p.uses
    | _ => 0
  urgent d := d.closed = true
  rouses
    | .close .unlock | .close .notifyEmpty => True
    | _ => False

/-- What the pushers are told. -/
def slots (S : Style) (cap : ℕ) : Signal (Data τ α) (Pc α) where
  need d := cap - d.q.length
  weight
    | .push _ p => p.uses
    | .pop p => p.owes S
    | _ => 0
  urgent d := d.closed = true
  rouses
    | .close .unlock | .close .notifyEmpty | .close .notifyFull => True
    | _ => False

theorem mayPush_eq_false {cap : ℕ} {d : Data τ α} :
    mayPush cap d = false ↔ d.closed = false ∧ cap ≤ d.q.length := by
  simp [mayPush]

theorem mayPop_eq_false {d : Data τ α} : mayPop d = false ↔ d.closed = false ∧ d.q = [] := by
  simp [mayPop]

variable {S : Style} {cap : ℕ}

/-! ## The poppers -/

theorem push_values (t : τ) (v : α) (p : PushPc) :
    (push S cap t v p).Signals held (tested cap) .empty (values S) (.push v p) := by
  cases p with
  | lock => exact ⟨Nat.zero_le _, False.elim⟩
  | test =>
    refine fun d _ => ⟨id, .inl, False.elim, .inr (.inr ?_)⟩
    dsimp only
    split <;> exact le_rfl
  | sleep => exact ⟨id, rfl⟩
  | body =>
    -- the new value is accounted for by the notification to come
    refine fun d _ => ?_
    dsimp only
    split
    · exact ⟨id, .inl, False.elim, .inr (.inr (Nat.le_add_right _ _))⟩
    · refine ⟨id, .inl, False.elim, .inr (.inr ?_)⟩
      cases hS : S.late <;> simp [values, Data.commit, PushPc.owes, hS]
  | notify => exact ⟨False.elim, Nat.le_add_left _ _⟩
  | unlock ok =>
    refine ⟨?_, False.elim⟩
    cases hS : S.late <;> cases ok <;> simp [values, PushPc.owes, hS]
  | notifyLate => exact ⟨False.elim, le_rfl⟩
  | ret ok => exact ⟨rfl, id⟩

theorem pop_values (t : τ) (p : PopPc α) :
    (pop S t p).Signals held (tested cap) .empty (values S) (.pop p) := by
  cases p with
  | lock => exact ⟨Nat.zero_le _, False.elim⟩
  | test =>
    refine fun d _ => ⟨id, .inl, False.elim, .inr ?_⟩
    dsimp only
    split
    · exact .inr le_rfl
    · rename_i h
      exact .inl (by simp [values, (mayPop_eq_false.mp (Bool.not_eq_true _ ▸ h)).2])
  | sleep =>
    refine ⟨id, le_rfl, fun d h => ?_⟩
    have h := mayPop_eq_false.mp h
    exact ⟨by simp [values, h.2], by simp [values, h.1]⟩
  | body =>
    refine fun d _ => ?_
    dsimp only
    cases hq : d.q with
    | nil => exact ⟨id, .inl, False.elim, .inr (.inl (by simp [values, Data.commit, hq]))⟩
    | cons v vs =>
      refine ⟨id, .inl, False.elim, .inr (.inr ?_)⟩
      cases hS : S.late <;> simp [values, Data.commit, PopPc.uses, hq]
  | notify v => exact ⟨False.elim, Nat.zero_le _⟩
  | unlock r => exact ⟨Nat.zero_le _, False.elim⟩
  | notifyLate v => exact ⟨False.elim, Nat.zero_le _⟩
  | ret r => exact ⟨rfl, id⟩

theorem close_values (t : τ) (p : ClosePc) :
    (close t p : Cmd τ Cv (Data τ α) (Pc α)).Signals held (tested cap) .empty (values S) (.close p) := by
  cases p with
  | lock => exact ⟨le_rfl, False.elim⟩
  | set => exact fun d _ => ⟨fun _ => rfl, fun _ => .inr trivial, False.elim, .inl rfl⟩
  | unlock => exact ⟨le_rfl, id⟩
  | notifyEmpty => exact fun h => absurd rfl h
  | notifyFull => exact fun _ => ⟨le_rfl, False.elim⟩
  | ret => exact ⟨rfl, id⟩

theorem queue_values :
    Waking (queue τ α S cap) held (fun _ => True) (tested cap) .empty (values S) where
  toAnnotation := queue_annotation
  signals t l := by
    cases l with
    | out => exact ⟨rfl, id⟩
    | push v p => exact push_values t v p
    | pop p => exact pop_values t p
    | close p => exact close_values t p

/-! ## The pushers -/

theorem push_slots (t : τ) (v : α) (p : PushPc) :
    (push S cap t v p).Signals held (tested cap) .full (slots S cap) (.push v p) := by
  cases p with
  | lock => exact ⟨Nat.zero_le _, False.elim⟩
  | test =>
    refine fun d _ => ⟨id, .inl, False.elim, .inr ?_⟩
    dsimp only
    split
    · exact .inr le_rfl
    · rename_i h
      exact .inl (Nat.sub_eq_zero_of_le (mayPush_eq_false.mp (Bool.not_eq_true _ ▸ h)).2)
  | sleep =>
    refine ⟨id, le_rfl, fun d h => ?_⟩
    have h := mayPush_eq_false.mp h
    exact ⟨Nat.sub_eq_zero_of_le h.2, by simp [slots, h.1]⟩
  | body =>
    -- the push uses up the slot it has seen
    refine fun d hp => ?_
    have hp : mayPush cap d = true := hp rfl
    dsimp only
    split
    · rename_i hc; exact ⟨id, .inl, False.elim, .inl hc⟩
    · rename_i hc
      refine ⟨id, .inl, False.elim, .inr (.inr ?_)⟩
      have hl : d.q.length < cap := by simpa [mayPush, hc] using hp
      cases hS : S.late <;> simp [slots, Data.commit, PushPc.uses] <;> omega
  | notify => exact ⟨False.elim, Nat.zero_le _⟩
  | unlock ok => exact ⟨Nat.zero_le _, False.elim⟩
  | notifyLate => exact ⟨False.elim, Nat.zero_le _⟩
  | ret ok => exact ⟨rfl, id⟩

theorem pop_slots (t : τ) (p : PopPc α) :
    (pop S t p).Signals held (tested cap) .full (slots S cap) (.pop p) := by
  cases p with
  | lock => exact ⟨Nat.zero_le _, False.elim⟩
  | test =>
    refine fun d _ => ⟨id, .inl, False.elim, .inr (.inr ?_)⟩
    dsimp only
    split <;> exact le_rfl
  | sleep => exact ⟨id, rfl⟩
  | body =>
    -- the new slot is accounted for by the notification to come
    refine fun d _ => ?_
    dsimp only
    cases hq : d.q with
    | nil => exact ⟨id, .inl, False.elim, .inr (.inr (by simp [slots, Data.commit, PopPc.owes, hq]))⟩
    | cons v vs =>
      refine ⟨id, .inl, False.elim, .inr (.inr ?_)⟩
      cases hS : S.late <;> simp [slots, Data.commit, PopPc.owes, hq, hS] <;> omega
  | notify v => exact ⟨False.elim, Nat.le_add_left _ _⟩
  | unlock r =>
    refine ⟨?_, False.elim⟩
    cases hS : S.late <;> cases r <;> simp [slots, PopPc.owes, hS]
  | notifyLate v => exact ⟨False.elim, le_rfl⟩
  | ret r => exact ⟨rfl, id⟩

theorem close_slots (t : τ) (p : ClosePc) :
    (close t p : Cmd τ Cv (Data τ α) (Pc α)).Signals held (tested cap) .full (slots S cap) (.close p) := by
  cases p with
  | lock => exact ⟨le_rfl, False.elim⟩
  | set => exact fun d _ => ⟨fun _ => rfl, fun _ => .inr trivial, False.elim, .inl rfl⟩
  | unlock => exact ⟨le_rfl, id⟩
  | notifyEmpty => exact fun _ => ⟨le_rfl, id⟩
  | notifyFull => exact fun h => absurd rfl h
  | ret => exact ⟨rfl, id⟩

theorem queue_slots :
    Waking (queue τ α S cap) held (fun _ => True) (tested cap) .full (slots S cap) where
  toAnnotation := queue_annotation
  signals t l := by
    cases l with
    | out => exact ⟨rfl, id⟩
    | push v p => exact push_slots t v p
    | pop p => exact pop_slots t p
    | close p => exact close_slots t p

/-! ## Quiet states -/

/-- The waits of the queue. -/
theorem wait_point {t : τ} {l k : Pc α} {c : Cv} (h : (queue τ α S cap).code t l = .wait c k) :
    (c = .full ∧ ∃ v, k = .push v .test) ∨ (c = .empty ∧ k = .pop .test) := by
  cases l with
  | out => cases h
  | push v p => cases p <;> cases h; exact .inl ⟨rfl, v, rfl⟩
  | pop p => cases p <;> cases h; exact .inr ⟨rfl, rfl⟩
  | close p => cases p <;> cases h

variable [DecidableEq τ] [Fintype τ]

theorem full_quiet {s : State τ Cv (Data τ α) (Pc α)} (h : (queue τ α S cap).system.Reach s)
    (hq : (queue τ α S cap).Quiet s) {t : τ} {k : Pc α} (ht : s.th t = .asleep .full k) :
    s.data.closed = false ∧ s.data.q.length = cap := by
  obtain ⟨hn, hu⟩ := queue_slots.asleep h hq ht
  have hle : s.data.q.length ≤ cap := runs_length (history_runs h) (Nat.zero_le _)
  exact ⟨by simpa [slots] using hu, hle.antisymm (Nat.sub_eq_zero_iff_le.mp hn)⟩

theorem empty_quiet {s : State τ Cv (Data τ α) (Pc α)} (h : (queue τ α S cap).system.Reach s)
    (hq : (queue τ α S cap).Quiet s) {t : τ} {k : Pc α} (ht : s.th t = .asleep .empty k) :
    s.data.closed = false ∧ s.data.q = [] := by
  obtain ⟨hn, hu⟩ := queue_values.asleep h hq ht
  exact ⟨by simpa [values] using hu, List.length_eq_zero_iff.mp hn⟩

/-- No wakeup is lost: when no thread can go on, a sleeping pusher sees an open
and full queue, a sleeping popper an open and empty one. -/
theorem queue_no_lost_wakeup (S : Style) (cap : ℕ) {s : State τ Cv (Data τ α) (Pc α)}
    (h : (queue τ α S cap).system.Reach s) (hq : (queue τ α S cap).Quiet s) {t : τ} {c : Cv} {k : Pc α}
    (ht : s.th t = .asleep c k) :
    s.data.closed = false ∧
      ((c = .full ∧ (∃ v, k = .push v .test) ∧ mayPush cap s.data = false ∧ s.data.q.length = cap) ∨
        (c = .empty ∧ k = .pop .test ∧ mayPop s.data = false ∧ s.data.q = [])) := by
  obtain ⟨l, hl⟩ := Program.wait_of_asleep h ht
  rcases wait_point hl with ⟨rfl, hk⟩ | ⟨rfl, hk⟩
  · obtain ⟨hc, hn⟩ := full_quiet h hq ht
    exact ⟨hc, .inl ⟨rfl, hk, mayPush_eq_false.mpr ⟨hc, hn.ge⟩, hn⟩⟩
  · obtain ⟨hc, he⟩ := empty_quiet h hq ht
    exact ⟨hc, .inr ⟨rfl, hk, mayPop_eq_false.mpr ⟨hc, he⟩, he⟩⟩

/-- The threads `t` and `u` wait to push on a full queue. A pop of `w` wakes `t`, which pushes,
and the queue is full again. -/
def handOver (t u w : Fin 3) : List (Act (Fin 3) (Pc ℕ)) :=
  [[.ext t (.push 3 .lock)], List.replicate 5 (.exec t), [.ext t .out],
    [.ext t (.push 5 .lock)], List.replicate 3 (.exec t), [.ext u (.push 7 .lock)], List.replicate 3 (.exec u),
    [.ext w (.pop .lock)], List.replicate 3 (.exec w), [.wake w t, .exec w, .ext w .out],
    [.relock t], List.replicate 4 (.exec t), [.ext t .out]].flatten

/-- The other one sleeps, and it should. -/
theorem queue_no_lost_wakeup_full :
    ∃ s, (queue (Fin 3) ℕ Queue 1).system.run (queue (Fin 3) ℕ Queue 1).system.start (handOver 0 1 2) = some s ∧
      (queue (Fin 3) ℕ Queue 1).Quiet s ∧ (∃ v, s.th 1 = .asleep .full (.push v .test)) ∧ s.data.closed = false ∧
      mayPush 1 s.data = false := by
  have hr : ((queue (Fin 3) ℕ Queue 1).system.run (queue (Fin 3) ℕ Queue 1).system.start (handOver 0 1 2)).any fun s =>
      (∀ t, (queue (Fin 3) ℕ Queue 1).blocked s t = true) ∧ (s.th 1).sleepsOn .full = true := by decide +kernel
  obtain ⟨s, hs, hp⟩ := System.exists_of_run hr
  obtain ⟨hblocked, hsleeps⟩ := of_decide_eq_true hp
  have hq : (queue (Fin 3) ℕ Queue 1).Quiet s := quiet_of_blocked hblocked
  obtain ⟨k, ht⟩ := Status.sleepsOn_iff.mp hsleeps
  obtain ⟨hc, ⟨-, ⟨v, rfl⟩, hp, -⟩ | ⟨h, -⟩⟩ := queue_no_lost_wakeup Queue 1 (System.reach_of_run hs) hq ht
  · exact ⟨s, hs, hq, ⟨v, ht⟩, hc, hp⟩
  · cases h

end TKH.ClosableQueue
