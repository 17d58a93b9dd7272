import ThreadingKnowHows.ActiveObject.Model
import ThreadingKnowHows.Framework.Flow
import ThreadingKnowHows.Framework.Object
import ThreadingKnowHows.Framework.Wakeup

/-!
# The worker answers in order

`posted`, the order of the critical sections of `post`, is the order in which
the worker answers: what it has answered, what it is working on and what is in
the queue are the requests in that order (`Serves.split`), and what it has
answered is what `sequential`, the account without threads, says
(`Serves.runs`). It sleeps only while the queue is empty (`account_jobs`), and
when it leaves the queue stays empty (`empty_of_left`).
-/

namespace TKH.ActiveObject

variable {E : Type}

/-- The account, one call after the other. -/
def sequential : Object ℤ Op Ret where
  start := 0
  apply b
    | .deposit amount => some (.unit, b + amount)
    | .withdraw amount => if b ≥ amount then some (.ok true, b - amount) else some (.ok false, b)
    | .getBalance => some (.balance b, b)

/-- What the requests were answered, in the order of the answers. -/
def answers (d : Data E) : List (Op × Ret) := d.values.map fun x => (x.1.op, x.2)

/-! ## What the threads know -/

/-- The request that the worker is working on. -/
def hand : WorkerPc E → List (Request E)
  | .unlock r | .job r | .setValue r _ => [r]
  | _ => []

/-- `b` is the balance before the request that the worker is working on. -/
def Settled (d : Data E) (b : ℤ) : WorkerPc E → Prop
  | .setValue r v => sequential.apply b r.op = some (v, d.balance)
  | _ => b = d.balance

structure Serves (d : Data E) (p : WorkerPc E) : Prop where
  numbered : d.posted.map Request.id = List.range d.posted.length
  split : d.posted = d.values.map Prod.fst ++ hand p ++ d.q
  runs : ∃ b, sequential.Runs sequential.start (answers d) b ∧ Settled d b p

/-- The worker goes on without answering. -/
theorem Serves.move {d d' : Data E} {p p' : WorkerPc E} (h : Serves d p) (hp : d'.posted = d.posted)
    (hv : d'.values = d.values) (hq : hand p' ++ d'.q = hand p ++ d.q)
    (hs : ∀ b, Settled d b p → Settled d' b p') : Serves d' p' where
  numbered := by rw [hp]; exact h.numbered
  split := by rw [hp, hv, List.append_assoc, hq, ← List.append_assoc]; exact h.split
  runs := by
    obtain ⟨b, hr, hb⟩ := h.runs
    exact ⟨b, by rwa [answers, hv], hs b hb⟩

/-- The requests that a client has posted, in the order of its calls. -/
def calls : Pc E → List ℕ
  | .out js | .await js _ => js
  | .post js _ p => match p with
    | .lock | .push => js
    | .unlock j | .notify j | .ret j => js ++ [j]
  | _ => []

/-- A client is in its code, and waits for its own futures only. -/
def AtClient : Pc E → Prop
  | .out _ | .post _ _ _ => True
  | .await js j => j ∈ js
  | _ => False

/-- The destructor has set `done_`. -/
def past : DestructorPc → Bool
  | .idle | .lock | .set => false
  | _ => true

variable [DecidableEq E]

/-- The requests of a client. -/
def requests (d : Data E) (e : E) : List (Request E) := d.posted.filter fun r => r.caller = .client e

def knows : Thread E → Pc E → Data E → Prop
  | .worker, .worker p, d => Serves d p
  | .destructor, .destructor p, d => d.done = past p
  | .client e, l, d => AtClient l ∧ (requests d e).map Request.id = calls l
  | _, _, _ => False

/-- A thread other than the worker knows only of `posted` and `done_`. -/
theorem knows_frame {u : Thread E} {k : Pc E} {d d' : Data E} (hu : u ≠ .worker) (hp : d'.posted = d.posted)
    (hd : d'.done = d.done) (h : knows u k d) : knows u k d' := by
  cases u with
  | worker => exact absurd rfl hu
  | client e => simpa only [knows, requests, hp] using h
  | destructor =>
    cases k with
    | destructor p => exact hd.trans h
    | _ => exact h

/-- The post of one thread leaves what the others know true. -/
theorem knows_push {t u : Thread E} {k : Pc E} {d : Data E} {op : Op} (hu : u ≠ t) (h : knows u k d) :
    knows u k { d with
      q := d.q ++ [⟨d.posted.length, t, op⟩]
      posted := d.posted ++ [⟨d.posted.length, t, op⟩] } := by
  cases u with
  | worker =>
    cases k with
    | worker p =>
      exact ⟨by simp [h.numbered, List.range_succ], by simp [h.split, List.append_assoc], h.runs⟩
    | _ => exact h
  | client e =>
    refine ⟨h.1, ?_⟩
    rw [← h.2]
    simp [requests, List.filter_append, Ne.symm hu]
  | destructor => cases k <;> exact h

theorem account_local : Local (account E) held (fun _ => True) tested knows where
  toAnnotation := account_annotation
  entries t := by
    cases t with
    | worker => exact ⟨rfl, rfl, 0, rfl, rfl⟩
    | client e => exact ⟨trivial, rfl⟩
    | destructor => rfl
  asserts t l := by
    cases t with
    | client e =>
      cases l with
      | worker | destructor => exact Cmd.asserts_of_not (fun d h => h.1) _
      | out js =>
        intro d k hk h
        rcases clientStep_iff.mp hk with ⟨op, rfl⟩ | ⟨j, hj, rfl⟩
        · exact ⟨trivial, h.2⟩
        · exact ⟨hj, h.2⟩
      | await js j =>
        intro d k hk h
        rw [isOut_iff.mp (Bool.and_eq_true_iff.mp hk).2]
        exact ⟨trivial, h.2⟩
      | post js op p =>
        cases p with
        | lock | unlock | notify => exact fun d h => ⟨trivial, h.2⟩
        | push =>
          refine fun d _ h => ⟨⟨trivial, ?_⟩, fun u k hu => knows_push hu⟩
          have := h.2
          simp_all [requests, List.filter_append, calls]
        | ret j =>
          intro d k hk h
          rw [isOut_iff.mp hk]
          exact ⟨trivial, h.2⟩
    | destructor =>
      cases l with
      | destructor p =>
        cases p with
        | idle =>
          intro d k hk h
          rw [destruct_idle_iff.mp hk]
          exact h
        | lock | unlock | notify | join => exact fun d h => h
        | set =>
          refine fun d _ _ => ⟨rfl, fun u k hu h => ?_⟩
          cases u with
          | worker =>
            cases k with
            | worker p => exact Serves.move h rfl rfl rfl fun _ => id
            | _ => exact h
          | client e => exact h
          | destructor => exact absurd rfl hu
        | returned => trivial
      | _ => exact Cmd.asserts_of_not (fun d => id) _
    | worker =>
      cases l with
      | worker p =>
        cases p with
        | lock | sleep | unlock | leave => exact fun d h => Serves.move h rfl rfl rfl fun _ => id
        | test =>
          refine fun d _ h => ⟨?_, fun u k _ => id⟩
          dsimp only
          split <;> exact Serves.move h rfl rfl rfl fun _ => id
        | body =>
          intro d _ h
          dsimp only
          split
          · refine ⟨?_, fun u k _ => id⟩
            split <;> exact Serves.move h rfl rfl rfl fun _ => id
          · rename_i r rs hq
            exact ⟨Serves.move h rfl rfl (by rw [hq]; rfl) fun _ => id, fun u k hu => knows_frame hu rfl rfl⟩
        | job r =>
          intro d _ h
          dsimp only
          split
          · rename_i amount hop
            refine ⟨Serves.move h rfl rfl rfl fun b hb => ?_, fun u k hu => knows_frame hu rfl rfl⟩
            cases hb
            simp [Settled, sequential, hop]
          · rename_i amount hop
            split
            · rename_i hle
              refine ⟨Serves.move h rfl rfl rfl fun b hb => ?_, fun u k hu => knows_frame hu rfl rfl⟩
              cases hb
              simp [Settled, sequential, hop, hle]
            · rename_i hle
              refine ⟨Serves.move h rfl rfl rfl fun b hb => ?_, fun u k _ => id⟩
              cases hb
              simp [Settled, sequential, hop, hle]
          · rename_i hop
            refine ⟨Serves.move h rfl rfl rfl fun b hb => ?_, fun u k _ => id⟩
            cases hb
            simp [Settled, sequential, hop]
        | setValue r v =>
          refine fun d _ h => ⟨⟨h.numbered, ?_, ?_⟩, fun u k hu => knows_frame hu rfl rfl⟩
          · simpa [hand] using h.split
          · obtain ⟨b, hr, hb⟩ := h.runs
            exact ⟨d.balance, by simpa [answers] using hr.concat hb, rfl⟩
        | returned => trivial
        | undefined => exact fun d _ h => ⟨h, fun u k _ => id⟩
      | _ => exact Cmd.asserts_of_not (fun d => id) _

/-! ## No lost wakeups -/

/-- What the worker is told. -/
def jobs : Signal (Data E) (Pc E) where
  need d := d.q.length
  weight
    | .worker .test | .worker .body => 1
    | .post _ _ (.unlock _) | .post _ _ (.notify _) => 1
    | _ => 0
  urgent d := d.done = true
  rouses
    | .destructor .unlock | .destructor .notify => True
    | _ => False

omit [DecidableEq E] in
theorem account_jobs : Waking (account E) held (fun _ => True) tested .cv jobs where
  toAnnotation := account_annotation
  signals t l := by
    cases l with
    | out | await => exact ⟨rfl, id⟩
    | post js op p =>
      cases p with
      | lock => exact ⟨Nat.zero_le _, False.elim⟩
      | push =>
        -- the new request is accounted for by the notification to come
        exact fun d _ => ⟨id, .inl, False.elim, .inr (.inr (by simp [jobs]))⟩
      | unlock => exact ⟨le_rfl, id⟩
      | notify => exact ⟨id, le_rfl⟩
      | ret => exact ⟨rfl, id⟩
    | worker p =>
      cases p with
      | lock => exact ⟨Nat.zero_le _, id⟩
      | test =>
        refine fun d _ => ⟨id, .inl, False.elim, .inr ?_⟩
        dsimp only
        split
        · exact .inr le_rfl
        · rename_i h
          exact .inl (by simp [jobs, (mayTake_eq_false.mp (Bool.not_eq_true _ ▸ h)).2])
      | sleep =>
        refine ⟨id, le_rfl, fun d h => ?_⟩
        have h := mayTake_eq_false.mp h
        exact ⟨by simp [jobs, h.2], by simp [jobs, h.1]⟩
      | body =>
        refine fun d _ => ?_
        dsimp only
        split
        · rename_i hn
          exact ⟨id, .inl, False.elim, .inr (.inl (by simp [jobs, hn]))⟩
        · rename_i r rs hr
          exact ⟨id, .inl, False.elim, .inr (.inr (by simp [jobs, hr]))⟩
      | unlock | leave => exact ⟨le_rfl, id⟩
      | job r =>
        refine fun d _ => ?_
        dsimp only
        split
        · exact ⟨id, .inl, id, .inr (.inr le_rfl)⟩
        · split <;> exact ⟨id, .inl, id, .inr (.inr le_rfl)⟩
        · exact ⟨id, .inl, id, .inr (.inr le_rfl)⟩
      | setValue | undefined => exact fun d _ => ⟨id, .inl, id, .inr (.inr le_rfl)⟩
      | returned => exact ⟨rfl, id⟩
    | destructor p =>
      cases p with
      | idle | returned | join => exact ⟨rfl, id⟩
      | lock => exact ⟨le_rfl, False.elim⟩
      | set => exact fun d _ => ⟨fun _ => rfl, fun _ => .inr trivial, False.elim, .inl rfl⟩
      | unlock => exact ⟨le_rfl, id⟩
      | notify => exact fun h => absurd rfl h

/-! ## What a step does -/

variable [Fintype E] {s s' : State (Thread E) Cv (Data E) (Pc E)} {a : Act (Thread E) (Pc E)}

omit [Fintype E] in
theorem data_step (hs : (account E).Step s a s') :
    (s'.data.q = s.data.q ∧ s'.data.posted = s.data.posted ∧ (s.data.done = true → s'.data.done = true)) ∨
    (∃ t js op, s.th t = .run (.post js op .push) ∧ s'.th t = .run (.post js op (.unlock s.data.posted.length)) ∧
      s'.data.posted = s.data.posted ++ [⟨s.data.posted.length, t, op⟩] ∧ s'.data.done = s.data.done) ∨
    ∃ r, s.data.q = r :: s'.data.q ∧ s'.data.posted = s.data.posted ∧ s'.data.done = s.data.done := by
  rcases hs.data with he | ⟨t, l, f, -, hl, hc, rfl⟩
  · exact .inl (by rw [he]; exact ⟨rfl, rfl, id⟩)
  cases l with
  | out | await => cases hc
  | post js op p =>
    cases p with
    | push => cases hc; exact .inr (.inl ⟨t, js, op, hl, by simp [State.goto], rfl, rfl⟩)
    | _ => cases hc
  | worker p =>
    cases p with
    | body =>
      cases hc
      dsimp only
      split
      · exact .inl ⟨rfl, rfl, id⟩
      · exact .inr (.inr ⟨_, ‹_›, rfl, rfl⟩)
    | job r =>
      cases hc
      dsimp only
      split
      · exact .inl ⟨rfl, rfl, id⟩
      · split <;> exact .inl ⟨rfl, rfl, id⟩
      · exact .inl ⟨rfl, rfl, id⟩
    | test | setValue | undefined => cases hc; exact .inl ⟨rfl, rfl, id⟩
    | _ => cases hc
  | destructor p =>
    cases p with
    | set => cases hc; exact .inl ⟨rfl, rfl, fun _ => rfl⟩
    | _ => cases hc

omit [DecidableEq E] [Fintype E] in
/-- Where a thread goes on. -/
theorem next_of_leads {t : Thread E} {l k : Pc E} {d : Data E} (h : ((account E).code t l).Leads d k) :
    (∃ js, l = .out js ∧ clientStep js k = true) ∨
    (∃ js op p p', l = .post js op p ∧ k = .post js op p') ∨
    (∃ js op j, l = .post js op (.ret j) ∧ k = .out (js ++ [j])) ∨
    (∃ js j, l = .await js j ∧ k = .out js) ∨
    (∃ p p', l = .worker p ∧ k = .worker p') ∨ ∃ p p', l = .destructor p ∧ k = .destructor p' := by
  cases l with
  | out js => exact .inl ⟨js, rfl, h⟩
  | post js op p =>
    refine .inr ?_
    cases p with
    | ret j => exact .inr (.inl ⟨js, op, j, rfl, isOut_iff.mp h⟩)
    | _ => cases h; exact .inl ⟨js, op, _, _, rfl, rfl⟩
  | await js j => exact .inr (.inr (.inr (.inl ⟨js, j, rfl, isOut_iff.mp (Bool.and_eq_true_iff.mp h).2⟩)))
  | worker p =>
    refine .inr (.inr (.inr (.inr (.inl ?_))))
    cases p with
    | body => simp only [account, run, Cmd.Leads] at h; split at h <;> exact ⟨_, _, rfl, h⟩
    | job r =>
      simp only [account, run, Cmd.Leads] at h
      split at h
      · exact ⟨_, _, rfl, h⟩
      · split at h <;> exact ⟨_, _, rfl, h⟩
      · exact ⟨_, _, rfl, h⟩
    | returned => cases h
    | _ => exact ⟨_, _, rfl, h⟩
  | destructor p =>
    refine .inr (.inr (.inr (.inr (.inr ?_))))
    cases p with
    | idle => exact ⟨_, _, rfl, destruct_idle_iff.mp h⟩
    | returned => cases h
    | _ => exact ⟨_, _, rfl, h⟩

omit [DecidableEq E] [Fintype E] in
theorem inCall_of_leads {t : Thread E} {l k : Pc E} {d : Data E} (h : ((account E).code t l).Leads d k)
    (hk : inCall k = true) : inCall l = true ∨ ∃ js, l = .out js := by
  rcases next_of_leads h with ⟨js, rfl, -⟩ | ⟨_, _, _, _, rfl, -⟩ | ⟨_, _, _, rfl, -⟩ | ⟨_, _, -, rfl⟩ |
    ⟨_, _, -, rfl⟩ | ⟨_, _, -, rfl⟩
  · exact .inr ⟨js, rfl⟩
  · exact .inl rfl
  · exact .inl rfl
  all_goals cases hk

/-- The destructor is not started while a client is in a call, and no client
starts one after that. -/
theorem idle_of_inCall (h : (account E).system.ReachBy Proper s) {e : E}
    (he : inCall (s.th (.client e)).point = true) : (s.th .destructor).point = .destructor .idle := by
  revert he
  refine h.inv (I := fun s => inCall (s.th (.client e)).point = true → (s.th .destructor).point = .destructor .idle)
    (fun he => by cases he) fun {s₁ a s₂} hr hok ha ih he => ?_
  have hs := Program.step_of_next ha
  -- the client has been in the call before, or the step is the call
  have hback : inCall (s₁.th (.client e)).point = true ∨
      ∃ k, a = .ext (.client e) k ∧ inCall k = true ∧ s₂ = s₁.goto (.client e) k := by
    rcases hs.leads (.client e) with ⟨hp, -⟩ | ⟨l, hl, hk, -⟩
    · exact .inl (hp ▸ he)
    rcases inCall_of_leads hk he with hin | ⟨js, rfl⟩
    · exact .inl (by rwa [hl])
    · rcases hs.of_ext hl rfl with hstay | ⟨k, hak, -, rfl⟩
      · rw [hstay] at he; cases he
      · exact .inr ⟨k, hak, by simpa [State.goto] using he, rfl⟩
  rcases hback with hin | ⟨k, rfl, hk, rfl⟩
  · have hidle := ih hin
    rcases hs.leads .destructor with ⟨hp, -⟩ | ⟨l, hl, -, -⟩
    · rw [hp]; exact hidle
    rw [hl, Status.point_run] at hidle
    subst hidle
    rcases hs.of_ext hl rfl with hstay | ⟨k, rfl, hk, -⟩
    · rw [hstay]; rfl
    · rw [hok.2 (destruct_idle_iff.mp hk) e] at hin; cases hin
  · rw [← hok.1 hk]
    simp [State.goto]

/-- The worker leaves, or has left. -/
def left : Pc E → Bool
  | .worker .leave | .worker .returned => true
  | _ => false

omit [DecidableEq E] [Fintype E] in
theorem left_of_leads {t : Thread E} {l k : Pc E} {d : Data E} (h : ((account E).code t l).Leads d k)
    (hk : left k = true) : left l = true ∨ (l = .worker .body ∧ d.q = []) := by
  rcases next_of_leads h with ⟨js, -, hc⟩ | ⟨_, _, _, _, -, rfl⟩ | ⟨_, _, _, -, rfl⟩ | ⟨_, _, -, rfl⟩ |
    ⟨p, p', rfl, rfl⟩ | ⟨_, _, -, rfl⟩
  · rcases clientStep_iff.mp hc with ⟨op, rfl⟩ | ⟨j, -, rfl⟩ <;> cases hk
  · cases hk
  · cases hk
  · cases hk
  · cases p with
    | test =>
      simp only [account, run, Cmd.Leads] at h
      split at h <;> (cases h; cases hk)
    | body =>
      simp only [account, run, Cmd.Leads] at h
      split at h
      · exact .inr ⟨rfl, ‹_›⟩
      · cases h; cases hk
    | job r =>
      simp only [account, run, Cmd.Leads] at h
      split at h
      · cases h; cases hk
      · split at h <;> (cases h; cases hk)
      · cases h; cases hk
    | leave | returned => exact .inl rfl
    | _ => cases h; cases hk
  · cases hk

/-- Once the flag is set and the queue is empty, nothing is posted any more. -/
theorem empty_step (h : (account E).system.ReachBy Proper s) (hs : (account E).Step s a s')
    (he : s.data.done = true ∧ s.data.q = []) : s'.data.done = true ∧ s'.data.q = [] := by
  obtain ⟨hdone, hq⟩ := he
  rcases data_step hs with ⟨hq', -, hd⟩ | ⟨t, js, op, ht, -, -, -⟩ | ⟨r, hr, -, -⟩
  · exact ⟨hd hdone, hq'.trans hq⟩
  · exfalso
    have hk := account_local.assert h.reach t
    rw [ht] at hk
    cases t with
    | client e =>
      have hidle := idle_of_inCall h (e := e) (by rw [ht]; rfl)
      have hd := account_local.assert h.reach .destructor
      rw [hidle] at hd
      cases hdone.symm.trans hd
    | _ => exact hk
  · rw [hq] at hr; cases hr

theorem empty_of_left (h : (account E).system.ReachBy Proper s) (hl : left (s.th .worker).point = true) :
    s.data.done = true ∧ s.data.q = [] := by
  revert hl
  refine h.inv (I := fun s => left (s.th .worker).point = true → s.data.done = true ∧ s.data.q = [])
    (fun hl => by cases hl) fun {s₁ a s₂} hr _ ha ih hl => ?_
  have hs := Program.step_of_next ha
  refine empty_step hr hs ?_
  rcases hs.leads .worker with ⟨hp, -⟩ | ⟨l, hat, hk, -⟩
  · exact ih (hp ▸ hl)
  rcases left_of_leads hk hl with hl₁ | ⟨rfl, hq⟩
  · exact ih (by rwa [hat])
  · have hsound := account_annotation.sound (System.ReachBy.reach hr)
    have ht : mayTake s₁.data = true := hsound.holds .worker _ hat rfl
    exact ⟨done_of_mayTake ht hq, hq⟩

end TKH.ActiveObject
