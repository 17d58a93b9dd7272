import ThreadingKnowHows.ClosableQueue.Channel

/-!
# Programs around a queue

A thread enters and leaves a queue by the calls and returns of its own code
(`cross`), and goes on inside it by itself (`inside`). Seen as the shared FIFO
queue, a call or a return changes the phase of its thread, and a step inside is
a commit or nothing.
-/

namespace TKH.ClosableQueue

variable {τ α : Type*} [DecidableEq τ] [Fintype τ]

/-- The thread `t` calls an operation of the queue, or returns from it. -/
def cross (S : Style) (cap : ℕ) (q : State τ Cv (Data τ α) (Pc α)) (t : τ) (k : Pc α) :
    Option (State τ Cv (Data τ α) (Pc α)) :=
  (queue τ α S cap).next q (.ext t k)

/-- A step inside a queue. -/
def inside (S : Style) (cap : ℕ) (q : State τ Cv (Data τ α) (Pc α)) (a : Act τ (Pc α)) :
    Option (State τ Cv (Data τ α) (Pc α)) :=
  if a.outer then none else (queue τ α S cap).next q a

variable {S : Style} {cap : ℕ} {q q' : State τ Cv (Data τ α) (Pc α)} {t : τ} {a : Act τ (Pc α)}

theorem cross_reach {k : Pc α} (hr : (queue τ α S cap).system.Reach q) (h : cross S cap q t k = some q') :
    (queue τ α S cap).system.Reach q' :=
  hr.step trivial (show (queue τ α S cap).system.next q (.ext t k) = some q' from h)

theorem cross_abs {k : Pc α} (h : cross S cap q t k = some q') :
    abs q' = { abs q with phase := Function.update (abs q).phase t (phase k) } := by
  cases Program.step_of_next (P := queue τ α S cap) (a := .ext t k) h with
  | ext => exact absState_move

/-- Only a thread whose operation took effect returns. -/
theorem cross_out (h : cross S cap q t .out = some q') : ∃ op r, (abs q).phase t = .done op r := by
  cases Program.step_of_next (P := queue τ α S cap) (a := .ext t .out) h with
  | @ext _ l _ _ _ hl hc _ hk =>
    simp only [absState, hl, Status.point_run]
    cases l with
    | out => cases hc; cases hk
    | push v p => cases p <;> cases hc; exact ⟨_, _, rfl⟩
    | pop p => cases p <;> cases hc; exact ⟨_, _, rfl⟩
    | close p => cases p <;> cases hc; exact ⟨_, _, rfl⟩

theorem cross_call {k : Pc α} (ht : q.th t = .run .out) (hk : isCall k = true) :
    cross S cap q t k = some (q.goto t k) :=
  (Program.Step.ext (P := queue τ α S cap) ht rfl (by simp) hk).next

theorem cross_return {l : Pc α} (ht : q.th t = .run l)
    (hl : (∃ v ok, l = .push v (.ret ok)) ∨ (∃ r, l = .pop (.ret r)) ∨ l = .close .ret) :
    cross S cap q t .out = some (q.goto t .out) := by
  rcases hl with ⟨v, ok, rfl⟩ | ⟨r, rfl⟩ | rfl <;>
    exact (Program.Step.ext (P := queue τ α S cap) ht rfl (by simp) rfl).next

theorem inside_reach (hr : (queue τ α S cap).system.Reach q) (h : inside S cap q a = some q') :
    (queue τ α S cap).system.Reach q' := by
  simp only [inside] at h
  split at h
  · cases h
  · exact hr.step trivial h

theorem inside_abs (hr : (queue τ α S cap).system.Reach q) (h : inside S cap q a = some q') :
    abs q' = abs q ∨ ∃ u, (atomic (fifo cap)).next (abs q) (.commit u) = some (abs q') := by
  simp only [inside] at h
  split at h
  · cases h
  · rename_i ho
    rcases queue_committing.linearizes.step hr trivial h with ⟨-, he⟩ | ⟨e, he, ha⟩
    · exact .inl he
    · cases e with
      | commit u => exact .inr ⟨u, ha⟩
      | call | ret => rw [← he] at ho; exact absurd rfl ho

theorem inside_quiet (h : ∀ a : Act τ (Pc α), a.inner → inside S cap q a = none) :
    (queue τ α S cap).Quiet q := by
  intro a ha
  have := h a ha
  simp only [inside] at this
  split at this
  · cases a <;> first | exact ha.elim | (rename_i ho; cases ho)
  · exact this

/-- A queue that nobody is in is quiet. -/
theorem quiet_of_out (h : ∀ t, q.th t = .run .out) : (queue τ α S cap).Quiet q :=
  quiet_of_blocked fun t => by simp only [Program.blocked, h t]; rfl

/-! ## A queue that one thread uses at a time -/

/-- Nobody is in the queue. -/
def vacant (d : Data τ α) : State τ Cv (Data τ α) (Pc α) where
  owner := none
  data := d
  th _ := .run .out

/-- Only `t` is in the queue, and does not hold the mutex. -/
def alone (t : τ) (l : Pc α) (d : Data τ α) : State τ Cv (Data τ α) (Pc α) := (vacant d).goto t l

omit [Fintype τ] in
@[simp] theorem alone_self (t : τ) (l : Pc α) (d : Data τ α) : (alone t l d).th t = .run l :=
  Function.update_self ..

omit [Fintype τ] in
theorem awake (t : τ) (l : Pc α) (cv : Cv) (u : τ) :
    (Function.update (fun _ => Status.run .out) t (.run l) u : Status Cv (Pc α)).sleepsOn cv = false := by
  revert u
  exact (Function.forall_update_iff (fun _ : τ => (Status.run .out : Status Cv (Pc α))) fun _ x =>
    x.sleepsOn cv = false).mpr ⟨rfl, fun _ _ => rfl⟩

omit [Fintype τ] in
theorem rouse_awake (t : τ) (l : Pc α) (cv : Cv) :
    (fun u => (Function.update (fun _ => Status.run .out) t (.run l) u : Status Cv (Pc α)).rouse cv) =
      Function.update (fun _ => .run .out) t (.run l) := by
  funext u
  by_cases hu : u = t
  · subst hu; simp
  · simp [hu]

theorem call_vacant {d : Data τ α} {k : Pc α} (hk : isCall k = true) :
    cross S cap (vacant d) t k = some (alone t k d) :=
  cross_call rfl hk

theorem return_alone {d : Data τ α} {l : Pc α}
    (hl : (∃ v ok, l = .push v (.ret ok)) ∨ (∃ r, l = .pop (.ret r)) ∨ l = .close .ret) :
    cross S cap (alone t l d) t .out = some (vacant d) := by
  rw [cross_return (alone_self t l d) hl, alone, State.goto, State.goto, Function.update_idem]
  simp [vacant]

/-- A push that finds room. -/
theorem push_alone {d : Data τ α} {v : α} (hopen : d.closed = false) (hroom : d.q.length < cap) :
    (queue τ α Queue cap).system.run (alone t (.push v .lock) d) (List.replicate 5 (.exec t)) =
      some (alone t (.push v (.ret true)) ({ d with q := d.q ++ [v] }.commit t (.push v) (.pushed true))) := by
  simp [List.replicate, System.run, Program.system, Program.next, queue, push, alone, vacant, State.goto, awake, mayPush,
    hopen, hroom, Queue, Data.commit]

/-- A pop that finds a value. -/
theorem pop_alone {d : Data τ α} {v : α} {vs : List α} (hd : d.q = v :: vs) :
    (queue τ α Queue cap).system.run (alone t (.pop .lock) d) (List.replicate 5 (.exec t)) =
      some (alone t (.pop (.ret (some v))) ({ d with q := vs }.commit t .pop (.popped (some v)))) := by
  simp [List.replicate, System.run, Program.system, Program.next, queue, pop, alone, vacant, State.goto, awake, mayPop,
    hd, Queue, Data.commit]

/-- A pop that finds the queue closed and empty. -/
theorem pop_none_alone {d : Data τ α} (hclosed : d.closed = true) (hd : d.q = []) :
    (queue τ α Queue cap).system.run (alone t (.pop .lock) d) (List.replicate 4 (.exec t)) =
      some (alone t (.pop (.ret none)) (d.commit t .pop (.popped none))) := by
  simp [List.replicate, System.run, Program.system, Program.next, queue, pop, alone, vacant, State.goto, mayPop, hclosed,
    hd, Data.commit]

theorem close_alone {d : Data τ α} : (queue τ α Queue cap).system.run (alone t (.close .lock) d) (List.replicate 5 (.exec t)) =
    some (alone t (.close .ret) ({ d with closed := true }.commit t .close .closed)) := by
  simp [List.replicate, System.run, Program.system, Program.next, queue, close, alone, vacant, State.goto, rouse_awake,
    Data.commit]

end TKH.ClosableQueue
