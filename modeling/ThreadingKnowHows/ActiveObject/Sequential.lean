import ThreadingKnowHows.ActiveObject.Drain
import ThreadingKnowHows.Framework.Trace

/-!
# The account is sequential

The requests in the order of the critical sections of `post` are one sequence
that contains the calls of each client (`requests_of_called`) and the order of
the calls in time (`posted_of_path`), and the answers are those of the account
without threads.
-/

namespace TKH.ActiveObject

variable {E : Type} [DecidableEq E] [Fintype E] {s s' : State (Thread E) Cv (Data E) (Pc E)}
  {a : Act (Thread E) (Pc E)}

/-! ## The order of the requests -/

/-- The call that a client starts in a step. -/
def called (e : E) (_ : State (Thread E) Cv (Data E) (Pc E)) : Act (Thread E) (Pc E) → List Op
  | .ext t (.post _ op .lock) => if t = .client e then [op] else []
  | _ => []

/-- The call that a client has started and not posted yet. -/
def unposted : Pc E → List Op
  | .post _ op .lock | .post _ op .push => [op]
  | _ => []

omit [DecidableEq E] [Fintype E] in
theorem unposted_of_leads {t : Thread E} {l k : Pc E} {d : Data E} (h : ((account E).code t l).Leads d k) :
    unposted k = unposted l ∨ (∃ js, l = .out js) ∨ ∃ js op, l = .post js op .push := by
  rcases next_of_leads h with ⟨js, rfl, -⟩ | ⟨js, op, p, _, rfl, rfl⟩ | ⟨_, _, _, rfl, rfl⟩ | ⟨_, _, rfl, rfl⟩ |
    ⟨_, _, rfl, rfl⟩ | ⟨_, _, rfl, rfl⟩
  · exact .inr (.inl ⟨js, rfl⟩)
  · cases p with
    | push => exact .inr (.inr ⟨js, op, rfl⟩)
    | ret => cases isOut_iff.mp h
    | _ => cases h; exact .inl rfl
  all_goals exact .inl rfl

omit [DecidableEq E] [Fintype E] in
/-- A client starts a call when it is outside. -/
theorem out_of_call [DecidableEq E] {t : Thread E} {js : List ℕ} {op : Op}
    (hs : (account E).Step s (.ext t (.post js op .lock)) s') :
    unposted (s.th t).point = [] ∧ s' = s.goto t (.post js op .lock) := by
  cases hs with
  | @ext t l us ok k hl hc _ hk =>
    rw [hl]
    refine ⟨?_, rfl⟩
    cases l with
    | out => rfl
    | post ks op p =>
      cases p with
      | ret => rfl
      | _ => cases hc
    | worker p => cases p <;> cases hc
    | destructor p =>
      cases p with
      | idle => rfl
      | _ => cases hc
    | await => cases hc

omit [Fintype E] in
/-- A client that starts no call leaves its request unposted, or posts it. -/
theorem unposted_step (hs : (account E).Step s a s') {e : E}
    (hcall : ∀ js op, a ≠ .ext (.client e) (.post js op .lock)) :
    unposted (s'.th (.client e)).point = unposted (s.th (.client e)).point ∨
      ∃ js op, s.th (.client e) = .run (.post js op .push) ∧
        s' = { s.goto (.client e) (.post js op (.unlock s.data.posted.length)) with
          data := { s.data with
            q := s.data.q ++ [⟨s.data.posted.length, .client e, op⟩]
            posted := s.data.posted ++ [⟨s.data.posted.length, .client e, op⟩] } } := by
  rcases hs.leads (.client e) with ⟨hp, -⟩ | ⟨l, hl, hk, -⟩
  · exact .inl (by rw [hp])
  rw [hl, Status.point_run]
  rcases unposted_of_leads hk with he | ⟨js, rfl⟩ | ⟨js, op, rfl⟩
  · exact .inl he
  · rcases hs.of_ext hl rfl with hstay | ⟨k, rfl, hok, rfl⟩
    · exact .inl (by rw [hstay]; rfl)
    · rcases clientStep_iff.mp hok with ⟨op, rfl⟩ | ⟨j, -, rfl⟩
      · exact absurd rfl (hcall js op)
      · exact .inl (by simp [State.goto, unposted])
  · rcases hs.of_act hl rfl with hstay | ⟨-, rfl⟩
    · exact .inl (by rw [hstay]; rfl)
    · exact .inr ⟨js, op, rfl, rfl⟩

omit [Fintype E] in
theorem called_step (hs : (account E).Step s a s') (e : E) :
    (requests s'.data e).map Request.op ++ unposted (s'.th (.client e)).point =
      (requests s.data e).map Request.op ++ unposted (s.th (.client e)).point ++ called e s a := by
  by_cases hcall : ∃ js op, a = .ext (.client e) (.post js op .lock)
  · obtain ⟨js, op, rfl⟩ := hcall
    obtain ⟨hnil, rfl⟩ := out_of_call hs
    rw [hnil]
    simp [State.goto, called, unposted]
  push Not at hcall
  have hnil : called e s a = [] := by
    unfold called
    split
    · exact if_neg fun ht => hcall _ _ (by rw [ht])
    · rfl
  rw [hnil, List.append_nil]
  rcases unposted_step hs hcall with he | ⟨js, op, hat, rfl⟩
  · rw [he]
    suffices hreq : requests s'.data e = requests s.data e by rw [hreq]
    rcases data_step hs with ⟨-, hp, -⟩ | ⟨t, js, op, ht, ht', hp, -⟩ | ⟨-, -, hp, -⟩
    · rw [requests, hp]; rfl
    · have hne : t ≠ .client e := by
        rintro rfl
        rw [ht, ht'] at he; cases he
      simp [requests, hp, hne]
    · rw [requests, hp]; rfl
  · simp [State.goto, unposted, requests, hat]

/-- The requests of a client are its calls, in their order. -/
theorem requests_of_called {as : List (Act (Thread E) (Pc E))}
    (hr : (account E).system.run (account E).system.start as = some s) (e : E) :
    (requests s.data e).map Request.op ++ unposted (s.th (.client e)).point =
      (account E).system.trace (called e) (account E).system.start as :=
  System.trace_inv (I := fun ops s => (requests s.data e).map Request.op ++ unposted (s.th (.client e)).point = ops)
    hr (System.along_true _ _) rfl fun _ _ ha ih => by rw [called_step (Program.step_of_next ha), ih]

theorem posted_of_path {ok : State (Thread E) Cv (Data E) (Pc E) → Act (Thread E) (Pc E) → Prop}
    (hp : (account E).system.Path ok s s') : s.data.posted <+: s'.data.posted := by
  refine hp.inv (I := fun s' => s.data.posted <+: s'.data.posted) List.prefix_rfl fun _ _ ha ih => ih.trans ?_
  rcases data_step (Program.step_of_next ha) with ⟨-, he, -⟩ | ⟨_, _, _, -, -, he, -⟩ | ⟨_, -, he, -⟩
  · exact he ▸ List.prefix_rfl
  · exact he ▸ List.prefix_append _ _
  · exact he ▸ List.prefix_rfl

/-- Where the worker is. -/
theorem serves (h : (account E).system.Reach s) : ∃ p, (s.th .worker).point = .worker p ∧ Serves s.data p := by
  have hk := account_local.assert h .worker
  cases hp : (s.th .worker).point with
  | worker p => rw [hp] at hk; exact ⟨p, rfl, hk⟩
  | _ => rw [hp] at hk; exact hk.elim

theorem calls_eq (h : (account E).system.Reach s) (e : E) :
    (requests s.data e).map Request.id = calls (s.th (.client e)).point :=
  (account_local.assert h (.client e)).2

theorem lt_of_calls (h : (account E).system.Reach s) {e : E} {j : ℕ} (hj : j ∈ calls (s.th (.client e)).point) :
    j < s.data.posted.length := by
  obtain ⟨p, -, hserves⟩ := serves h
  rw [← calls_eq h e] at hj
  have hmem : j ∈ s.data.posted.map Request.id := List.map_subset _ (List.filter_subset_self _) hj
  rwa [hserves.numbered, List.mem_range] at hmem

/-- What is posted after `s` comes after what was posted in `s`. -/
theorem calls_of_path (h : (account E).system.Reach s) (h' : (account E).system.Reach s')
    (hp : s.data.posted <+: s'.data.posted) (e : E) :
    ∃ new, calls (s'.th (.client e)).point = calls (s.th (.client e)).point ++ new ∧
      ∀ j ∈ new, s.data.posted.length ≤ j := by
  obtain ⟨rest, hrest⟩ := hp
  obtain ⟨_, -, hserves⟩ := serves h
  obtain ⟨_, -, hserves'⟩ := serves h'
  refine ⟨(rest.filter fun r => r.caller = .client e).map Request.id, ?_, fun j hj => ?_⟩
  · rw [← calls_eq h e, ← calls_eq h' e, requests, ← hrest, List.filter_append, List.map_append]
    rfl
  · have hn := hserves'.numbered
    rw [← hrest, List.map_append, hserves.numbered, List.length_append, List.range_add] at hn
    have hmem : j ∈ rest.map Request.id := List.map_subset _ (List.filter_subset_self _) hj
    rw [List.append_cancel_left hn] at hmem
    obtain ⟨i, -, rfl⟩ := List.mem_map.mp hmem
    exact Nat.le_add_right _ _

/-! ## The end -/

/-- A promise is set at most once. -/
theorem values_nodup (h : (account E).system.Reach s) : (s.data.values.map fun x => x.1.id).Nodup := by
  obtain ⟨p, -, hserves⟩ := serves h
  have hn : (s.data.posted.map Request.id).Nodup := hserves.numbered ▸ List.nodup_range
  rw [hserves.split, List.append_assoc, List.map_append, List.map_map] at hn
  exact hn.of_append_left

/-- Every request has been answered, and the balance is what they leave. -/
def Settles (s : State (Thread E) Cv (Data E) (Pc E)) : Prop :=
  s.data.values.map Prod.fst = s.data.posted ∧
    sequential.Runs sequential.start (answers s.data) s.data.balance ∧
    ∀ e, ∀ j ∈ calls (s.th (.client e)).point, ready s.data j = true

theorem settles (h : (account E).system.Reach s) (hq : s.data.q = [])
    (hhand : ∀ p, (s.th .worker).point = .worker p → hand p = []) : Settles s := by
  obtain ⟨p, hp, hserves⟩ := serves h
  have hall : s.data.values.map Prod.fst = s.data.posted := by
    rw [hserves.split, hhand p hp, hq, List.append_nil, List.append_nil]
  obtain ⟨b, hr, hb⟩ := hserves.runs
  refine ⟨hall, ?_, fun e j hj => ?_⟩
  · have hb : b = s.data.balance := by
      have := hhand p hp
      cases p <;> first | exact hb | cases this
    rwa [← hb]
  · have hj := List.mem_range.mpr (lt_of_calls h hj)
    rw [← hserves.numbered, ← hall, List.map_map] at hj
    obtain ⟨x, hx, rfl⟩ := List.mem_map.mp hj
    exact List.any_eq_true.mpr ⟨x, hx, by simp⟩

/-- The destructor returns after the worker has. -/
def joined : Pc E → Thread E → Prop
  | .destructor .returned, .worker => True
  | _, _ => False

omit [DecidableEq E] [Fintype E] in
theorem joined_of_leads {t u : Thread E} {l k : Pc E} {d : Data E} (hk : ((account E).code t l).Leads d k)
    (hu : joined k u) : joined l u ∨ ((account E).code t l).awaits u = true := by
  rcases next_of_leads hk with ⟨js, -, hc⟩ | ⟨_, _, _, _, -, rfl⟩ | ⟨_, _, _, -, rfl⟩ | ⟨_, _, -, rfl⟩ |
    ⟨_, _, -, rfl⟩ | ⟨p, p', rfl, rfl⟩
  · rcases clientStep_iff.mp hc with ⟨op, rfl⟩ | ⟨j, -, rfl⟩ <;> exact hu.elim
  · exact hu.elim
  · exact hu.elim
  · exact hu.elim
  · exact hu.elim
  · cases p with
    | join =>
      cases hk
      cases u with
      | worker => exact .inr rfl
      | _ => exact hu.elim
    | idle => cases destruct_idle_iff.mp hk; exact hu.elim
    | returned => cases hk
    | _ => cases hk; exact hu.elim

theorem worker_halted (h : (account E).system.Reach s) (hret : s.th .destructor = .run (.destructor .returned)) :
    s.th .worker = .run (.worker .returned) := by
  have hj : joined (s.th .destructor).point .worker := by rw [hret]; trivial
  have hh : (account E).halted s .worker = true :=
    halted_of_joined (fun t u hu => by cases t <;> cases u <;> exact hu) (fun _ _ _ _ _ => joined_of_leads) h hj
  obtain ⟨l, hl, hc⟩ := Program.halted_iff.mp hh
  obtain ⟨p, hp, -⟩ := serves h
  rw [hl] at hp
  cases hp
  cases p <;> cases hc
  exact hl

theorem settled_of_returned (h : (account E).system.ReachBy Proper s)
    (hret : s.th .destructor = .run (.destructor .returned)) : s.data.q = [] ∧ Settles s := by
  have hw := worker_halted h.reach hret
  have hq := (empty_of_left h (by rw [hw]; rfl)).2
  refine ⟨hq, settles h.reach hq fun p hp => ?_⟩
  rw [hw] at hp
  cases hp
  rfl

/-- Only the worker sleeps, in the wait of `run`. -/
theorem sleeper (h : (account E).system.Reach s) {t : Thread E} {c : Cv} {k : Pc E} (hk : s.th t = .asleep c k) :
    k = .worker .test := by
  obtain ⟨l, hl⟩ := Program.wait_of_asleep h hk
  cases l with
  | worker p =>
    cases p with
    | sleep => cases hl; rfl
    | _ => cases hl
  | post js op p => cases p <;> cases hl
  | destructor p => cases p <;> cases hl
  | _ => cases hl

/-- In a quiet state the worker sleeps, with nothing to do, or has returned. -/
theorem worker_quiet (h : (account E).system.ReachBy Proper s) (hq : (account E).Quiet s) :
    (s.data.q = [] ∧ s.data.done = false ∧ s.th .worker = .asleep .cv (.worker .test)) ∨
      (s.data.q = [] ∧ s.th .worker = .run (.worker .returned)) := by
  obtain ⟨p, hp, -⟩ := serves h.reach
  rcases (account_discipline.quiet (account_discipline.locked h.reach) hq).2 .worker with ⟨l, hl, hrest⟩ | ⟨⟨⟩, k, hk⟩
  · rw [hl] at hp
    cases hp
    cases p with
    | returned => exact .inr ⟨(empty_of_left h (by rw [hl]; rfl)).2, hl⟩
    | _ => exact hrest.elim
  · obtain ⟨hneed, hurgent⟩ := account_jobs.asleep h.reach hq hk
    refine .inl ⟨List.length_eq_zero_iff.mp hneed, by simpa [jobs] using hurgent, ?_⟩
    rw [hk, sleeper h.reach hk]

theorem settled_of_quiet (h : (account E).system.ReachBy Proper s) (hq : (account E).Quiet s) :
    s.data.q = [] ∧ Settles s ∧ (∀ c k, s.th .worker = .asleep c k → s.data.done = false) ∧
      ((s.th .destructor).point = .destructor .idle ∨ s.th .destructor = .run (.destructor .returned)) ∧
      ∀ e js j, s.th (.client e) ≠ .run (.await js j) := by
  have hempty : s.data.q = [] := by rcases worker_quiet h hq with ⟨he, -⟩ | ⟨he, -⟩ <;> exact he
  have hsettles : Settles s := settles h.reach hempty fun p hp => by
    rcases worker_quiet h hq with ⟨-, -, hw⟩ | ⟨-, hw⟩ <;> (rw [hw] at hp; cases hp; rfl)
  refine ⟨hempty, hsettles, fun c k hk => ?_, ?_, fun e js j hl => ?_⟩
  · rcases worker_quiet h hq with ⟨-, hd, -⟩ | ⟨-, hw⟩
    · exact hd
    · rw [hw] at hk; cases hk
  · have hknows := account_local.assert h.reach .destructor
    rcases (account_discipline.quiet (account_discipline.locked h.reach) hq).2 .destructor with
      ⟨l, hl, hrest⟩ | ⟨c, k, hk⟩
    · rw [hl] at hknows ⊢
      cases l with
      | destructor p =>
        cases p with
        | idle => exact .inl rfl
        | returned => exact .inr rfl
        | join =>
          -- the flag is set, so the worker has returned
          rcases worker_quiet h hq with ⟨-, hd, -⟩ | ⟨-, hw⟩
          · cases hd.symm.trans hknows
          · refine (not_step_of_quiet hq (.join hl rfl fun u hu => ?_) trivial).elim
            cases u with
            | worker => exact Program.halted_iff.mpr ⟨_, hw, rfl⟩
            | _ => cases hu
        | _ => exact hrest.elim
      | _ => exact hknows.elim
    · rw [hk, sleeper h.reach hk] at hknows
      exact hknows.elim
  · have hk := account_local.assert h.reach (.client e)
    have hready := hsettles.2.2 e j (by rw [hl]; rw [hl] at hk; exact hk.1)
    exact not_step_of_quiet hq (.pick hl rfl (Bool.and_eq_true_iff.mpr ⟨hready, isOut_iff.mpr rfl⟩)) trivial

/-- Each future has the value that the account without threads gives to its
call, where the calls come in the order of the critical sections of `post`. -/
theorem account_sequential {as : List (Act (Thread E) (Pc E))}
    (hr : (account E).system.run (account E).system.start as = some s)
    (hok : (account E).system.Along Proper (account E).system.start as) :
    s.data.posted.map Request.id = List.range s.data.posted.length ∧
    (∀ e, (requests s.data e).map Request.id = calls (s.th (.client e)).point ∧
      (requests s.data e).map Request.op ++ unposted (s.th (.client e)).point =
        (account E).system.trace (called e) (account E).system.start as) ∧
    (∀ s', (account E).system.Path Proper s s' → s.data.posted <+: s'.data.posted ∧
      ∀ e, ∃ new, calls (s'.th (.client e)).point = calls (s.th (.client e)).point ++ new ∧
        ∀ e', ∀ j ∈ calls (s.th (.client e')).point, ∀ j' ∈ new, j < j') ∧
    (∃ rest b, s.data.posted = s.data.values.map Prod.fst ++ rest ∧
      sequential.Runs sequential.start (answers s.data) b) ∧
    (s.data.values.map fun x => x.1.id).Nodup ∧
    (s.th .destructor = .run (.destructor .returned) → s.data.q = [] ∧ Settles s) ∧
    ((account E).Quiet s → s.data.q = [] ∧ Settles s ∧
      (∀ c k, s.th .worker = .asleep c k → s.data.done = false) ∧
      ((s.th .destructor).point = .destructor .idle ∨ s.th .destructor = .run (.destructor .returned)) ∧
      ∀ e js j, s.th (.client e) ≠ .run (.await js j)) := by
  have h : (account E).system.ReachBy Proper s := System.path_of_along hr hok
  obtain ⟨p, -, hserves⟩ := serves h.reach
  refine ⟨hserves.numbered, fun e => ⟨calls_eq h.reach e, requests_of_called hr e⟩, fun s' hp => ?_, ?_,
    values_nodup h.reach, settled_of_returned h, settled_of_quiet h⟩
  · have hpre := posted_of_path hp
    refine ⟨hpre, fun e => ?_⟩
    obtain ⟨new, hnew, hle⟩ := calls_of_path h.reach (System.ReachBy.reach (h.trans hp)) hpre e
    exact ⟨new, hnew, fun e' j hj j' hj' => (lt_of_calls h.reach hj).trans_le (hle j' hj')⟩
  · obtain ⟨b, hruns, -⟩ := hserves.runs
    exact ⟨hand p ++ s.data.q, b, by rw [← List.append_assoc]; exact hserves.split, hruns⟩

/-- Two clients: one deposits, the other withdraws more than that and asks for
the balance. -/
def overdraft : List (Act (Thread Bool) (Pc Bool)) :=
  let steps (t : Thread Bool) (k : ℕ) : List (Act (Thread Bool) (Pc Bool)) := List.replicate k (.exec t)
  let call (c : Bool) (js : List ℕ) (op : Op) (j : ℕ) : List (Act (Thread Bool) (Pc Bool)) :=
    .ext (.client c) (.post js op .lock) :: steps (.client c) 4 ++ [.ext (.client c) (.out (js ++ [j]))]
  [call true [] (.deposit 100) 0, call false [] (.withdraw 120) 1, steps .worker 6, call false [1] .getBalance 2,
    steps .worker 12, [.ext (.client false) (.await [1, 2] 2), .pick (.client false) (.out [1, 2])],
    [.ext .destructor (.destructor .lock)], steps .destructor 4, steps .worker 4, steps .destructor 1].flatten

theorem account_sequential_overdraft :
    ∃ s, (account Bool).system.run (account Bool).system.start overdraft = some s ∧
      answers s.data = [(.deposit 100, .unit), (.withdraw 120, .ok false), (.getBalance, .balance 100)] ∧
      s.data.q = [] ∧ Settles s := by
  have hr : ((account Bool).system.run (account Bool).system.start overdraft).any
      (fun s => s.th .destructor = .run (.destructor .returned) ∧
        answers s.data = [(.deposit 100, .unit), (.withdraw 120, .ok false), (.getBalance, .balance 100)]) = true := by
    decide +kernel
  obtain ⟨s, hs, hp⟩ := System.exists_of_run hr
  obtain ⟨hret, hanswers⟩ := of_decide_eq_true hp
  have hok : (account Bool).system.Along Proper (account Bool).system.start overdraft := by decide +kernel
  obtain ⟨-, -, -, -, -, hreturned, -⟩ := account_sequential hs hok
  exact ⟨s, hs, hanswers, hreturned hret⟩

end TKH.ActiveObject
