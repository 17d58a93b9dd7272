import ThreadingKnowHows.FibTasks.Steps

/-!
# The result does not depend on the schedule

A variable has been assigned when the task that owns it is done, so it is
assigned once, and before the sum that reads it (`Log`). The run goes on until
all tasks are complete, and by then `r` has the value of the serial recursion.
-/

namespace TKH.FibTasks

variable {τ : Type} [DecidableEq τ] {w : ℕ} {n : ℤ} {s s' : State τ} {a : Tasks.Act τ}

/-! ## The assignments of a run -/

omit [DecidableEq τ] in
theorem done_of_put {p : TaskId} {T : Tasks.Task Point} (h : s'.task = Function.update s.task p (some T))
    (hdone : T.point.pc = .done ↔ pcAt s p = some .done) (q : TaskId) : pcAt s' q = some .done ↔ pcAt s q = some .done := by
  rw [pcAt_of_put h]
  by_cases hq : q = p
  · subst hq
    rw [Function.update_self, Option.some.injEq, hdone]
  · rw [Function.update_of_ne hq]

/-- What a step outputs, and which tasks are done after it. -/
inductive Outputs (s s' : State τ) : List Event → Prop
  | none : (∀ q, pcAt s' q = some .done ↔ pcAt s q = some .done) → Outputs s s' []
  | sum {p : TaskId} : pcAt s p = some .sum → (∀ q, pcAt s' q = some .done ↔ pcAt s q = some .done) → Outputs s s' [.sum p]
  | assign {x : Var} {v : ℤ} : pcAt s (owner x) = some (.assign v) →
    (∀ q, pcAt s' q = some .done ↔ q = owner x ∨ pcAt s q = some .done) → Outputs s s' [.assign (owner x) x v]

theorem outputs (h : Inv n s) (hi : Tasks.Inv s) (hs : (main w n).Step s a s') : Outputs s s' (events s a) := by
  cases hs with
  | @start t p T hT hp =>
    exact .none (done_of_put (T := { T with phase := .started }) rfl (by rw [pcAt_of_task hT, Option.some.injEq]))
  | @act t p T f d k hp hT hc hf =>
    have hat := pcAt_of_task hT
    rcases act_cases hc hf with ⟨hpc, rfl, rfl⟩ | ⟨hpc, rfl, x, y, v, -, -, -, rfl⟩ | ⟨v, hpc, rfl, rfl⟩
    · simp only [events, hT, hpc]
      refine .none (done_of_put rfl ?_)
      simp only [Point.goto, hat, hpc]
      split <;> simp
    · simp only [events, hT, hpc]
      exact .sum (hpc ▸ hat) (done_of_put rfl (by simp [Point.goto, hat, hpc]))
    · simp only [events, hT, hpc]
      obtain rfl := (h.call hT).owner_eq
      refine .assign (hpc ▸ hat) fun q => ?_
      rw [pcAt_of_put (s := s) rfl]
      by_cases hq : q = owner T.point.x
      · subst hq
        simp [Point.goto]
      · simp [hq]
  | @create t p T child k hp hT hc =>
    rcases create_cases hc with ⟨hpc, rfl, rfl⟩ | ⟨hpc, rfl, rfl⟩
    all_goals
      simp only [events, hT, hpc]
      refine .none fun q => (done_of_put rfl ?_ q).trans (done_of_put (s := s) rfl ?_ q)
      · simp [Point.goto, pcAt_put_child hT, hpc]
      · simp [pcAt_fresh hi hT]
  | @taskwait t p T k hp hT hc =>
    obtain ⟨hpc, rfl⟩ := taskwait_cases hc
    simp only [events, hT, hpc]
    exact .none (done_of_put (s := s) rfl (by simp [Point.goto, pcAt_of_task hT, hpc]))
  | @complete t p T hp hT hc =>
    simp only [events, hT, complete_cases hc]
    exact .none (done_of_put (T := { T with phase := .complete }) rfl (by rw [pcAt_of_task hT, Option.some.injEq]))

/-- What has been assigned and summed. -/
structure Log (es : List Event) (s : State τ) : Prop where
  mem : ∀ {x}, x ∈ assigned es ↔ pcAt s (owner x) = some .done
  nodup : (assigned es).Nodup
  task : ∀ {p x v}, .assign p x v ∈ es → p = owner x
  order : ∀ p, Precedes (fun e => e.variable = some (.a p)) (· = .sum p) es ∧
    Precedes (fun e => e.variable = some (.b p)) (· = .sum p) es

omit [DecidableEq τ] in
theorem Log.step {es os : List Event} (h : Log es s) (hinv : Inv n s) (ho : Outputs s s' os) : Log (es ++ os) s' := by
  cases ho with
  | none hdone =>
    rw [List.append_nil]
    exact ⟨fun {x} => by rw [hdone, h.mem], h.nodup, h.task, h.order⟩
  | @sum p hp hdone =>
    have happ : assigned (es ++ [.sum p]) = assigned es := by simp [assigned, Event.variable]
    refine ⟨fun {x} => by rw [hdone, happ, h.mem], happ ▸ h.nodup, fun {q x v} hq => ?_, fun q => ?_⟩
    · simp only [List.mem_append, List.mem_singleton, reduceCtorEq, or_false] at hq
      exact h.task hq
    · -- both variables have been assigned
      have hbefore : ∀ {x}, pcAt s (owner x) = some .done → ∃ e ∈ es, e.variable = some x := fun hx =>
        List.mem_filterMap.mp (h.mem.mpr hx)
      refine ⟨(h.order q).1.concat fun he => ?_, (h.order q).2.concat fun he => ?_⟩
      · cases he
        exact hbefore (hinv.sum hp 0 (by decide))
      · cases he
        exact hbefore (hinv.sum hp 1 (by decide))
  | @assign x v hp hdone =>
    have happ : assigned (es ++ [.assign (owner x) x v]) = assigned es ++ [x] := by simp [assigned, Event.variable]
    refine ⟨fun {y} => ?_, ?_, fun {q y u} hq => ?_, fun q => ?_⟩
    · rw [hdone, happ, List.mem_append, List.mem_singleton, h.mem, owner_injective.eq_iff, or_comm]
    · rw [happ]
      refine List.nodup_append.mpr ⟨h.nodup, List.nodup_singleton x, fun y hy z hz => ?_⟩
      rw [List.mem_singleton.mp hz]
      rintro rfl
      simp [h.mem.mp hy] at hp
    · rcases List.mem_append.mp hq with hq | hq
      · exact h.task hq
      · cases List.mem_singleton.mp hq
        rfl
    · exact ⟨(h.order q).1.concat nofun, (h.order q).2.concat nofun⟩

theorem log {as : List (Tasks.Act τ)} (hr : ((main w n).system τ).run ((main w n).system τ).start as = some s) :
    Log (((main w n).system τ).trace events ((main w n).system τ).start as) s := by
  refine System.trace_inv (I := Log) hr (System.along_true _ _)
    ⟨fun {x} => ?_, List.nodup_nil, nofun, fun _ => ⟨precedes_nil, precedes_nil⟩⟩
    fun hp _ ha hlog => hlog.step (inv hp) (outputs (inv hp) (Tasks.inv hp) (Tasks.Program.step_of_next ha))
  refine ⟨nofun, fun hx => ?_⟩
  obtain ⟨T, hT, hpc⟩ := Option.map_eq_some_iff.mp hx
  rw [(call_start hT).2] at hpc
  cases hpc

/-! ## All schedules -/

omit [DecidableEq τ] in
/-- When no task is unfinished, all are done. -/
theorem done_of_finished (h : Inv n s) (hfin : ∀ p, ¬s.Unfinished p) {p : TaskId} (hp : s.phase p ≠ none) :
    pcAt s p = some .done := by
  obtain ⟨x, hx⟩ := Option.ne_none_iff_exists'.mp hp
  obtain ⟨T, hT, rfl⟩ := Tasks.exists_task hx
  have hphase : T.phase = .complete := by
    cases hphase : T.phase with
    | complete => rfl
    | created => exact absurd (.inl (hphase ▸ hx)) (hfin p)
    | started => exact absurd (.inr (hphase ▸ hx)) (hfin p)
  rw [pcAt_of_task hT, (h.call hT).complete hphase]

omit [DecidableEq τ] in
/-- When no task is unfinished, both variables of each call that has them have been assigned. -/
theorem Log.both {es : List Event} (hlog : Log es s) (h : Inv n s) (hi : Tasks.Inv s) (hfin : ∀ p, ¬s.Unfinished p)
    {p : TaskId} {T : Tasks.Task Point} (hT : s.task p = some T) (hle : 2 ≤ T.point.n) :
    .a p ∈ assigned es ∧ .b p ∈ assigned es := by
  have hcall := h.call hT
  have hdone := done_of_finished h hfin (p := p) (by simp [Tasks.phase_of_task hT])
  rw [pcAt_of_task hT, Option.some.injEq] at hdone
  have hforks := hcall.pc
  rw [hdone] at hforks
  have hchild : ∀ i < 2, pcAt s (i :: p) = some .done := fun i hlt => by
    refine done_of_finished h hfin (hi.child.mpr ?_)
    rw [Tasks.children_of_task hT, hforks, forks_of_le (hcall.arg_eq ▸ hle)]
    exact hlt
  exact ⟨hlog.mem.mpr (hchild 0 (by decide)), hlog.mem.mpr (hchild 1 (by decide))⟩

/-- Whatever the schedule: `a` and `b` are assigned once, by the tasks of the
call and before it adds them; the calls return the Fibonacci numbers, with no
overflow, and `r` has the value of the serial recursion when the tasks are
complete; until then some task can go on, also if tasks are tied, and that ends. -/
theorem fib_schedule_independent [Nonempty τ] {n : ℕ} (hfits : Fits w (Nat.fib n)) {as : List (Tasks.Act τ)} {s : State τ}
    (hr : ((main w n).system τ).run ((main w n).system τ).start as = some s) :
    let es := ((main w n).system τ).trace events ((main w n).system τ).start as
    ((∀ {p x v}, .assign p x v ∈ es → p = owner x) ∧ (assigned es).Nodup ∧
      ∀ p, Precedes (fun e => e.variable = some (.a p)) (· = .sum p) es ∧
        Precedes (fun e => e.variable = some (.b p)) (· = .sum p) es) ∧
    (∀ {p T v}, s.task p = some T → T.point.pc = .assign v → ∃ m : ℕ, T.point.n = m ∧ v = Nat.fib m) ∧
    ((∀ p, ¬s.Unfinished p) → s.data .r = some (serialFib n) ∧ serialFib n = Nat.fib n ∧
      ∀ {p T}, s.task p = some T → 2 ≤ T.point.n → .a p ∈ assigned es ∧ .b p ∈ assigned es) ∧
    (main w n).Defined s ∧
    (∀ {p}, s.Unfinished p → ∃ a, (((main w n).system τ).next s a).isSome ∧ (main w n).Scheduled s a ∧
      (((main w n).system τ).Along Tasks.Tied ((main w n).system τ).start as → Tasks.Tied s a)) ∧
    as.length + 8 ≤ 16 * Nat.fib (n + 1) := by
  have hreach := System.reach_of_run hr
  have hinv := inv hreach
  have hi := Tasks.inv hreach
  have hlog := log hr
  have hn : (0 : ℤ) ≤ n := Int.natCast_nonneg n
  have hdef : (main w n).Defined s := defined hinv hn (by rwa [serialFib_natCast])
  refine ⟨⟨hlog.task, hlog.nodup, hlog.order⟩, fun {p T v} hT hpc => ?_, fun hfin => ⟨?_, serialFib_natCast n, ?_⟩, hdef,
    fun hp => ?_, length_le hr⟩
  · have hcall := hinv.call hT
    obtain ⟨m, hm⟩ := Int.eq_ofNat_of_zero_le (hcall.nonneg hn)
    have hok := hcall.pc
    rw [hpc, hm] at hok
    exact ⟨m, hcall.arg_eq.trans hm, hok.1.trans (serialFib_natCast m)⟩
  · exact (hinv.var .r).trans (if_pos (done_of_finished hinv hfin (Tasks.root_ne_none hreach)))
  · exact fun hT hle => hlog.both hinv hi hfin hT hle
  · obtain ⟨a, ha, hsched⟩ := Tasks.exists_step hr hdef hp
    exact ⟨a, ha, hsched, fun htied => Tasks.tied_of_scheduled (System.path_of_along hr htied) hsched⟩

/-- `fib(2)`: `u` takes one of its tasks, and `t` the other one while it waits. -/
def shared {τ : Type} (t u : τ) : List (Tasks.Act τ) :=
  [.start t [], .exec t [], .exec t [], .start u [0], .exec t [], .exec u [0], .start t [1], .exec t [1], .exec u [0],
    .exec t [1], .exec t [1], .exec u [0], .exec t [], .exec t [], .exec t [], .exec t []]

theorem fib_schedule_independent_shared :
    ∃ s, ((main 64 2).system Bool).run ((main 64 2).system Bool).start (shared false true) = some s ∧
      s.data .r = some (serialFib 2) ∧ serialFib 2 = 1 := by
  have hr : (((main 64 2).system Bool).run ((main 64 2).system Bool).start (shared false true)).any
      (fun s => ∀ p ∈ [[], [0], [1]], s.isComplete p = true) = true := by
    decide +kernel
  obtain ⟨s, hs, hp⟩ := System.exists_of_run hr
  have hcomplete := of_decide_eq_true hp
  have hreach := System.reach_of_run hs
  have hfin : ∀ p, ¬s.Unfinished p := fun p hu => by
    have hmem := (inv hreach).mem_calls (Tasks.inv hreach) (p := p) (by rcases hu with he | he <;> simp [he])
    have hcalls : p ∈ [[], [0], [1]] := by
      rw [calls_of_le (by decide), calls_of_lt (by decide), calls_of_lt (by decide)] at hmem
      simp only [Finset.mem_insert, Finset.mem_union, Finset.mem_singleton, Prod.mk.injEq] at hmem
      simp only [List.mem_cons, List.not_mem_nil, or_false]
      tauto
    have hphase := of_decide_eq_true (hcomplete p hcalls)
    rcases hu with he | he <;> cases hphase.symm.trans he
  obtain ⟨-, -, hresult, -⟩ := fib_schedule_independent (n := 2) (by decide) hs
  obtain ⟨hvalue, hfib, -⟩ := hresult hfin
  exact ⟨s, hs, hvalue, hfib⟩

end TKH.FibTasks
