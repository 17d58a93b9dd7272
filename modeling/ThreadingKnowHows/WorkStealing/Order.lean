import ThreadingKnowHows.WorkStealing.Counter
import ThreadingKnowHows.WorkStealing.Drain

/-!
# Tasks are conserved, and leave the deques in order

`pushedTo v` is the history of a deque, and `stolenFrom v` what thieves have
taken from it. A deque lists a part of its history in order (`deque_sublist`);
since tasks are numbered as they are pushed, its back is its newest task and
its front the oldest, and what is stolen later is newer (`stolen_in_order`).

All this is so in whichever deques `submit` puts the tasks, and so it holds with the
counter that chooses them, until an index is out of range
(`pool_conserves_in_order`).
-/

namespace TKH.WorkStealing

variable {n : ℕ} {E : Type} [DecidableEq E] [Fintype E]
  {s s' : State (Thread n E) Empty (Data n) (Pc n)} {a : Act (Thread n E) (Pc n)}

/-- The task that is pushed to the deque `v`. -/
def pushedTo (v : Fin n) (s : State (Thread n E) Empty (Data n) (Pc n)) : Act (Thread n E) (Pc n) → List Task
  | .exec t => match s.th t with
    | .run (.submit _ (.push empty who)) => if who = v then [⟨s.data.pushed, empty⟩] else []
    | _ => []
  | _ => []

/-- The task that `steal_from(v)` returns. -/
def stolenFrom (v : Fin n) (s : State (Thread n E) Empty (Data n) (Pc n)) : Act (Thread n E) (Pc n) → List Task
  | .exec t => match s.th t with
    | .run (.worker _ (.stealFrom _ w)) => if w = v then (s.data.deques v).take 1 else []
    | _ => []
  | _ => []

/-! ## The history of a deque -/

omit [DecidableEq E] [Fintype E] in
theorem pushedTo_cases (v : Fin n) (s : State (Thread n E) Empty (Data n) (Pc n)) (a : Act (Thread n E) (Pc n)) :
    pushedTo v s a = [] ∨ ∃ t c b, a = .exec t ∧ s.th t = .run (.submit c (.push b v)) ∧
      pushedTo v s a = [⟨s.data.pushed, b⟩] := by
  cases a with
  | exec t =>
    simp only [pushedTo]
    split
    · rename_i c b who ht
      by_cases hw : who = v
      · subst hw
        exact .inr ⟨t, c, b, rfl, ht, if_pos rfl⟩
      · exact .inl (if_neg hw)
    · exact .inl rfl
  | _ => exact .inl rfl

omit [DecidableEq E] [Fintype E] in
theorem stolenFrom_cases (v : Fin n) (s : State (Thread n E) Empty (Data n) (Pc n)) (a : Act (Thread n E) (Pc n)) :
    stolenFrom v s a = [] ∨ ∃ t i k u rest, a = .exec t ∧ s.th t = .run (.worker i (.stealFrom k v)) ∧
      s.data.deques v = u :: rest ∧ stolenFrom v s a = [u] := by
  cases a with
  | exec t =>
    simp only [stolenFrom]
    split
    · rename_i i k w ht
      by_cases hw : w = v
      · subst hw
        cases hd : s.data.deques w with
        | nil => exact .inl (by simp)
        | cons u rest => exact .inr ⟨t, i, k, u, rest, rfl, ht, rfl, by simp⟩
      · exact .inl (if_neg hw)
    · exact .inl rfl
  | _ => exact .inl rfl

omit [Fintype E] in
/-- A deque that nothing is pushed to only loses tasks. -/
theorem deque_shrinks (hs : (pool n E).Step s a s') {v : Fin n} (ha : pushedTo v s a = []) :
    (s'.data.deques v).Sublist (s.data.deques v) ∧ s.data.pushed ≤ s'.data.pushed := by
  rcases deques_step hs with ⟨hd, -, hp⟩ | ⟨t, c, b, who, rfl, hl, hd⟩ | ⟨i, t, rest, ht, hd⟩
  · rw [hd, hp]
    exact ⟨List.Sublist.refl _, le_rfl⟩
  · have hw : who ≠ v := by
      rintro rfl
      simp [pushedTo, hl] at ha
    rw [hd]
    refine ⟨?_, Nat.le_succ _⟩
    simp only [Data.push, Function.update_of_ne hw.symm]
    exact List.Sublist.refl _
  · rw [hd]
    refine ⟨?_, le_rfl⟩
    by_cases hv : v = i
    · subst hv
      simpa [Data.take] using ht.sublist
    · simp [Data.take, Function.update_of_ne hv]

theorem push_step {t : Thread n E} {c : Caller n} {b : Bool} {v : Fin n} (ha : (pool n E).system.next s (.exec t) = some s')
    (hl : s.th t = .run (.submit c (.push b v))) : s'.data = s.data.push b v := by
  have hn := (Program.Step.act hl rfl : (pool n E).Step s (.exec t) _).next
  cases ha.symm.trans hn
  rfl

theorem steal_step {t : Thread n E} {i : Fin n} {k : ℕ} {v : Fin n} {u : Task} {rest : List Task}
    (ha : (pool n E).system.next s (.exec t) = some s') (hl : s.th t = .run (.worker i (.stealFrom k v)))
    (hd : s.data.deques v = u :: rest) : s'.data = s.data.take v u rest := by
  have hn := (Program.Step.act hl rfl : (pool n E).Step s (.exec t) _).next
  cases ha.symm.trans hn
  simp only [hd]

/-- The deque `v` lists a part of the tasks `log` that were pushed to it. -/
def Lists (v : Fin n) (log : List Task) (s : State (Thread n E) Empty (Data n) (Pc n)) : Prop :=
  (s.data.deques v).Sublist log ∧ log.Pairwise (fun t u => t.id < u.id) ∧ ∀ t ∈ log, t.id < s.data.pushed

theorem Lists.step {v : Fin n} {log : List Task} (h : Lists v log s) (ha : (pool n E).system.next s a = some s') :
    Lists v (log ++ pushedTo v s a) s' := by
  obtain ⟨hsub, hsorted, hlt⟩ := h
  rcases pushedTo_cases v s a with hp | ⟨t, c, b, rfl, hl, hp⟩
  · obtain ⟨hd, hle⟩ := deque_shrinks (Program.step_of_next ha) hp
    rw [hp, List.append_nil]
    exact ⟨hd.trans hsub, hsorted, fun t ht => (hlt t ht).trans_le hle⟩
  · rw [hp]
    simp only [Lists, push_step ha hl, Data.push, Function.update_self]
    refine ⟨hsub.append_right _, List.pairwise_append.mpr ⟨hsorted, List.pairwise_singleton _ _, ?_⟩, ?_⟩
    · intro t ht u hu
      rw [List.mem_singleton.mp hu]
      exact hlt t ht
    · intro t ht
      rcases List.mem_append.mp ht with ht | ht
      · exact (hlt t ht).trans (Nat.lt_succ_self _)
      · rw [List.mem_singleton.mp ht]
        exact Nat.lt_succ_self _

theorem deque_lists {as : List (Act (Thread n E) (Pc n))}
    (h : (pool n E).system.run (pool n E).system.start as = some s) (v : Fin n) :
    Lists v ((pool n E).system.trace (pushedTo v) (pool n E).system.start as) s :=
  System.trace_inv (I := Lists v) h (System.along_true _ _)
    ⟨List.Sublist.refl _, List.Pairwise.nil, fun _ ht => by cases ht⟩ fun _ _ ha hl => hl.step ha

/-- A deque is sorted by the age of its tasks. -/
theorem deque_sorted (h : (pool n E).system.Reach s) (v : Fin n) :
    (s.data.deques v).Pairwise (fun t u => t.id < u.id) ∧ ∀ t ∈ s.data.deques v, t.id < s.data.pushed := by
  obtain ⟨as, hr⟩ := h.exists_run
  obtain ⟨hsub, hsorted, hlt⟩ := deque_lists hr v
  exact ⟨hsorted.sublist hsub, fun t ht => hlt t (hsub.subset ht)⟩

/-- The tasks `log` were stolen from the deque `v`, in order, before what is in it. -/
def Precedes (v : Fin n) (log : List Task) (s : State (Thread n E) Empty (Data n) (Pc n)) : Prop :=
  log.Pairwise (fun t u => t.id < u.id) ∧
    ∀ t ∈ log, t.id < s.data.pushed ∧ ∀ u ∈ s.data.deques v, t.id < u.id

theorem Precedes.step {v : Fin n} {log : List Task} (h : Precedes v log s) (hr : (pool n E).system.Reach s)
    (ha : (pool n E).system.next s a = some s') : Precedes v (log ++ stolenFrom v s a) s' := by
  obtain ⟨hsorted, hlog⟩ := h
  rcases stolenFrom_cases v s a with hst | ⟨t, i, k, u, rest, rfl, hl, hd, hst⟩
  · rw [hst, List.append_nil]
    refine ⟨hsorted, fun t ht => ?_⟩
    obtain ⟨hlt, hbefore⟩ := hlog t ht
    rcases pushedTo_cases v s a with hp | ⟨w, c, b, rfl, hl, -⟩
    · obtain ⟨hd, hle⟩ := deque_shrinks (Program.step_of_next ha) hp
      exact ⟨hlt.trans_le hle, fun u hu => hbefore u (hd.subset hu)⟩
    · -- a new task is newer than all before
      rw [push_step ha hl]
      refine ⟨hlt.trans (Nat.lt_succ_self _), fun u hu => ?_⟩
      simp only [Data.push, Function.update_self, List.mem_append, List.mem_singleton] at hu
      rcases hu with hu | rfl
      · exact hbefore u hu
      · exact hlt
  · obtain ⟨hdeque, hpushed⟩ := deque_sorted hr v
    rw [hd] at hdeque hpushed
    rw [hst, Precedes, steal_step ha hl hd]
    simp only [Data.take, Function.update_self]
    refine ⟨List.pairwise_append.mpr ⟨hsorted, List.pairwise_singleton _ _, ?_⟩, fun t ht => ?_⟩
    · intro t ht x hx
      rw [List.mem_singleton.mp hx]
      exact (hlog t ht).2 u (by rw [hd]; exact List.mem_cons_self)
    · rcases List.mem_append.mp ht with ht | ht
      · exact ⟨(hlog t ht).1, fun x hx => (hlog t ht).2 x (by rw [hd]; exact List.mem_cons_of_mem u hx)⟩
      · rw [List.mem_singleton.mp ht]
        exact ⟨hpushed u List.mem_cons_self, fun x hx => List.rel_of_pairwise_cons hdeque hx⟩

/-- Thieves get the tasks of a deque in the order in which they were pushed. -/
theorem stolen_in_order {as : List (Act (Thread n E) (Pc n))}
    (h : (pool n E).system.run (pool n E).system.start as = some s) (v : Fin n) :
    ((pool n E).system.trace (stolenFrom v) (pool n E).system.start as).Pairwise fun t u => t.id < u.id :=
  (System.trace_inv (I := Precedes v) h (System.along_true _ _) ⟨List.Pairwise.nil, fun _ ht => by cases ht⟩
    fun hp _ ha hl => hl.step hp ha).1

/-! ## The task in hand -/

theorem run_point (h : (pool n E).system.Reach s) (t : Thread n E) : s.th t = .run (s.th t).point := by
  -- no thread ever sleeps
  by_cases hr : ∃ l, s.th t = .run l
  · obtain ⟨l, hl⟩ := hr
    rw [hl]; rfl
  · have hi := Discipline.locked pool_annotation.toDiscipline h
    cases hi.wakes t fun l hl => hr ⟨l, hl⟩

/-- Only workers hold tasks. -/
theorem worker_of_holds (h : (pool n E).system.Reach s) {t : Thread n E} {u : Task}
    (ht : holds (s.th t).point = some u) : ∃ i, t = .worker i := by
  have hhome := home_of_reach h t
  cases hp : (s.th t).point with
  | submit c p =>
    rw [hp] at hhome ht
    cases c with
    | external => cases ht
    | task j v => cases t <;> first | exact ⟨_, rfl⟩ | exact hhome.elim
  | worker j p =>
    rw [hp] at hhome
    cases t <;> first | exact ⟨_, rfl⟩ | exact hhome.elim
  | _ => rw [hp] at ht; cases ht

omit [Fintype E] in
/-- A task stays in the hands of its worker until the worker has executed it. -/
theorem holds_step (hs : (pool n E).Step s a s') {w : Thread n E} {t : Task} (hw : holds (s.th w).point = some t) :
    holds (s'.th w).point = some t ∨ (a = .exec w ∧ (∃ i, s.th w = .run (.worker i (.finish t))) ∧
      s'.data.finished = s.data.finished ++ [t.id]) := by
  rcases hs.leads w with ⟨hp, -⟩ | ⟨l, hl, hk, -⟩
  · exact .inl (by rwa [hp])
  rw [hl, Status.point_run] at hw
  cases l with
  | submit c p =>
    cases c with
    | external => cases hw
    | task i u =>
      cases p <;>
      · have hk : (s'.th w).point = _ := hk
        exact .inl (by rw [hk]; exact hw)
  | worker i p =>
    cases p with
    | running u =>
      rcases taskStep_iff.mp hk with ⟨b, who, hk⟩ | hk <;> exact .inl (by rw [hk]; exact hw)
    | finish u =>
      cases hw
      rcases hs.of_act hl rfl with hstay | ⟨ha, he⟩
      · exact .inl (by rw [hstay]; rfl)
      · exact .inr ⟨ha, ⟨i, hl⟩, by rw [he]⟩
    | _ => cases hw
  | _ => cases hw

variable {c : Counted n E}

/-- The thread `w` can go on by itself until it has executed `t`. -/
def CanFinish (w : Thread n E) (t : Task) (c : Counted n E) : Prop :=
  ∃ (as : List (Act (Thread n E) (Pc n))) (c' : Counted n E), (∀ a ∈ as, a.thread = w) ∧
    (counted n E).run c (as.map .step) = some c' ∧ c'.pool.data.finished = c.pool.data.finished ++ [t.id]

theorem CanFinish.of_next {w : Thread n E} {t : Task} (h : CanFinish w t { c with pool := s }) (hb : chosen a = none)
    (ha : (pool n E).system.next c.pool a = some s) (hw : a.thread = w) (hd : s.data.finished = c.pool.data.finished) :
    CanFinish w t c := by
  obtain ⟨as, c', hown, hr, hf⟩ := h
  refine ⟨a :: as, c', fun b hb => ?_, ?_, hd ▸ hf⟩
  · rcases List.mem_cons.mp hb with rfl | hb
    · exact hw
    · exact hown b hb
  · rw [List.map_cons, System.run, counted_next hb ha]
    exact hr

/-- A worker can always execute the task in its hands to its end. -/
theorem canFinish_of_holds {w : Thread n E} {l : Pc n} {t : Task} (hl : c.pool.th w = .run l) (hh : holds l = some t) :
    CanFinish w t c := by
  have hfinish : ∀ {c : Counted n E} {i}, c.pool.th w = .run (.worker i (.finish t)) → CanFinish w t c := fun hl =>
    ⟨[.exec w], _, by simp [Act.thread],
      by rw [List.map_cons, System.run, counted_next rfl (Program.Step.act hl rfl).next]; rfl, rfl⟩
  have hrun : ∀ {c : Counted n E} {i}, c.pool.th w = .run (.worker i (.running t)) → CanFinish w t c := fun hl =>
    (hfinish (Function.update_self ..)).of_next rfl (Program.Step.pick hl rfl (taskStep_iff.mpr (.inr rfl))).next rfl rfl
  have hcount : ∀ {c : Counted n E} {i}, c.pool.th w = .run (.submit (.task i t) .count) → CanFinish w t c := fun hl =>
    (hrun (Function.update_self ..)).of_next rfl (Program.Step.act hl rfl).next rfl rfl
  cases l with
  | submit c p =>
    cases c with
    | external => cases hh
    | task i u =>
      cases hh
      cases p with
      | push b who => exact (hcount (Function.update_self ..)).of_next rfl (Program.Step.act hl rfl).next rfl rfl
      | count => exact hcount hl
  | worker i p =>
    cases p with
    | running u => cases hh; exact hrun hl
    | finish u => cases hh; exact hfinish hl
    | _ => cases hh
  | _ => cases hh

/-! ## Runs -/

/-- Each task is in a deque, in the hands of a thread, or has ended. -/
theorem one_place (h : (pool n E).system.ReachBy NonEmpty s) (j : ℕ) :
    (queued s.data).count j + (Finset.univ.filter fun t => (holds (s.th t).point).map Task.id = some j).card +
      s.data.finished.count j = if j < s.data.pushed then 1 else 0 := by
  have hledger := pool_tasks (n := n) (E := E)
  have hhand : inHand = fun l : Pc n => ((holds l).map Task.id).elim 0 fun j => {j} :=
    funext fun l => (Option.elim_map ..).symm
  rw [hhand] at hledger
  have hplace := hledger.one_place h.reach j
  rw [(solid_of_reach h).1] at hplace
  simp only [Multiset.count_add, Multiset.coe_count, List.count_nil] at hplace
  omega

theorem pop_newest (h : (pool n E).system.ReachBy NonEmpty s) {w : Thread n E} {i : Fin n} {t : Task}
    (hl : s.th w = .run (.worker i .popLocal)) (ht : (s.data.deques i).getLast? = some t) :
    ∃ s', (pool n E).system.next s (.exec w) = some s' ∧ s'.th w = .run (.worker i (.running t)) ∧
      ∀ u ∈ s'.data.deques i, u.id < t.id := by
  obtain ⟨rest, hd⟩ := List.getLast?_eq_some_iff.mp ht
  have hsolid : t.empty = false := (solid_of_reach h).2 i t (by simp [hd])
  obtain ⟨hsorted, -⟩ := deque_sorted h.reach i
  rw [hd] at hsorted
  refine ⟨_, (Program.Step.act hl rfl).next, ?_, ?_⟩
  · simp [State.goto, hd, got, hsolid]
  · intro u hu
    simp only [hd, List.getLast?_concat, Data.take, Function.update_self, List.dropLast_concat] at hu
    exact (List.pairwise_append.mp hsorted).2.2 u hu t (List.mem_singleton_self t)

theorem steal_oldest (h : (pool n E).system.ReachBy NonEmpty s) {w : Thread n E} {i v : Fin n} {k : ℕ} {t : Task}
    (hl : s.th w = .run (.worker i (.stealFrom k v))) (ht : (s.data.deques v).head? = some t) :
    ∃ s', (pool n E).system.next s (.exec w) = some s' ∧ s'.th w = .run (.worker i (.running t)) ∧
      ∀ u ∈ s'.data.deques v, t.id < u.id := by
  obtain ⟨rest, hd⟩ := List.head?_eq_some_iff.mp ht
  have hsolid : t.empty = false := (solid_of_reach h).2 v t (by simp [hd])
  obtain ⟨hsorted, -⟩ := deque_sorted h.reach v
  rw [hd] at hsorted
  refine ⟨_, (Program.Step.act hl rfl).next, ?_, ?_⟩
  · simp [State.goto, hd, got, hsolid]
  · intro u hu
    simp only [hd, Data.take, Function.update_self] at hu
    exact List.rel_of_pairwise_cons hsorted hu

/-- The pool conserves its tasks, and keeps its deques in order, in every run in which
the tasks are not empty and the choices of `submit` are in range. -/
theorem pool_conserves_in_order {as : List (CountedAct n E)} (hr : (counted n E).run (counted n E).start as = some c)
    (hok : (counted n E).Along (fun c a => InRange c a ∧ ∀ b ∈ a.base, NonEmpty c.pool b) (counted n E).start as) :
    (∀ j, (queued c.pool.data).count j +
      (Finset.univ.filter fun t => (holds (c.pool.th t).point).map Task.id = some j).card +
      c.pool.data.finished.count j = if j < c.pool.data.pushed then 1 else 0) ∧
    (∀ w t, holds (c.pool.th w).point = some t → (∃ i, w = .worker i) ∧ CanFinish w t c ∧
      ∀ a c', (counted n E).next c a = some c' → InRange c a → holds (c'.pool.th w).point = some t ∨
        (a = .step (.exec w) ∧ (∃ i, c.pool.th w = .run (.worker i (.finish t))) ∧
          c'.pool.data.finished = c.pool.data.finished ++ [t.id])) ∧
    (∀ v, (c.pool.data.deques v).Sublist
        ((counted n E).trace ((layer n E).lift (pushedTo v)) (counted n E).start as) ∧
      ((counted n E).trace ((layer n E).lift (pushedTo v)) (counted n E).start as).Pairwise (fun t u => t.id < u.id) ∧
      ((counted n E).trace ((layer n E).lift (stolenFrom v)) (counted n E).start as).Pairwise (fun t u => t.id < u.id)) ∧
    (∀ w i t, c.pool.th w = .run (.worker i .popLocal) → (c.pool.data.deques i).getLast? = some t →
      ∃ s', (counted n E).next c (.step (.exec w)) = some { c with pool := s' } ∧
        s'.th w = .run (.worker i (.running t)) ∧ ∀ u ∈ s'.data.deques i, u.id < t.id) ∧
    ∀ w i k v t, c.pool.th w = .run (.worker i (.stealFrom k v)) → (c.pool.data.deques v).head? = some t →
      ∃ s', (counted n E).next c (.step (.exec w)) = some { c with pool := s' } ∧
        s'.th w = .run (.worker i (.running t)) ∧ ∀ u ∈ s'.data.deques v, t.id < u.id := by
  have hrange : (counted n E).Along InRange (counted n E).start as := hok.mono fun _ _ h => h.1
  have hr' := Layer.run_start (l := layer n E) hr hrange
  have h : (pool n E).system.ReachBy NonEmpty c.pool := System.path_of_along hr' (Layer.along (l := layer n E) hr hok)
  refine ⟨one_place h, fun w t hw => ?_, fun v => ?_, fun w i t hl ht => ?_, fun w i k v t hl ht => ?_⟩
  · refine ⟨worker_of_holds h.reach hw, canFinish_of_holds (run_point h.reach w) hw, fun a c' ha hin => ?_⟩
    rcases (layer n E).step hin ha with ⟨-, hs⟩ | ⟨b, hb, hs⟩
    · exact .inl (by rw [show c'.pool = c.pool from hs]; exact hw)
    · obtain rfl : a = .step b := by cases a <;> cases hb; rfl
      refine (holds_step (Program.step_of_next hs) hw).imp_right ?_
      rintro ⟨rfl, hf⟩
      exact ⟨rfl, hf⟩
  · obtain ⟨hsub, hsorted, -⟩ := deque_lists hr' v
    rw [Layer.trace hr hrange, Layer.trace hr hrange]
    exact ⟨hsub, hsorted, stolen_in_order hr' v⟩
  · obtain ⟨s', ha, hs'⟩ := pop_newest h hl ht
    exact ⟨s', counted_next rfl ha, hs'⟩
  · obtain ⟨s', ha, hs'⟩ := steal_oldest h hl ht
    exact ⟨s', counted_next rfl ha, hs'⟩

/-- A call on another pool comes between the two on this one, so both tasks are pushed to
the deque `i = 0`, and the second one is stolen from there. -/
def sharedCounter (i j : Fin 2) : List (CountedAct 2 Unit) :=
  ((nestedSubmit i j).take 1).map .step ++ .elsewhere :: ((nestedSubmit i j).drop 1).map .step

theorem pool_conserves_in_order_shared :
    ∃ c, (counted 2 Unit).run (counted 2 Unit).start (sharedCounter 0 1) = some c ∧
      (∀ j, (queued c.pool.data).count j +
        (Finset.univ.filter fun t => (holds (c.pool.th t).point).map Task.id = some j).card +
        c.pool.data.finished.count j = if j < 2 then 1 else 0) ∧
      ((counted 2 Unit).trace ((layer 2 Unit).lift (stolenFrom 0)) (counted 2 Unit).start (sharedCounter 0 1)).Pairwise
        fun t u => t.id < u.id := by
  have hr : ((counted 2 Unit).run (counted 2 Unit).start (sharedCounter 0 1)).any fun c => c.pool.data.pushed = 2 := by
    decide +kernel
  obtain ⟨c, hc, hp⟩ := System.exists_of_run hr
  obtain ⟨hplace, -, horder, -⟩ := pool_conserves_in_order hc (by decide +kernel)
  exact ⟨c, hc, fun j => by simpa only [of_decide_eq_true hp] using hplace j, (horder 0).2.2⟩

/-- The pool of `main`, after a push that went to no deque. -/
def lost : Counted 4 Unit where
  pool := { (pool 4 Unit).system.start with data := { (pool 4 Unit).init with pushed := 1 } }
  rr := 0

/-- After `2 ^ 31 + 1` calls on a pool of one worker a call on a pool of four picks no
deque, and then the task that it pushes may be nowhere. -/
theorem pool_out_of_range : pick 4 (BitVec.ofNat 32 (2 ^ 31 + 1)) = none ∧
    (∀ k, (pick 1 (BitVec.ofNat 32 k)).isSome = true) ∧
    (counted 4 Unit).run (counted 4 Unit).start (List.replicate (2 ^ 31 + 1) .elsewhere ++
      [.undefined (.ext (.external ()) (.submit .external (.push false 0))) lost]) = some lost ∧
    lost.pool.data.pushed = 1 ∧ (queued lost.pool.data).count 0 = 0 ∧ lost.pool.data.finished.count 0 = 0 ∧
    ∀ t, holds (lost.pool.th t).point = none := by
  have hnone : pick 4 (BitVec.ofNat 32 (2 ^ 31 + 1)) = none := by decide
  refine ⟨hnone, fun k => ?_, ?_, rfl, by decide, rfl, by decide⟩
  · exact (pick_isSome_iff ⟨1, by decide, by decide⟩ k).mpr (.inr (one_dvd _))
  · rw [System.run_append, run_elsewhere, Option.bind_some]
    simp only [System.run, counted, countedNext]
    rw [if_pos ⟨rfl, rfl, (BitVec.zero_add _).symm ▸ hnone⟩]
    rfl

end TKH.WorkStealing
