import Mathlib.Order.Bounds.Defs
import ThreadingKnowHows.CompareExchange.Model

/-!
# The running maximum

Each write of `atomic_max` raises the variable, so its values are in order
(`Raised.sorted`): also a value that is no longer the last one bounds it from
below, and a call may leave on the strength of it.
-/

namespace TKH.CompareExchange

variable {τ : Type} [DecidableEq τ] {v₀ : Long} {s s' : CasState τ Long Long} {a : CasAct τ Long}

theorem raiseTo_swap {candidate current desired : Long} (h : raiseTo candidate current = .swap desired) :
    desired = candidate ∧ current < candidate := by
  simp only [raiseTo] at h
  split at h <;> cases h
  exact ⟨rfl, ‹_›⟩

theorem raiseTo_leave {candidate current : Long} (h : raiseTo candidate current = .leave) : candidate ≤ current := by
  simp only [raiseTo] at h
  split at h <;> cases h
  exact not_lt.mp ‹_›

omit [DecidableEq τ] in
theorem raiseTo_defined (s : CasState τ Long Long) (a : CasAct τ Long) : Defined raiseTo s a := by
  cases a with
  | step t =>
    simp only [Defined]
    split
    · simp only [raiseTo]
      split <;> simp
    · trivial
  | call | load | ret => trivial

/-- The values are in order, and a call that is over is below the last. -/
structure Raised (v₀ : Long) (s : CasState τ Long Long) : Prop where
  sorted : s.var.mo.Pairwise (· ≤ ·)
  first : v₀ ∈ s.var.mo
  returning : ∀ {t candidate current}, s.pc t = .ret candidate current → candidate ≤ s.var.value

/-- A step that leaves the values as they are. -/
theorem Raised.goto (h : Raised v₀ s) {var : Atomic τ Long} (hmo : var.mo = s.var.mo) (hvalue : var.value = s.var.value)
    {t : τ} {k : CasPc Long Long} (hk : ∀ {candidate current}, k = .ret candidate current → candidate ≤ s.var.value) :
    Raised v₀ ({ s with var := var }.goto t k) where
  sorted := by rw [CasState.goto, hmo]; exact h.sorted
  first := by rw [CasState.goto, hmo]; exact h.first
  returning {u candidate current} hu := by
    simp only [CasState.goto, hvalue] at hu ⊢
    by_cases ht : u = t
    · subst ht
      rw [Function.update_self] at hu
      exact hk hu
    · rw [Function.update_of_ne ht] at hu
      exact h.returning hu

/-- The value never decreases. -/
theorem value_step (h : CasStep raiseTo s a s') : s.var.value ≤ s'.var.value := by
  cases h with
  | call | leave | undefined | ret => exact le_rfl
  | load _ hload =>
    obtain ⟨-, -, -, hvalue, -⟩ := Atomic.load_iff hload
    exact hvalue.symm.le
  | @swap t candidate current desired _ hswap hvalue =>
    obtain ⟨rfl, hlt⟩ := raiseTo_swap hswap
    rw [CasState.swap, CasState.goto, Atomic.value_store, hvalue]
    exact hlt.le

theorem value_of_path (h : (atomicMax τ v₀).Path (fun _ _ => True) s s') : s.var.value ≤ s'.var.value :=
  h.inv (I := fun s' => s.var.value ≤ s'.var.value) le_rfl
    fun _ _ ha ih => ih.trans (value_step (casStep_of_next ha))

theorem raised (h : (atomicMax τ v₀).Reach s) : Raised v₀ s := by
  refine h.inv ⟨List.pairwise_singleton _ _, List.mem_cons_self, fun hpc => by cases hpc⟩ ?_
  intro s a s' hr _ ha hi
  cases casStep_of_next ha with
  | call | undefined | ret => exact hi.goto rfl rfl fun hk => by cases hk
  | load _ hload =>
    obtain ⟨-, -, hmo, hvalue, -⟩ := Atomic.load_iff hload
    exact hi.goto hmo hvalue fun hk => by cases hk
  | @leave t candidate current hpc hleave =>
    -- what the call has seen may be stale, but is not above the last value
    have hle := Atomic.le_value hi.sorted (cur_mem hr hpc)
    refine hi.goto rfl rfl fun hk => ?_
    cases hk
    exact (raiseTo_leave hleave).trans hle
  | @swap t candidate current desired hpc hswap hvalue =>
    obtain ⟨rfl, hlt⟩ := raiseTo_swap hswap
    have hle : ∀ v ∈ s.var.mo, v ≤ desired := fun v hv =>
      (Atomic.le_value hi.sorted hv).trans (by rw [hvalue]; exact hlt.le)
    refine ⟨?_, List.mem_append_left _ hi.first, fun {u c cur} hu => ?_⟩
    · simp only [CasState.swap, CasState.goto, Atomic.mo_store]
      exact List.pairwise_append.mpr ⟨hi.sorted, List.pairwise_singleton _ _, fun v hv w hw => by
        rw [List.mem_singleton.mp hw]; exact hle v hv⟩
    · simp only [CasState.swap, CasState.goto, Atomic.value_store] at hu ⊢
      by_cases ht : u = t
      · subst ht
        rw [Function.update_self] at hu
        cases hu
        exact le_rfl
      · rw [Function.update_of_ne ht] at hu
        exact (hi.returning hu).trans (hle _ s.var.value_mem)

/-! ## The candidates -/

variable {as : List (CasAct τ Long)}

/-- The calls and returns of a run. -/
def events (v₀ : Long) (as : List (CasAct τ Long)) : List (τ × CallEvent Long Long) :=
  (atomicMax τ v₀).trace CasAct.events (atomicMax τ v₀).start as

/-- The values of the variable come from the first one and the calls. -/
theorem values_of_run (hr : (atomicMax τ v₀).run (atomicMax τ v₀).start as = some s) :
    ∀ v ∈ s.var.mo, v = v₀ ∨ v ∈ arguments (events v₀ as) := by
  -- and a call in progress is one of them
  refine (System.trace_inv (I := fun es s => (∀ v ∈ s.var.mo, v = v₀ ∨ v ∈ arguments es) ∧
    ∀ u, ∀ c ∈ (s.pc u).returns.map Prod.fst ++ (s.pc u).waits, c ∈ calledBy u es) hr
    (System.along_of_forall raiseTo_defined _ _) ⟨fun v hv => .inl (List.mem_singleton.mp hv),
      fun u c hc => by cases hc⟩ ?_).1
  intro es s a s' _ hdef ha ⟨hvalues, hcalls⟩
  have hstep := casStep_of_next ha
  refine ⟨fun v hv => ?_, fun u c hc => ?_⟩
  · have hold : v ∈ s.var.mo → v = v₀ ∨ v ∈ arguments (es ++ a.events s) := fun hv =>
      (hvalues v hv).imp_right fun hc => by
        rw [arguments, List.map_append, List.filterMap_append]
        exact List.mem_append_left _ hc
    cases hstep with
    | call | leave | undefined | ret => exact hold hv
    | load _ hload =>
      obtain ⟨-, -, hmo, -, -⟩ := Atomic.load_iff hload
      exact hold (hmo ▸ hv)
    | @swap t candidate current desired hpc hswap _ =>
      obtain ⟨rfl, -⟩ := raiseTo_swap hswap
      rcases List.mem_append.mp (show v ∈ s.var.mo ++ [desired] from hv) with hv | hv
      · exact hold hv
      · rw [List.mem_singleton.mp hv]
        have hc := hcalls t desired (by simp [hpc, CasPc.returns, CasPc.waits])
        exact .inr (mem_arguments.mpr ⟨t, by rw [calledBy_append]; exact List.mem_append_left _ hc⟩)
  · have hmem : c ∈ (s.pc u).returns.map Prod.fst ++ (s.pc u).waits ++ calledBy u (a.events s) := by
      rw [hstep.calls hdef u, List.append_assoc]
      exact List.mem_append_right _ hc
    rw [calledBy_append]
    rcases List.mem_append.mp hmem with hc | hc
    · exact List.mem_append_left _ (hcalls u c hc)
    · exact List.mem_append_right _ hc

/-- A call that has returned is below the value. -/
theorem finished_le (hr : (atomicMax τ v₀).run (atomicMax τ v₀).start as = some s) :
    ∀ c ∈ finished (events v₀ as), c ≤ s.var.value := by
  refine System.trace_inv (I := fun es s => ∀ c ∈ finished es, c ≤ s.var.value) hr (System.along_true _ _)
    (fun c hc => by cases hc) ?_
  intro es s a s' hp _ ha ih c hc
  have hle := value_step (casStep_of_next ha)
  rw [finished, List.map_append, List.filterMap_append, List.map_append] at hc
  rcases List.mem_append.mp hc with hc | hc
  · exact (ih c hc).trans hle
  · cases casStep_of_next ha with
    | call | load | leave | swap | undefined => cases hc
    | @ret t candidate current hpc =>
      simp only [CasAct.events, hpc] at hc
      cases List.mem_singleton.mp hc
      exact ((raised hp).returning hpc).trans hle

/-- `atomic_max` computes the running maximum. -/
theorem atomic_max_running_maximum (v₀ : Long) (hr : (atomicMax τ v₀).run (atomicMax τ v₀).start as = some s) :
    (s.var.value = v₀ ∨ s.var.value ∈ arguments (events v₀ as)) ∧
    (∀ s', (atomicMax τ v₀).Path (fun _ _ => True) s s' →
      s.var.value ≤ s'.var.value ∧ ∀ c ∈ finished (events v₀ as), c ≤ s'.var.value) ∧
    ((∀ t, s.pc t = .out) → IsGreatest {v | v = v₀ ∨ v ∈ arguments (events v₀ as)} s.var.value) := by
  have hvalue := values_of_run hr _ s.var.value_mem
  have hreach := System.reach_of_run hr
  refine ⟨hvalue, fun s' hp => ⟨value_of_path hp, fun c hc => (finished_le hr c hc).trans (value_of_path hp)⟩,
    fun hout => ⟨hvalue, fun v hv => ?_⟩⟩
  rcases hv with rfl | hv
  · exact Atomic.le_value (raised hreach).sorted (raised hreach).first
  · -- a call that is not in progress has returned
    obtain ⟨t, ht⟩ := mem_arguments.mp hv
    have hcalls := calls_of_run hr (System.along_of_forall raiseTo_defined _ _) t
    simp only [hout t, CasPc.returns, CasPc.waits, List.map_nil, List.append_nil] at hcalls
    exact finished_le hr v (mem_finished.mpr ⟨t, hcalls ▸ ht⟩)

/-- Two calls: the greater candidate is written between the load of the other
one and its compare-and-swap, which fails; and a third leaves on a stale value. -/
def contended {τ : Type} (t u w : τ) : List (CasAct τ Long) :=
  [.call t ⟨3, by decide⟩, .load t 0, .call u ⟨7, by decide⟩, .load u 0, .step u, .call w ⟨-2, by decide⟩, .load w 0,
    .load t 0, .load t 1, .step t, .step w, .ret w, .ret t, .ret u]

theorem atomic_max_running_maximum_contended :
    ∃ s, (atomicMax (Fin 3) 0).run (atomicMax (Fin 3) 0).start (contended 0 1 2) = some s ∧ s.var.value.val = 7 ∧
      IsGreatest {v | v = 0 ∨ v ∈ arguments (events 0 (contended (0 : Fin 3) 1 2))} s.var.value := by
  have hr : ((atomicMax (Fin 3) 0).run (atomicMax (Fin 3) 0).start (contended 0 1 2)).any
      (fun s => s.var.value.val = 7 ∧ ∀ t, s.pc t = .out) = true := by
    decide +kernel
  obtain ⟨s, hs, hp⟩ := System.exists_of_run hr
  obtain ⟨hvalue, hout⟩ := of_decide_eq_true hp
  obtain ⟨-, -, hmax⟩ := atomic_max_running_maximum 0 hs
  exact ⟨s, hs, hvalue, hmax hout⟩

end TKH.CompareExchange
