import Mathlib.Algebra.BigOperators.Group.Multiset.Basic
import ThreadingKnowHows.CompareExchange.Model

/-!
# Adding atomically

`my_add` is `fetch_add`: the compare-and-swap that succeeds replaces the last
value of the variable, whether or not the variable has had others since the
call saw it, so that the calls take effect one after another (`hist`).

A sum `old + delta` may overflow also for a value that the call fails to
replace. In a run where no selection of the deltas has a sum out of range none does
(`Defined`, `defined_of_sums`).
-/

namespace TKH.CompareExchange

/-- `fetch_add`, without threads. -/
def fetchAdd (v₀ : Long) : Object Long Long Long where
  start := v₀
  apply old delta := (old.add delta).map fun v => (old, v)

theorem addDelta_ne_leave (delta old : Long) : addDelta delta old ≠ .leave := by
  simp only [addDelta]
  split <;> simp

theorem addDelta_swap {delta old desired : Long} (h : addDelta delta old = .swap desired) :
    desired.val = old.val + delta.val := by
  simp only [addDelta] at h
  split at h <;> cases h
  exact Long.add_eq_some.mp ‹_›

theorem addDelta_undefined {delta old : Long} (h : addDelta delta old = .undefined) :
    ¬ FitsLong (old.val + delta.val) := by
  simp only [addDelta] at h
  split at h <;> cases h
  rename_i hnone
  intro hfits
  obtain ⟨v, hv⟩ := Long.exists_ofInt?.mpr hfits
  rw [Long.add, hv] at hnone
  cases hnone

theorem casObject_addDelta (v₀ : Long) : casObject addDelta v₀ = fetchAdd v₀ := by
  simp only [casObject, fetchAdd, Object.mk.injEq, true_and]
  funext old delta
  cases h : old.add delta <;> simp [addDelta, h]

variable {τ : Type} [DecidableEq τ] {v₀ : Long} {s s' : CasState τ Long Long} {a : CasAct τ Long}
  {as : List (CasAct τ Long)}

/-- What some calls add. -/
def added (h : List (τ × Long × Long)) : ℤ := (h.map fun x => x.2.1.val).sum

omit [DecidableEq τ] in
theorem added_cons (x : τ × Long × Long) (h : List (τ × Long × Long)) : added (x :: h) = x.2.1.val + added h :=
  List.sum_cons

omit [DecidableEq τ] in
theorem added_append (h h' : List (τ × Long × Long)) : added (h ++ h') = added h + added h' := by
  simp [added]

theorem my_add_linearizes (v₀ : Long) :
    Linearizes (myAdd τ v₀) (Defined addDelta) (fetchAdd v₀) CasState.abs CasAct.visible := by
  rw [← casObject_addDelta]
  exact casLoop_linearizes addDelta_ne_leave v₀

omit [DecidableEq τ] in
/-- In a run of `fetch_add` each result is the sum of what was added before. -/
theorem fetchAdd_runs {h : List (τ × Long × Long)} {q q' : Long} (hr : (fetchAdd v₀).Runs q (h.map Prod.snd) q') :
    q'.val = q.val + added h ∧
      ∀ {h₁ t delta r h₂}, h = h₁ ++ (t, delta, r) :: h₂ → r.val = q.val + added h₁ := by
  induction h generalizing q with
  | nil =>
    cases hr
    exact ⟨by simp [added], fun he => by simp at he⟩
  | cons x h ih =>
    obtain ⟨t, delta, r⟩ := x
    obtain ⟨q₁, ha, hr⟩ := hr
    obtain ⟨v, hv, he⟩ := Option.map_eq_some_iff.mp ha
    cases he
    obtain ⟨hq', hresult⟩ := ih hr
    have hq₁ := Long.add_eq_some.mp hv
    refine ⟨?_, fun {h₁ t' delta' r' h₂} he => ?_⟩
    · rw [hq', hq₁, added_cons, add_assoc]
    · cases h₁ with
      | nil =>
        cases he
        simp [added]
      | cons y h₁ =>
        cases he
        rw [hresult rfl, hq₁, added_cons, add_assoc]

/-- The history only grows. -/
theorem hist_of_path (h : (myAdd τ v₀).Path (fun _ _ => True) s s') : s.hist <+: s'.hist := by
  refine h.inv (I := fun s' => s.hist <+: s'.hist) List.prefix_rfl fun _ _ ha ih => ?_
  cases casStep_of_next ha with
  | call | load | leave | undefined | ret => exact ih
  | swap => exact ih.trans (List.prefix_append _ _)

/-- Each value is the first one and what some of the calls have added. -/
theorem value_of_mem (h : (myAdd τ v₀).Reach s) {v : Long} (hv : v ∈ s.var.mo) :
    ∃ h₁, h₁ <+: s.hist ∧ v.val = v₀.val + added h₁ := by
  -- the last value is what all of them have added
  refine (h.inv (I := fun s => s.var.value.val = v₀.val + added s.hist ∧
    ∀ v ∈ s.var.mo, ∃ h₁, h₁ <+: s.hist ∧ v.val = v₀.val + added h₁)
    ⟨by simp [myAdd, casLoop, added], fun v hv => ⟨[], List.nil_prefix, ?_⟩⟩ ?_).2 v hv
  · rw [List.mem_singleton.mp hv]
    exact (add_zero _).symm
  intro s a s' _ _ ha ⟨hvalue, hmem⟩
  cases casStep_of_next ha with
  | call | leave | undefined | ret => exact ⟨hvalue, hmem⟩
  | load _ hload =>
    obtain ⟨-, -, hmo, hval, -⟩ := Atomic.load_iff hload
    simp only [CasState.goto, hmo, hval]
    exact ⟨hvalue, hmem⟩
  | @swap t delta old desired _ hswap hold =>
    have hnew : desired.val = v₀.val + added (s.hist ++ [(t, delta, old)]) := by
      rw [addDelta_swap hswap, ← hold, hvalue, added_append, added_cons, add_assoc]
      simp [added]
    refine ⟨by simpa [CasState.swap, CasState.goto] using hnew, fun v hv => ?_⟩
    rcases List.mem_append.mp (show v ∈ s.var.mo ++ [desired] from hv) with hv | hv
    · obtain ⟨h₁, hpre, hval⟩ := hmem v hv
      exact ⟨h₁, hpre.trans (List.prefix_append _ _), hval⟩
    · rw [List.mem_singleton.mp hv]
      exact ⟨_, List.prefix_rfl, hnew⟩

/-- The calls and returns of a run. -/
def addEvents (v₀ : Long) (as : List (CasAct τ Long)) : List (τ × CallEvent Long Long) :=
  (myAdd τ v₀).trace CasAct.events (myAdd τ v₀).start as

/-- The calls of a thread that have taken effect are those it has returned from,
and the one it is about to return from. -/
theorem journal_hist (hr : (myAdd τ v₀).run (myAdd τ v₀).start as = some s) (t : τ) :
    journal t s.hist = returnedBy t (addEvents v₀ as) ++ (s.pc t).returns :=
  hist_of_run addDelta_ne_leave hr t

/-- The calls of a thread have taken effect, but for the one it is in. -/
theorem calledBy_eq (hr : (myAdd τ v₀).run (myAdd τ v₀).start as = some s)
    (hok : (myAdd τ v₀).Along (Defined addDelta) (myAdd τ v₀).start as) (t : τ) :
    calledBy t (addEvents v₀ as) = (journal t s.hist).map Prod.fst ++ (s.pc t).waits := by
  rw [journal_hist hr, List.map_append]
  exact calls_of_run hr hok t

/-- What the calls before have added and what `t` is about to add are deltas of
different calls. -/
theorem deltas_le (hr : (myAdd τ v₀).run (myAdd τ v₀).start as = some s)
    (hok : (myAdd τ v₀).Along (Defined addDelta) (myAdd τ v₀).start as) {t : τ} {delta old : Long}
    (hpc : s.pc t = .loop delta old) :
    ((s.hist.map fun x => x.2.1) ++ [delta] : Multiset Long) ≤ arguments (addEvents v₀ as) := by
  have hle : ((s.hist.map fun x => (x.1, x.2.1)) ++ [(t, delta)] : Multiset (τ × Long)) ≤
      tagged CallEvent.called (addEvents v₀ as) := by
    refine coe_le_of_journal fun u => ?_
    have hjournal : journal u (s.hist.map fun x => (x.1, x.2.1)) = (journal u s.hist).map Prod.fst := by
      rw [journal, journal, List.filterMap_map, List.map_filterMap]
      congr 1
      funext x
      by_cases hx : x.1 = u <;> simp [hx]
    rw [journal_tagged, journal_append, hjournal]
    change _ ≤ ((calledBy u _ : List Long) : Multiset Long)
    rw [calledBy_eq hr hok, ← Multiset.coe_add, ← Multiset.coe_add]
    refine add_le_add_right ?_ _
    by_cases hu : t = u
    · subst hu
      simp [journal, hpc, CasPc.waits]
    · simp [journal, hu]
  have := Multiset.map_le_map (f := Prod.snd) hle
  rw [Multiset.map_coe, Multiset.map_coe, map_snd_tagged, List.map_append, List.map_map] at this
  exact this

/-- If no selection of the deltas adds up to a sum out of range, no sum that a
call forms overflows. -/
theorem defined_of_sums (hr : (myAdd τ v₀).run (myAdd τ v₀).start as = some s)
    (hfits : ∀ m : Multiset Long, m ≤ arguments (addEvents v₀ as) → FitsLong (v₀.val + (m.map Long.val).sum)) :
    (myAdd τ v₀).Along (Defined addDelta) (myAdd τ v₀).start as := by
  induction as using List.reverseRecOn generalizing s with
  | nil => trivial
  | append_singleton as a ih =>
    rw [System.run_append] at hr
    obtain ⟨s₁, hr₁, ha⟩ := Option.bind_eq_some_iff.mp hr
    have hevents : addEvents v₀ (as ++ [a]) = addEvents v₀ as ++ a.events s₁ := System.trace_concat hr₁ a
    have hle : ((arguments (addEvents v₀ as) : List Long) : Multiset Long) ≤ arguments (addEvents v₀ (as ++ [a])) := by
      rw [hevents, arguments, arguments, List.map_append, List.filterMap_append, ← Multiset.coe_add]
      exact Multiset.le_add_right _ _
    have hok := ih hr₁ fun m hm => hfits m (hm.trans hle)
    refine System.along_concat hr₁ hok ?_
    cases a with
    | call | load | ret => trivial
    | step t =>
      simp only [Defined]
      split
      · rename_i delta old hpc
        intro hundef
        obtain ⟨h₁, hpre, hval⟩ := value_of_mem (System.reach_of_run hr₁) (cur_mem (System.reach_of_run hr₁) hpc)
        have hsub : ((h₁.map fun x => x.2.1) ++ [delta] : Multiset Long) ≤ arguments (addEvents v₀ as) :=
          (((hpre.sublist.map _).append_right _).subperm).trans (deltas_le hr₁ hok hpc)
        have hsum := hfits _ (hsub.trans hle)
        refine addDelta_undefined hundef ?_
        rw [hval]
        simpa [added, add_assoc, Function.comp_def] using hsum
      · trivial

/-- `my_add` refines `fetch_add` as long as no sum overflows. -/
theorem refines_of_defined (v₀ : Long) (hr : (myAdd τ v₀).run (myAdd τ v₀).start as = some s)
    (hok : (myAdd τ v₀).Along (Defined addDelta) (myAdd τ v₀).start as) :
    Linearizes (myAdd τ v₀) (Defined addDelta) (fetchAdd v₀) CasState.abs CasAct.visible ∧
    s.var.value.val = v₀.val + added s.hist ∧
    (∀ h₁ t delta r h₂, s.hist = h₁ ++ (t, delta, r) :: h₂ → r.val = v₀.val + added h₁) ∧
    (∀ t, journal t s.hist = returnedBy t (addEvents v₀ as) ++ (s.pc t).returns) ∧
    (∀ t, calledBy t (addEvents v₀ as) = (journal t s.hist).map Prod.fst ++ (s.pc t).waits) ∧
    ∀ s', (myAdd τ v₀).Path (fun _ _ => True) s s' → s.hist <+: s'.hist := by
  have hreach : (myAdd τ v₀).ReachBy (Defined addDelta) s := System.path_of_along hr hok
  obtain ⟨hvalue, hresult⟩ := fetchAdd_runs ((my_add_linearizes v₀).runs hreach)
  exact ⟨my_add_linearizes v₀, hvalue, fun h₁ t delta r h₂ he => hresult he, journal_hist hr, calledBy_eq hr hok,
    fun s' hp => hist_of_path hp⟩

/-- `my_add` refines `fetch_add` if no partial sum of the deltas leaves the range. -/
theorem my_add_refines (v₀ : Long) (hr : (myAdd τ v₀).run (myAdd τ v₀).start as = some s)
    (hfits : ∀ m : Multiset Long, m ≤ arguments (addEvents v₀ as) → FitsLong (v₀.val + (m.map Long.val).sum)) :
    (myAdd τ v₀).Along (Defined addDelta) (myAdd τ v₀).start as ∧
    Linearizes (myAdd τ v₀) (Defined addDelta) (fetchAdd v₀) CasState.abs CasAct.visible ∧
    s.var.value.val = v₀.val + added s.hist ∧
    (∀ h₁ t delta r h₂, s.hist = h₁ ++ (t, delta, r) :: h₂ → r.val = v₀.val + added h₁) ∧
    (∀ t, journal t s.hist = returnedBy t (addEvents v₀ as) ++ (s.pc t).returns) ∧
    (∀ t, calledBy t (addEvents v₀ as) = (journal t s.hist).map Prod.fst ++ (s.pc t).waits) ∧
    ∀ s', (myAdd τ v₀).Path (fun _ _ => True) s s' → s.hist <+: s'.hist := by
  have hok := defined_of_sums hr hfits
  exact ⟨hok, refines_of_defined v₀ hr hok⟩

/-- Two calls, whose deltas cancel, while a third one has loaded: its
compare-and-swap succeeds. -/
def cancelled {τ : Type} (t u w : τ) : List (CasAct τ Long) :=
  [.call t ⟨10, by decide⟩, .load t 0, .call u ⟨5, by decide⟩, .load u 0, .step u, .ret u,
    .call w ⟨-5, by decide⟩, .load w 0, .load w 1, .step w, .step t, .ret t, .ret w]

theorem my_add_refines_cancelled :
    ∃ s, (myAdd (Fin 3) 0).run (myAdd (Fin 3) 0).start (cancelled 0 1 2) = some s ∧
      s.hist.map (fun x => (x.1, x.2.2.val)) = [(1, 0), (2, 5), (0, 0)] ∧ s.var.value.val = 10 := by
  have hr : ((myAdd (Fin 3) 0).run (myAdd (Fin 3) 0).start (cancelled 0 1 2)).any
      (fun s => s.hist.map (fun x => (x.1, x.2.2.val)) = [(1, 0), (2, 5), (0, 0)] ∧ added s.hist = 10) = true := by
    decide +kernel
  obtain ⟨s, hs, hp⟩ := System.exists_of_run hr
  obtain ⟨hhist, hadded⟩ := of_decide_eq_true hp
  have hfits : ∀ m ∈ ((arguments (addEvents 0 (cancelled (0 : Fin 3) 1 2)) : List Long) : Multiset Long).powerset,
      FitsLong ((0 : Long).val + (m.map Long.val).sum) := by decide +kernel
  obtain ⟨-, -, hvalue, -⟩ := my_add_refines 0 hs fun m hm => hfits m (Multiset.mem_powerset.mpr hm)
  exact ⟨s, hs, hhist, by rw [hvalue, hadded]; rfl⟩

end TKH.CompareExchange
