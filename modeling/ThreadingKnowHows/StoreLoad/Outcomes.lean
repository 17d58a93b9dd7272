import Mathlib.Data.List.Count
import ThreadingKnowHows.Framework.Trace
import ThreadingKnowHows.StoreLoad.Model

/-!
# The outcomes of the store and load litmus test

With seq_cst stores the programs of the threads are fenced, so that the loads
return what they return without buffers, where not both are 0
(`result_ne_zero`). With relaxed stores both are 0 if both threads load while
the stores are still in the buffers. The results that the rounds of a run can
have are these and no others (`results_iff`).
-/

namespace TKH.StoreLoad

variable {mo₀ mo : MemoryOrder} {mem : Var → ℤ}

/-! ## The threads with seq_cst stores -/

/-- The variable a thread stores to. -/
def own : Thread → Var
  | .t2 => .y
  | _ => .x

def partner : Thread → Thread
  | .main => .main
  | .t1 => .t2
  | .t2 => .t1

theorem fenced_threads : (load mo₀ .seqCst mem (· != .main)).Fenced where
  todo t := by cases t <;> simp [load, code, store, Instr.Fenced, Instr.NoLoad]
  buf _ hb := absurd rfl hb

/-- Where a thread is: once it has stored, everyone sees it. -/
inductive Stage (d : InOrder Thread Var ℤ) (t : Thread) : Prop
  | start (ht : d.todo t = [.store (own t) 1, .fence, .load (own (partner t))]) (hg : d.got t = [])
  | stored (ht : d.todo t = [.fence, .load (own (partner t))]) (hg : d.got t = []) (hm : d.mem (own t) = 1)
  | fenced (ht : d.todo t = [.load (own (partner t))]) (hg : d.got t = []) (hm : d.mem (own t) = 1)
  | done {r : ℤ} (ht : d.todo t = []) (hg : d.got t = [r]) (hm : d.mem (own t) = 1)

theorem Stage.frame {d d' : InOrder Thread Var ℤ} {t : Thread} (h : Stage d t) (ht : d'.todo t = d.todo t)
    (hg : d'.got t = d.got t) (hm : d.mem (own t) = 1 → d'.mem (own t) = 1) : Stage d' t := by
  cases h with
  | start ht₁ hg₁ => exact .start (ht.trans ht₁) (hg.trans hg₁)
  | stored ht₁ hg₁ hm₁ => exact .stored (ht.trans ht₁) (hg.trans hg₁) (hm hm₁)
  | fenced ht₁ hg₁ hm₁ => exact .fenced (ht.trans ht₁) (hg.trans hg₁) (hm hm₁)
  | done ht₁ hg₁ hm₁ => exact .done (ht.trans ht₁) (hg.trans hg₁) (hm hm₁)

/-- A thread that has loaded something is past its store. -/
theorem Stage.visible {d : InOrder Thread Var ℤ} {t : Thread} (h : Stage d t) (hg : d.got t ≠ []) :
    d.mem (own t) = 1 := by
  cases h with
  | start _ hg₁ => exact absurd hg₁ hg
  | stored _ _ hm => exact hm
  | fenced _ _ hm => exact hm
  | done _ _ hm => exact hm

/-- A thread at its end has loaded once. -/
theorem Stage.got {d : InOrder Thread Var ℤ} {t : Thread} (h : Stage d t) (ht : d.todo t = []) : ∃ r, d.got t = [r] := by
  cases h with
  | start ht₁ | stored ht₁ | fenced ht₁ => rw [ht] at ht₁; cases ht₁
  | done _ hg => exact ⟨_, hg⟩

theorem drained_of_idle {m : Tso Thread Var ℤ} {t : Thread} (h : idle m t = true) : m.drained.todo t = [] := by
  simp only [idle, Bool.and_eq_true, List.isEmpty_iff] at h
  simp [Tso.drained, h]

/-- Not both loads have returned 0. -/
structure Ordered (d : InOrder Thread Var ℤ) : Prop where
  main : d.todo .main = []
  stage : ∀ t ≠ .main, Stage d t
  notBoth : ∀ t ≠ .main, d.got t = [0] → d.got (partner t) ≠ [0]

theorem partner_ne {t : Thread} (h : t ≠ .main) : partner t ≠ t ∧ partner t ≠ .main ∧ partner (partner t) = t := by
  cases t with
  | main => exact absurd rfl h
  | t1 | t2 => exact ⟨nofun, nofun, rfl⟩

theorem eq_or_partner {t u : Thread} (ht : t ≠ .main) (hu : u ≠ .main) : u = t ∨ u = partner t := by
  cases t <;> cases u <;> simp_all [partner]

theorem own_partner {t : Thread} (h : t ≠ .main) : own (partner t) ≠ own t := by
  cases t with
  | main => exact absurd rfl h
  | t1 | t2 => exact nofun

theorem Ordered.step {d d' : InOrder Thread Var ℤ} {t : Thread} (h : Ordered d) (ha : d.next t = some d') :
    Ordered d' := by
  have ht : t ≠ .main := by
    rintro rfl
    simp [InOrder.next, h.main] at ha
  obtain ⟨hp, hpm, hpp⟩ := partner_ne ht
  -- the stage of `t` and what it has loaded decide
  have key : d'.todo .main = d.todo .main → Stage d' t → Stage d' (partner t) →
      (d'.got t = [0] → d'.got (partner t) ≠ [0]) → Ordered d' := by
    intro hmain hst hsp hnb
    refine ⟨hmain.trans h.main, fun u hu => ?_, fun u hu h0 => ?_⟩
    · rcases eq_or_partner ht hu with rfl | rfl
      · exact hst
      · exact hsp
    · rcases eq_or_partner ht hu with rfl | rfl
      · exact hnb h0
      · rw [hpp]; exact fun h0' => hnb h0' h0
  have hsp := h.stage _ hpm
  have hnb := h.notBoth t ht
  cases h.stage t ht with
  | start htodo hg =>
    simp only [InOrder.next, htodo] at ha
    cases ha
    refine key (Function.update_of_ne (Ne.symm ht) ..) ?_ ?_ hnb
    · exact .stored (Function.update_self ..) hg (Function.update_self ..)
    · refine hsp.frame (Function.update_of_ne hp ..) rfl fun hm => ?_
      simpa [Function.update_of_ne (own_partner ht)] using hm
  | stored htodo hg hm =>
    simp only [InOrder.next, htodo] at ha
    cases ha
    exact key (Function.update_of_ne (Ne.symm ht) ..) (.fenced (Function.update_self ..) hg hm)
      (hsp.frame (Function.update_of_ne hp ..) rfl id) hnb
  | fenced htodo hg hm =>
    simp only [InOrder.next, htodo] at ha
    cases ha
    refine key (Function.update_of_ne (Ne.symm ht) ..) (.done (Function.update_self ..) (by simp [hg]; rfl) hm)
      (hsp.frame (Function.update_of_ne hp ..) (Function.update_of_ne hp ..) id) fun h0 hp0 => ?_
    -- the partner has loaded, so that its store is visible to this load
    simp only [hg, List.nil_append, Function.update_self, List.cons.injEq, and_true] at h0
    simp only [Function.update_of_ne hp] at hp0
    have h1 := hsp.visible (by rw [hp0]; exact List.cons_ne_nil _ _)
    rw [h0] at h1
    exact absurd h1 (by decide)
  | done htodo _ hm => simp [InOrder.next, htodo] at ha

theorem ordered_load : Ordered (load mo₀ .seqCst mem (· != .main)).drained where
  main := rfl
  stage t ht := by
    cases t with
    | main => exact absurd rfl ht
    | t1 | t2 => exact .start rfl rfl
  notBoth t _ h0 := absurd h0 nofun

/-- With seq_cst stores not both loads return 0. -/
theorem result_ne_zero {s : State} (h : (load mo₀ .seqCst mem (· != .main)).system.Reach s.m)
    (h1 : idle s.m .t1 = true) (h2 : idle s.m .t2 = true) : result s ≠ (0, 0) := by
  have ho : Ordered s.m.drained := (Tso.tso_inOrder fenced_threads h).inv (I := Ordered) ordered_load
    fun _ _ ha ih => ih.step ha
  obtain ⟨r1, hr1⟩ := (ho.stage .t1 nofun).got (drained_of_idle h1)
  obtain ⟨r2, hr2⟩ := (ho.stage .t2 nofun).got (drained_of_idle h2)
  have hnb := ho.notBoth .t1 nofun
  simp only [Tso.drained, partner] at hnb hr1 hr2
  rw [hr1, hr2] at hnb
  simpa [result, hr1, hr2] using hnb

/-! ## The rounds of a run -/

/-- What a load returns in this program. -/
def Bit (v : ℤ) : Prop := v = 0 ∨ v = 1

/-- What the rounds may return. -/
def Allowed (mo : MemoryOrder) (r : ℤ × ℤ) : Prop := Bit r.1 ∧ Bit r.2 ∧ (mo = .seqCst → r ≠ (0, 0))

theorem eq_of_mem_store {v w : Var} {n k : ℤ} (h : .store w k ∈ store v n mo) : k = n := by
  cases mo <;> simp only [store, List.mem_cons, List.not_mem_nil, or_false, Instr.store.injEq, reduceCtorEq] at h <;>
    exact h.2

theorem all_load {on : Thread → Bool} (h : ∀ v, Bit (mem v)) : (load mo₀ mo mem on).All Bit where
  mem := h
  buf _ _ hp := by cases hp
  todo t v n hm := by
    simp only [load] at hm
    split at hm
    · cases t with
      | main => rcases List.mem_append.mp hm with hm | hm <;> exact .inl (eq_of_mem_store hm)
      | t1 | t2 =>
        rcases List.mem_append.mp hm with hm | hm
        · exact .inr (eq_of_mem_store hm)
        · cases List.mem_singleton.mp hm
    · cases hm
  got _ _ hv := by cases hv

theorem getLastD_bit {l : List ℤ} {r : ℤ} (hr : Bit r) (hl : ∀ v ∈ l, Bit v) : Bit (l.getLastD r) := by
  rcases List.eq_nil_or_concat l with rfl | ⟨l, v, rfl⟩
  · exact hr
  · simpa using hl v (by simp)

/-- The state after the rounds `os`. -/
structure Inv (mo₀ mo : MemoryOrder) (os : List (ℤ × ℤ)) (s : State) : Prop where
  length : os.length = s.i
  zeros : s.zeros = os.count (0, 0)
  allowed : ∀ o ∈ os, Allowed mo o
  r1 : Bit s.r1
  r2 : Bit s.r2
  all : s.m.All Bit
  race : mo = .seqCst → s.phase = .race → ∃ mem, (load mo₀ .seqCst mem (· != .main)).system.Reach s.m

theorem inv_run {runs : ℕ} {as : List Act} {s : State}
    (h : (test mo₀ mo runs).run (test mo₀ mo runs).start as = some s) :
    Inv mo₀ mo ((test mo₀ mo runs).trace output (test mo₀ mo runs).start as) s := by
  refine System.trace_inv (I := Inv mo₀ mo) h (System.along_true as _) ?_ ?_
  · exact ⟨rfl, rfl, nofun, .inl rfl, .inl rfl, all_load fun _ => .inl rfl, nofun⟩
  · intro os s₁ a s₂ _ _ ha hi
    cases a with
    | enter =>
      simp only [test] at ha
      split at ha <;> cases ha
      simp only [output, List.append_nil]
      exact ⟨hi.length, hi.zeros, hi.allowed, hi.r1, hi.r2, all_load hi.all.mem, nofun⟩
    | machine a =>
      obtain ⟨m, hm, rfl⟩ := Option.map_eq_some_iff.mp ha
      simp only [output, List.append_nil]
      refine ⟨hi.length, hi.zeros, hi.allowed, hi.r1, hi.r2, hi.all.step (Tso.next_iff.mp hm), fun hmo hp => ?_⟩
      obtain ⟨mem, hr⟩ := hi.race hmo hp
      exact ⟨mem, .step hr trivial hm⟩
    | create =>
      simp only [test] at ha
      split at ha <;> cases ha
      simp only [output, List.append_nil]
      refine ⟨hi.length, hi.zeros, hi.allowed, hi.r1, hi.r2, all_load hi.all.mem, fun hmo _ => ⟨s₁.m.mem, ?_⟩⟩
      subst hmo
      exact .refl
    | join =>
      simp only [test] at ha
      split at ha <;> cases ha
      rename_i hc
      obtain ⟨hp, h1, h2⟩ := hc
      have hr1 : Bit (result s₁).1 := getLastD_bit hi.r1 (hi.all.got .t1)
      have hr2 : Bit (result s₁).2 := getLastD_bit hi.r2 (hi.all.got .t2)
      refine ⟨?_, ?_, fun o ho => ?_, hr1, hr2, hi.all, nofun⟩
      · simp [output, hi.length]
      · simp only [output, List.count_append, hi.zeros, List.count_singleton]
        cases result s₁ == (0, 0) <;> rfl
      · rcases List.mem_append.mp ho with ho | ho
        · exact hi.allowed o ho
        · cases List.mem_singleton.mp ho
          refine ⟨hr1, hr2, fun hmo => ?_⟩
          subst hmo
          obtain ⟨mem, hr⟩ := hi.race rfl hp
          exact result_ne_zero hr h1 h2

/-! ## Every allowed result is one of a run -/

/-- Main stores 0 and 0. -/
def resetActs : MemoryOrder → List (Tso.Act Thread)
  | .relaxed => [.exec .main, .exec .main, .drain .main, .drain .main]
  | .seqCst => [.exec .main, .drain .main, .exec .main, .exec .main, .drain .main, .exec .main]

/-- The thread stores, up to memory. -/
def storeActs (t : Thread) : MemoryOrder → List (Tso.Act Thread)
  | .relaxed => [.exec t, .drain t]
  | .seqCst => [.exec t, .drain t, .exec t]

/-- The steps of the threads in a round with the result `r`: both load before
they store, one of them does, or none. -/
def raceActs (mo : MemoryOrder) (r : ℤ × ℤ) : List (Tso.Act Thread) :=
  if r = (0, 0) then [.exec .t1, .exec .t2, .exec .t1, .exec .t2, .drain .t1, .drain .t2]
  else if r.1 = 0 then storeActs .t1 mo ++ [.exec .t1] ++ storeActs .t2 mo ++ [.exec .t2]
  else if r.2 = 0 then storeActs .t2 mo ++ [.exec .t2] ++ storeActs .t1 mo ++ [.exec .t1]
  else storeActs .t1 mo ++ storeActs .t2 mo ++ [.exec .t1, .exec .t2]

def roundActs (mo₀ mo : MemoryOrder) (r : ℤ × ℤ) : List Act :=
  .enter :: (resetActs mo₀).map .machine ++ .create :: (raceActs mo r).map .machine ++ [.join]

variable (mo₀) (runs : ℕ)

theorem exists_round {r : ℤ × ℤ} (hr : Allowed mo r) {s : State} (hp : s.phase = .next) (hi : s.i < runs) :
    ∃ s', (test mo₀ mo runs).run s (roundActs mo₀ mo r) = some s' ∧ s'.phase = .next ∧ s'.i = s.i + 1 ∧
      (test mo₀ mo runs).trace output s (roundActs mo₀ mo r) = [r] := by
  have hent : (test mo₀ mo runs).next s .enter =
      some { s with phase := .reset, m := load mo₀ mo s.m.mem (· == .main) } := if_pos ⟨hp, hi⟩
  obtain ⟨r1, r2⟩ := r
  obtain ⟨h1, h2, hmo⟩ := hr
  rw [roundActs, List.cons_append, List.cons_append, System.trace_cons hent, System.run, hent, Option.bind_some]
  rcases h1 with h1 | h1 <;> rcases h2 with h2 | h2 <;> simp only at h1 h2 <;> subst h1 h2 <;> cases mo₀ <;> cases mo
  all_goals first
    | exact ⟨_, rfl, rfl, rfl, rfl⟩
    | exact absurd rfl (hmo rfl)

/-- All allowed results are those of a run. -/
theorem exists_rounds {os : List (ℤ × ℤ)} (hos : ∀ o ∈ os, Allowed mo o) {s : State} (hp : s.phase = .next)
    (hi : s.i + os.length ≤ runs) : ∃ as s', (test mo₀ mo runs).run s as = some s' ∧ s'.phase = .next ∧
      s'.i = s.i + os.length ∧ (test mo₀ mo runs).trace output s as = os := by
  induction os generalizing s with
  | nil => exact ⟨[], s, rfl, hp, rfl, rfl⟩
  | cons o os ih =>
    rw [List.length_cons] at hi
    obtain ⟨s₁, hr₁, hp₁, hi₁, ht₁⟩ := exists_round mo₀ runs (hos o List.mem_cons_self) hp (by omega)
    obtain ⟨as, s₂, hr₂, hp₂, hi₂, ht₂⟩ := ih (fun o ho => hos o (List.mem_cons_of_mem _ ho)) hp₁ (by omega)
    refine ⟨roundActs mo₀ mo o ++ as, s₂, ?_, hp₂, by rw [List.length_cons]; omega, ?_⟩
    · rw [System.run_append, hr₁]
      exact hr₂
    · rw [System.trace_append hr₁, ht₁, ht₂]
      rfl

/-- The results of all rounds: with relaxed stores, any of 0 and 1; with
seq_cst stores, never 0 for both. The program counts those with 0 for both. -/
theorem results_iff (mo : MemoryOrder) :
    (∀ as s, (test mo₀ mo runs).run (test mo₀ mo runs).start as = some s →
      s.zeros = ((test mo₀ mo runs).trace output (test mo₀ mo runs).start as).count (0, 0)) ∧
    ∀ os, (∃ as s, (test mo₀ mo runs).run (test mo₀ mo runs).start as = some s ∧ s.phase = .next ∧ s.i = runs ∧
        (test mo₀ mo runs).trace output (test mo₀ mo runs).start as = os) ↔
      os.length = runs ∧ ∀ o ∈ os, Allowed mo o := by
  refine ⟨fun as s h => (inv_run h).zeros, fun os => ⟨?_, ?_⟩⟩
  · rintro ⟨as, s, h, -, hi, rfl⟩
    exact ⟨(inv_run h).length.trans hi, (inv_run h).allowed⟩
  · rintro ⟨hl, hos⟩
    obtain ⟨as, s, hr, hp, hi, ht⟩ := exists_rounds mo₀ runs hos (s := (test mo₀ mo runs).start) rfl
      (by rw [← hl]; exact Nat.le_of_eq (Nat.zero_add _))
    exact ⟨as, s, hr, hp, hi.trans ((Nat.zero_add _).trans hl), ht⟩

end TKH.StoreLoad
