import Mathlib.Algebra.Order.BigOperators.Group.Finset
import ThreadingKnowHows.FibTasks.Invariant

/-!
# Every run ends

The tree of the calls of `fib(n)` has at most `2 * Nat.fib (n + 1) - 1` nodes
(`card_calls`). A call that is not complete is at most eight steps from its
end, which count from before it is created (`left`); each step of a run is one
of them (`exists_takes`).
-/

namespace TKH.FibTasks

/-! ## The tree of the calls -/

/-- The calls that the task `p` makes in `fib(n)`, with their arguments. -/
def calls (p : TaskId) (n : ℤ) : Finset (TaskId × ℤ) :=
  insert (p, n) (if n < 2 then ∅ else calls (0 :: p) (n - 1) ∪ calls (1 :: p) (n - 2))
  termination_by n.toNat
  decreasing_by all_goals omega

theorem calls_of_lt {p : TaskId} {n : ℤ} (h : n < 2) : calls p n = {(p, n)} := by
  rw [calls, if_pos h]
  rfl

theorem calls_of_le {p : TaskId} {n : ℤ} (h : 2 ≤ n) :
    calls p n = insert (p, n) (calls (0 :: p) (n - 1) ∪ calls (1 :: p) (n - 2)) := by
  rw [calls, if_neg (by omega)]

theorem mem_calls_self (p : TaskId) (n : ℤ) : (p, n) ∈ calls p n := by
  rw [calls]
  exact Finset.mem_insert_self ..

theorem mem_calls_child {p q : TaskId} {n m : ℤ} (h : (q, m) ∈ calls p n) (hm : 2 ≤ m) :
    (0 :: q, m - 1) ∈ calls p n ∧ (1 :: q, m - 2) ∈ calls p n := by
  induction p, n using calls.induct with
  | case1 p n ih₁ ih₂ =>
    by_cases hn : n < 2
    · rw [calls_of_lt hn, Finset.mem_singleton] at h
      cases h
      omega
    · rw [calls_of_le (by omega)] at h ⊢
      simp only [Finset.mem_insert, Finset.mem_union] at h ⊢
      rcases h with he | h | h
      · cases he
        exact ⟨.inr (.inl (mem_calls_self ..)), .inr (.inr (mem_calls_self ..))⟩
      · obtain ⟨h₁, h₂⟩ := ih₁ hn h
        exact ⟨.inr (.inl h₁), .inr (.inl h₂)⟩
      · obtain ⟨h₁, h₂⟩ := ih₂ hn h
        exact ⟨.inr (.inr h₁), .inr (.inr h₂)⟩

theorem card_calls (n : ℕ) (p : TaskId) : (calls p n).card + 1 ≤ 2 * Nat.fib (n + 1) := by
  induction n using Nat.twoStepInduction generalizing p with
  | zero | one => rw [calls_of_lt (by decide), Finset.card_singleton]; decide
  | more n ih₁ ih₂ =>
    have h₁ := ih₁ (1 :: p)
    have h₂ := ih₂ (0 :: p)
    rw [calls_of_le (by omega), show ((n + 2 : ℕ) : ℤ) - 1 = ((n + 1 : ℕ) : ℤ) by omega,
      show ((n + 2 : ℕ) : ℤ) - 2 = (n : ℤ) by omega]
    have hinsert := Finset.card_insert_le (p, ((n + 2 : ℕ) : ℤ)) (calls (0 :: p) (n + 1 : ℕ) ∪ calls (1 :: p) n)
    have hunion := Finset.card_union_le (calls (0 :: p) (n + 1 : ℕ)) (calls (1 :: p) n)
    have hfib : Nat.fib (n + 2 + 1) = Nat.fib (n + 1) + Nat.fib (n + 1 + 1) := Nat.fib_add_two
    omega

/-! ## What is left to do -/

/-- How many steps a call that has started may still take. -/
@[simp] def Pc.left : Pc → ℕ
  | test => 7
  | taskA => 6
  | taskB => 5
  | taskwait => 4
  | sum => 3
  | assign _ => 2
  | done => 1

/-- A call that has not started, or has not been created, has eight steps to take. -/
def left : Option (Tasks.Task Point) → ℕ
  | none => 8
  | some T => match T.phase with
    | .created => 8
    | .started => T.point.pc.left
    | .complete => 0

theorem Pc.left_pos (pc : Pc) : 0 < pc.left := by cases pc <;> simp

theorem Pc.left_lt (pc : Pc) : pc.left < 8 := by cases pc <;> simp

variable {τ : Type} {w : ℕ} {n : ℤ} {s s' : State τ}

theorem left_of_act {p : TaskId} {l k : Point} {f : Vars → Option (Vars × Point)} {d d' : Vars}
    (hc : fib w p l = .act f) (hf : f d = some (d', k)) : k.pc.left < l.pc.left := by
  rcases act_cases hc hf with ⟨hpc, -, rfl⟩ | ⟨hpc, -, a, b, v, -, -, -, rfl⟩ | ⟨v, hpc, -, rfl⟩
  · simp only [Point.goto, hpc]
    split <;> simp
  · simp [Point.goto, hpc]
  · simp [Point.goto, hpc]

theorem left_of_create {p : TaskId} {l child k : Point} (hc : fib w p l = .create child k) : k.pc.left < l.pc.left := by
  rcases create_cases hc with ⟨hpc, -, rfl⟩ | ⟨hpc, -, rfl⟩ <;> simp [Point.goto, hpc]

theorem left_of_taskwait {p : TaskId} {l k : Point} (hc : fib w p l = .taskwait k) : k.pc.left < l.pc.left := by
  obtain ⟨hpc, rfl⟩ := taskwait_cases hc
  simp [Point.goto, hpc]

/-- From `s` to `s'` the task `p` has taken one of the steps that it had left. -/
def Takes (p : TaskId) (s s' : State τ) : Prop :=
  left (s'.task p) < left (s.task p) ∧ ∀ q ≠ p, left (s'.task q) = left (s.task q)

theorem takes_of_put {p : TaskId} {T U : Tasks.Task Point} (hT : s.task p = some T)
    (hs' : s'.task = Function.update s.task p (some U)) (hlt : left (some U) < left (some T)) : Takes p s s' := by
  refine ⟨?_, fun q hq => ?_⟩
  · rwa [hs', Function.update_self, hT]
  · rw [hs', Function.update_of_ne hq]

variable [DecidableEq τ] {a : Tasks.Act τ}

theorem exists_takes (hi : Tasks.Inv s) (hs : (main w n).Step s a s') : ∃ p, s.phase p ≠ none ∧ Takes p s s' := by
  have hphase : ∀ {p T}, s.task p = some T → s.phase p ≠ none := fun hT => by simp [Tasks.phase_of_task hT]
  -- a task that has started goes on
  have hgo : ∀ {t p T k} (c : ℕ), p ∈ s.own t → s.task p = some T → k.pc.left < T.point.pc.left →
      left (some { T with point := k, children := c }) < left (some T) := fun c hp hT hlt => by
    simp only [left, hi.started hp hT]
    exact hlt
  cases hs with
  | @start t p T hT hp =>
    refine ⟨p, hphase hT, takes_of_put hT rfl ?_⟩
    simp only [left, hp]
    exact T.point.pc.left_lt
  | @act t p T f d k hp hT hc hf =>
    exact ⟨p, hphase hT, takes_of_put hT rfl (hgo T.children hp hT (left_of_act hc hf))⟩
  | @taskwait t p T k hp hT hc =>
    exact ⟨p, hphase hT, takes_of_put hT rfl (hgo T.children hp hT (left_of_taskwait hc))⟩
  | @complete t p T hp hT hc =>
    refine ⟨p, hphase hT, takes_of_put hT rfl ?_⟩
    simp only [left, hi.started hp hT]
    exact T.point.pc.left_pos
  | @create t p T child k hp hT hc =>
    refine ⟨p, hphase hT, ?_, fun q hq => ?_⟩
    · rw [hT]
      refine lt_of_eq_of_lt (congrArg left (Function.update_self ..)) ?_
      exact hgo _ hp hT (left_of_create hc)
    · -- the new task has as many steps to take as before
      refine (congrArg left (Function.update_of_ne hq ..)).trans ?_
      by_cases hnew : q = T.children :: p
      · rw [hnew, hi.task_fresh hT]
        change left (Function.update s.task (T.children :: p) _ (T.children :: p)) = 8
        rw [Function.update_self]
        rfl
      · exact congrArg left (Function.update_of_ne hnew ..)

omit [DecidableEq τ] in
/-- The tasks are calls of the tree. -/
theorem Inv.mem_calls (h : Inv n s) (hi : Tasks.Inv s) {p : TaskId} (hp : s.phase p ≠ none) : (p, arg n p) ∈ calls [] n := by
  induction p with
  | nil => exact mem_calls_self ..
  | cons i p ih =>
    -- the call that has created it goes on with `fib(n-1)` or `fib(n-2)`
    have hlt := hi.child.mp hp
    have hparent : s.phase p ≠ none := by rcases hi.parent (Nat.zero_lt_of_lt hlt) with he | he <;> simp [he]
    obtain ⟨x, hx⟩ := Option.ne_none_iff_exists'.mp hparent
    obtain ⟨T, hT, -⟩ := Tasks.exists_task hx
    rw [Tasks.children_of_task hT] at hlt
    obtain ⟨hle, htwo⟩ := (h.call hT).pc.children_le (Nat.zero_lt_of_lt hlt)
    obtain ⟨h₀, h₁⟩ := mem_calls_child (ih hparent) hle
    rcases (show i = 0 ∨ i = 1 by omega) with rfl | rfl
    · exact h₀
    · exact h₁

/-- The steps that are left in all calls. -/
def total (n : ℤ) (s : State τ) : ℕ := ∑ c ∈ calls [] n, left (s.task c.1)

theorem total_step (h : Inv n s) (hi : Tasks.Inv s) (hs : (main w n).Step s a s') : total n s' < total n s := by
  obtain ⟨p, hp, hlt, hsame⟩ := exists_takes hi hs
  refine Finset.sum_lt_sum (fun c _ => ?_) ⟨_, h.mem_calls hi hp, hlt⟩
  by_cases hc : c.1 = p
  · rw [hc]
    exact hlt.le
  · rw [hsame _ hc]

theorem total_start (n : ℤ) : total n ((main w n).system τ).start = (calls [] n).card * 8 := by
  refine Finset.sum_const_nat fun c _ => ?_
  by_cases hc : c.1 = []
  · rw [hc]; rfl
  · simp only [Tasks.Program.system, Function.update_of_ne hc, left]

/-- No run has more than eight steps for each call. -/
theorem length_le {n : ℕ} {as : List (Tasks.Act τ)} (hr : ((main w n).system τ).run ((main w n).system τ).start as = some s) :
    as.length + 8 ≤ 16 * Nat.fib (n + 1) := by
  have hle := System.length_add_le (f := total n)
    (fun h ha => total_step (inv h) (Tasks.inv h) (Tasks.Program.step_of_next ha)) hr
  rw [total_start] at hle
  have hcard := card_calls n []
  omega

end TKH.FibTasks
