import ThreadingKnowHows.Framework.Amortised
import ThreadingKnowHows.Stack.LockFreeLinearizable
import ThreadingKnowHows.Stack.Tagged

/-!
# The stacks are lock-free

A compare-and-swap fails, if not for no reason, only because another one has
succeeded since `head_` was read. `cost` is the number of steps that a thread
has yet to take if no other compare-and-swap succeeds; each success adds at
most two to it for each of the other threads. So the number of steps of a run
is bounded by its calls, its spurious failures, and the operations that take
effect in it (`LockFree.stack_lock_free`, `Tagged.tagged_lock_free`).

Both say that a thread is never blocked as long as `new` finds a free address. For
the tagged stack it is assumed that `std::atomic<TaggedPtr>` is lock-free itself, so that
its `load` and `compare_exchange` are single steps; where the library puts a hidden
lock around them the stack is correct, but a thread can wait for that lock.
-/

namespace TKH.Stack

variable {τ A T : Type*}

/-- What an action adds to the steps to take: those of a call, or a retry. -/
def Act.pay : Act τ A T → ℕ
  | .call _ _ => 6
  | .fail _ => 2
  | _ => 0

def Act.isCall : Act τ A T → Bool
  | .call _ _ => true
  | _ => false

def Act.isFail : Act τ A T → Bool
  | .fail _ => true
  | _ => false

/-- Whose step it is. -/
def Act.thread : Act τ A T → τ
  | .call t _ | .step t | .new t _ | .fail t | .ret t => t

theorem sum_pay (as : List (Act τ A T)) :
    (as.map Act.pay).sum = 6 * as.countP Act.isCall + 2 * as.countP Act.isFail := by
  induction as with
  | nil => rfl
  | cons a as ih =>
    rw [List.map_cons, List.sum_cons, ih, List.countP_cons, List.countP_cons]
    cases a with
    | call | fail => simp only [Act.pay, Act.isCall, Act.isFail, if_true, Bool.false_eq_true, if_false]; omega
    | _ => simp only [Act.pay, Act.isCall, Act.isFail, Bool.false_eq_true, if_false]; omega

namespace LockFree

variable [DecidableEq A]

/-- The steps that a thread has yet to take if the head stays as it is. -/
def cost (s : State τ A T) : Pc A T → ℕ
  | .out => 0
  | .pushLoad _ => 4
  | .pushNew _ h => if s.head = h then 3 else 4
  | .pushCas _ n => if s.head = s.next n then 2 else 3
  | .pushRet _ => 1
  | .popLoad => 5
  | .popNext a => if s.head = some a then 4 else 6
  | .popCas a _ => if s.head = some a then 3 else 5
  | .popValue _ => 2
  | .popRet _ => 1

theorem cost_le (s : State τ A T) (k : Pc A T) : cost s k ≤ 6 := by
  cases k <;> simp only [cost] <;> (try split) <;> omega

/-- Another thread's compare-and-swap costs a thread at most two steps. -/
theorem cost_le_add {s s' : State τ A T} {k : Pc A T} (hk : ∀ n, k.mine = some n → s'.next n = s.next n) :
    cost s' k ≤ cost s k + 2 := by
  cases k with
  | pushCas v n =>
    rw [cost, cost, hk n rfl]
    split <;> split <;> omega
  | _ => simp only [cost]; (try split) <;> (try split) <;> omega

/-- As long as the head stays, nothing changes for a thread. -/
theorem cost_eq {s s' : State τ A T} {k : Pc A T} (hhead : s'.head = s.head)
    (hk : ∀ n, k.mine = some n → s'.next n = s.next n) : cost s' k = cost s k := by
  cases k with
  | pushCas v n => rw [cost, cost, hk n rfl, hhead]
  | _ => simp only [cost, hhead]

variable [DecidableEq τ] [Fintype τ]

/-- What the threads have yet to do. -/
def potential (s : State τ A T) : ℕ := total (cost s) s.pc

/-- The steps that the operations which have taken effect may have cost the
other threads. -/
def charged (s : State τ A T) : ℕ := 2 * (Fintype.card τ - 1) * s.hist.length

/-- A step of `t` that leaves the head, the nodes of the others, and the
history or adds to it. -/
theorem potential_quiet {s s' : State τ A T} {t : τ} {k : Pc A T} {p : ℕ} (hpc : s'.pc = Function.update s.pc t k)
    (hhead : s'.head = s.head) (hother : ∀ u ≠ t, ∀ n, (s.pc u).mine = some n → s'.next n = s.next n)
    (hhist : s.hist.length ≤ s'.hist.length) (hcost : cost s' k + 1 ≤ cost s (s.pc t) + p) :
    potential s' + charged s + 1 ≤ potential s + charged s' + p := by
  have hu : ∀ u, u ≠ t → cost s' (s.pc u) ≤ cost s (s.pc u) + 0 := fun u hu => (cost_eq hhead (hother u hu)).le
  have htot := total_update_le hu k
  rw [← hpc] at htot
  have hch : charged s ≤ charged s' := Nat.mul_le_mul_left _ hhist
  simp only [potential]
  omega

/-- A compare-and-swap of `t` that succeeds. -/
theorem potential_swap {s s' : State τ A T} {t : τ} {k : Pc A T} {x : τ × Op T × Ret T}
    (hpc : s'.pc = Function.update s.pc t k) (hheap : s'.heap = s.heap) (hhist : s'.hist = s.hist ++ [x])
    (hcost : cost s' k + 1 ≤ cost s (s.pc t)) : potential s' + charged s + 1 ≤ potential s + charged s' := by
  have hu : ∀ u, u ≠ t → cost s' (s.pc u) ≤ cost s (s.pc u) + 2 := fun u _ =>
    cost_le_add fun n _ => by simp only [State.next, hheap]
  have htot := total_update_le hu k
  rw [← hpc] at htot
  have hch : charged s' = charged s + 2 * (Fintype.card τ - 1) := by
    rw [charged, hhist, List.length_append, List.length_singleton, Nat.mul_add, Nat.mul_one]
    rfl
  simp only [potential]
  omega

/-- `pop` reads the head: it returns, or its snapshot is fresh. -/
theorem potential_test {s : State τ A T} {t : τ} {p : ℕ} (hcost : 5 ≤ cost s (s.pc t) + p) :
    potential (s.test t) + charged s + 1 ≤ potential s + charged (s.test t) + p := by
  rw [State.test]
  split
  · exact potential_quiet rfl rfl (fun _ _ _ _ => rfl) (by simp [State.goto, State.commit])
      (show 1 + 1 ≤ _ by omega)
  · rename_i a ha
    refine potential_quiet rfl rfl (fun _ _ _ _ => rfl) le_rfl ?_
    rw [cost, if_pos (show (s.goto t (.popNext a)).head = some a from ha)]
    exact hcost

/-- The compare-and-swap of `push` fails: its snapshot is fresh again. -/
theorem potential_pushFail {s : State τ A T} (hi : Inv s) {t : τ} {v : T} {n : A} {node : Node A T} {p : ℕ}
    (hpc : s.pc t = .pushCas v n) (hcost : 3 ≤ cost s (s.pc t) + p) :
    potential (s.pushFail n node) + charged s + 1 ≤ potential s + charged (s.pushFail n node) + p := by
  refine potential_quiet (t := t) (k := .pushCas v n) ?_ rfl (fun u hu m hm => ?_) le_rfl ?_
  · rw [← hpc, Function.update_eq_self]
    rfl
  · have hmn : m ≠ n := by
      rintro rfl
      exact hu (hi.apart u t m hm (by rw [hpc]; rfl))
    simp [State.next, State.pushFail, Function.update_of_ne hmn]
  · have hfresh : (s.pushFail n node).head = (s.pushFail n node).next n := by
      simp [State.pushFail, State.next]
    rw [cost, if_pos hfresh]
    exact hcost

theorem potential_next {s s' : State τ A T} {a : Act τ A T} (hi : Inv s) (h : next s a = some s') :
    potential s' + charged s + 1 ≤ potential s + charged s' + a.pay := by
  cases a with
  | call t op =>
    simp only [next] at h
    split at h <;> cases h
    rename_i hpc
    refine potential_quiet rfl rfl (fun _ _ _ _ => rfl) le_rfl ?_
    cases op <;> simp [cost, enter, hpc, Act.pay]
  | step t =>
    simp only [next] at h
    split at h
    · rename_i v hpc
      cases h
      exact potential_quiet rfl rfl (fun _ _ _ _ => rfl) le_rfl (by simp [cost, State.goto, hpc])
    · rename_i v n hpc
      obtain ⟨node, hn, rfl⟩ := Option.map_eq_some_iff.mp h
      have hnext : s.next n = node.next := by simp [State.next, hn]
      split
      · rename_i hhead
        exact potential_swap rfl rfl rfl (by simp [cost, hpc, hnext, hhead])
      · rename_i hhead
        exact potential_pushFail hi hpc (by simp [cost, hpc, hnext, hhead])
    · rename_i hpc
      cases h
      exact potential_test (by simp [cost, hpc])
    · rename_i a hpc
      obtain ⟨node, hn, rfl⟩ := Option.map_eq_some_iff.mp h
      refine potential_quiet rfl rfl (fun _ _ _ _ => rfl) le_rfl ?_
      by_cases hhead : s.head = some a <;> simp [cost, State.goto, hpc, hhead]
    · rename_i a nx hpc
      cases h
      split
      · rename_i hhead
        exact potential_swap rfl rfl rfl (by simp [cost, hpc, hhead])
      · rename_i hhead
        exact potential_test (by simp [cost, hpc, hhead])
    · rename_i a hpc
      obtain ⟨node, hn, rfl⟩ := Option.map_eq_some_iff.mp h
      exact potential_quiet rfl rfl (fun _ _ _ _ => rfl) le_rfl (by simp [cost, hpc])
    · cases h
  | new t a =>
    simp only [next] at h
    split at h
    · rename_i v hd hpc
      split at h
      · rename_i ha
        cases h
        refine potential_quiet rfl rfl (fun u hu n hn => ?_) le_rfl ?_
        · -- the new node is none of another thread's
          obtain ⟨w, hw⟩ := hi.heap_of_mine hn
          have hna : n ≠ a := by
            rintro rfl
            simp [State.value, ha] at hw
          simp [State.next, State.goto, Function.update_of_ne hna]
        · simp only [cost, State.goto, State.next, hpc, Function.update_self, Option.bind_some, Act.pay]
          split <;> omega
      · cases h
    · cases h
  | fail t =>
    simp only [next] at h
    split at h
    · rename_i v n hpc
      obtain ⟨node, hn, rfl⟩ := Option.map_eq_some_iff.mp h
      refine potential_pushFail hi hpc ?_
      rw [hpc, cost]
      split <;> simp only [Act.pay] <;> omega
    · rename_i a nx hpc
      cases h
      refine potential_test ?_
      rw [hpc, cost]
      split <;> simp only [Act.pay] <;> omega
    · cases h
  | ret t =>
    simp only [next] at h
    split at h <;> cases h <;> rename_i hpc
    all_goals exact potential_quiet rfl rfl (fun _ _ _ _ => rfl) le_rfl (by simp [cost, hpc])

omit [Fintype τ] in
/-- A thread in a call can always take a step, if there is an address for its
node. -/
theorem exists_next {s : State τ A T} (hi : Inv s) (hfree : ∃ a, s.heap a = none) {t : τ} (ht : (s.pc t) ≠ .out) :
    ∃ a : Act τ A T, a.thread = t ∧ (next s a).isSome = true := by
  have hk := hi.knows t
  cases hpc : s.pc t with
  | out => exact absurd hpc ht
  | pushLoad v | popLoad | popCas a nx => exact ⟨.step t, rfl, by simp [next, hpc]⟩
  | pushNew v h =>
    obtain ⟨a, ha⟩ := hfree
    exact ⟨.new t a, rfl, by simp [next, hpc, ha]⟩
  | pushCas v n =>
    obtain ⟨w, hw⟩ := hi.heap_of_mine (t := t) (n := n) (by rw [hpc]; rfl)
    obtain ⟨node, hn, -⟩ := Option.map_eq_some_iff.mp hw
    exact ⟨.step t, rfl, by simp [next, hpc, hn]⟩
  | popNext a | popValue a =>
    rw [hpc] at hk
    exact ⟨.step t, rfl, by simpa [next, hpc] using hk.1⟩
  | pushRet v | popRet r => exact ⟨.ret t, rfl, by simp [next, hpc]⟩

/-- The stack is lock-free: no thread in a call is ever blocked, and the steps
of any part of a run are bounded by the calls, the spurious failures and the
operations that take effect in it. A push needs a free address for its node. -/
theorem stack_lock_free {s s' : State τ A T} (hs : (stack τ A T).Reach s) {as : List (Act τ A T)}
    (hr : (stack τ A T).run s as = some s') :
    as.length ≤ 6 * (Fintype.card τ + as.countP Act.isCall) + 2 * as.countP Act.isFail +
        2 * (Fintype.card τ - 1) * (s'.hist.length - s.hist.length) ∧
      ∀ t, s.pc t ≠ .out → (∃ a, s.heap a = none) → ∃ a : Act τ A T, a.thread = t ∧ (next s a).isSome = true := by
  refine ⟨?_, fun t ht hfree => exists_next (inv_of_reach hs) hfree ht⟩
  have hlen := System.length_add_le_of_pay (fun h ha => potential_next (inv_of_reach h) ha) hs hr
  have hpot : potential s ≤ 6 * Fintype.card τ := total_le_mul fun t => cost_le s (s.pc t)
  rw [sum_pay] at hlen
  simp only [charged] at hlen
  rw [Nat.mul_sub]
  omega

/-- Two threads, one retry and one spurious failure. -/
theorem stack_lock_free_two :
    ∃ s, (stack Bool ℕ ℕ).run (stack Bool ℕ ℕ).start (pushPushPop true false) = some s ∧
      (pushPushPop true false).length ≤ 6 * (2 + 3) + 2 * 1 + 2 * s.hist.length := by
  have hr : ((stack Bool ℕ ℕ).run (stack Bool ℕ ℕ).start (pushPushPop true false)).isSome = true := by decide
  have hs := (Option.some_get hr).symm
  exact ⟨_, hs, (stack_lock_free .refl hs).1⟩

end LockFree

namespace Tagged

variable {w : ℕ}

/-- The addresses that a thread has. -/
def Pc.refs : Pc A T w → List A
  | .pushLoad _ n => [n]
  | .pushLink _ n cur _ | .pushCas _ n cur _ => n :: cur.ptr.toList
  | .popNext a _ _ | .popValue a => [a]
  | .popCas a _ _ nx => a :: nx.toList
  | _ => []

/-- All addresses are those of nodes that were allocated. -/
structure Allocated (s : State τ A T w) : Prop where
  head : ∀ a ∈ s.head.ptr, (s.heap a).isSome = true
  next : ∀ a node, s.heap a = some node → ∀ b ∈ node.next, (s.heap b).isSome = true
  refs : ∀ t, ∀ a ∈ (s.pc t).refs, (s.heap a).isSome = true

variable [DecidableEq τ] [DecidableEq A]

omit [DecidableEq A] in
/-- A step that leaves the nodes. -/
theorem Allocated.goto {s s' : State τ A T w} (h : Allocated s) {t : τ} {k : Pc A T w}
    (hpc : s'.pc = Function.update s.pc t k) (hheap : s'.heap = s.heap)
    (hhead : ∀ a ∈ s'.head.ptr, (s.heap a).isSome = true) (hk : ∀ a ∈ k.refs, (s.heap a).isSome = true) :
    Allocated s' where
  head := by rw [hheap]; exact hhead
  next := by rw [hheap]; exact h.next
  refs := by
    rw [hpc, hheap]
    exact (Function.forall_update_iff s.pc fun _ k => ∀ a ∈ k.refs, (s.heap a).isSome = true).mpr
      ⟨hk, fun u _ => h.refs u⟩

/-- A step that writes the node at `n`. -/
theorem Allocated.write {s s' : State τ A T w} (h : Allocated s) {t : τ} {k : Pc A T w} {n : A} {node : Node A T}
    (hpc : s'.pc = Function.update s.pc t k) (hheap : s'.heap = Function.update s.heap n (some node))
    (hhead : s'.head = s.head) (hnode : ∀ b ∈ node.next, (s.heap b).isSome = true)
    (hk : ∀ a ∈ k.refs, a = n ∨ (s.heap a).isSome = true) : Allocated s' := by
  have hmono : ∀ a, (s.heap a).isSome = true → (s'.heap a).isSome = true := fun a ha => by
    rw [hheap, Function.update_apply]
    split
    · rfl
    · exact ha
  refine ⟨fun a ha => hmono a (h.head a (hhead ▸ ha)), fun a node' hn b hb => hmono b ?_, ?_⟩
  · rw [hheap, Function.update_apply] at hn
    split at hn
    · cases hn; exact hnode b hb
    · exact h.next a node' hn b hb
  · rw [hpc]
    refine (Function.forall_update_iff s.pc fun _ k => ∀ a ∈ k.refs, (s'.heap a).isSome = true).mpr
      ⟨fun a ha => ?_, fun u _ a ha => hmono a (h.refs u a ha)⟩
    rcases hk a ha with rfl | ha
    · rw [hheap, Function.update_self]; rfl
    · exact hmono a ha

theorem Allocated.step {s s' : State τ A T w} {a : Act τ A T} (h : Allocated s) (hs : Step s a s') : Allocated s' := by
  have hhead : ∀ {n : A}, n ∈ s.head.ptr.toList → (s.heap n).isSome = true := fun hn => h.head _ (by simpa using hn)
  cases hs with
  | @call t op hpc => exact h.goto rfl rfl h.head (by cases op <;> exact nofun)
  | @pushNew t v a hpc ha =>
    exact h.write rfl rfl rfl nofun fun b hb => .inl (List.mem_singleton.mp hb)
  | @pushLoad t v n hpc =>
    have hr := h.refs t
    rw [hpc] at hr
    refine h.goto rfl rfl h.head fun b hb => ?_
    rcases List.mem_cons.mp hb with rfl | hb
    · exact hr b List.mem_cons_self
    · exact hhead hb
  | @pushLink t v n cur seen node hpc hn =>
    have hr := h.refs t
    rw [hpc] at hr
    exact h.write rfl rfl rfl (fun b hb => hr b (List.mem_cons_of_mem _ (by simpa using hb))) fun b hb => .inr (hr b hb)
  | @pushOk t v n cur seen hpc hcur =>
    have hr := h.refs t
    rw [hpc] at hr
    refine h.goto rfl rfl (fun b hb => ?_) nofun
    cases hb
    exact hr n List.mem_cons_self
  | @pushFail t v n cur seen a hpc hvis =>
    have hr := h.refs t
    rw [hpc] at hr
    refine h.goto rfl rfl h.head fun b hb => ?_
    rcases List.mem_cons.mp hb with rfl | hb
    · exact hr b List.mem_cons_self
    · exact hhead hb
  | @popTest t a hpc hvis =>
    rw [State.test]
    split
    · exact h.goto rfl rfl h.head nofun
    · rename_i b hb
      refine h.goto rfl rfl h.head fun c hc => ?_
      cases List.mem_singleton.mp hc
      exact h.head b hb
  | @popNext t a tag seen node hpc hn =>
    refine h.goto rfl rfl h.head fun b hb => ?_
    rcases List.mem_cons.mp hb with rfl | hb
    · rw [hn]; rfl
    · exact h.next a node hn b (by simpa using hb)
  | @popOk t a tag seen nx hpc hcur =>
    have hr := h.refs t
    rw [hpc] at hr
    refine h.goto rfl rfl (fun b hb => ?_) fun b hb => ?_
    · have hb : nx = some b := hb
      exact hr b (List.mem_cons_of_mem _ (by simp [hb]))
    · cases List.mem_singleton.mp hb
      exact hr a List.mem_cons_self
  | @popValue t a node hpc hn => exact h.goto rfl rfl h.head nofun
  | @pushRet t v hpc => exact h.goto rfl rfl h.head nofun
  | @popRet t r a hpc => cases a <;> exact h.goto rfl rfl h.head nofun

theorem allocated {s : State τ A T w} (hs : (stack τ A T w).Reach s) : Allocated s :=
  hs.inv (I := Allocated) ⟨nofun, nofun, nofun⟩ fun _ _ ha hi => hi.step (step_of_next ha)

/-- The steps that a thread has yet to take if the head stays as it is. -/
def cost (s : State τ A T w) : Pc A T w → ℕ
  | .out => 0
  | .pushNew _ => 5
  | .pushLoad _ _ => 4
  | .pushLink _ _ cur _ => if s.head = cur then 3 else 5
  | .pushCas _ _ cur _ => if s.head = cur then 2 else 4
  | .pushRet _ => 1
  | .popLoad => 5
  | .popNext a tag _ => if s.head = ⟨some a, tag⟩ then 4 else 6
  | .popCas a tag _ _ => if s.head = ⟨some a, tag⟩ then 3 else 5
  | .popValue _ => 2
  | .popRet _ _ => 1

omit [DecidableEq τ] in
theorem cost_le (s : State τ A T w) (k : Pc A T w) : cost s k ≤ 6 := by
  cases k <;> simp only [cost] <;> (try split) <;> omega

omit [DecidableEq τ] in
/-- Another thread's compare-and-swap costs a thread at most two steps. -/
theorem cost_le_add (s s' : State τ A T w) (k : Pc A T w) : cost s' k ≤ cost s k + 2 := by
  cases k <;> simp only [cost] <;> (try split) <;> (try split) <;> omega

omit [DecidableEq τ] in
/-- As long as the head stays, nothing changes for a thread. -/
theorem cost_eq {s s' : State τ A T w} (hhead : s'.head = s.head) (k : Pc A T w) : cost s' k = cost s k := by
  cases k <;> simp only [cost, hhead]

variable [Fintype τ]

/-- What the threads have yet to do. -/
def potential (s : State τ A T w) : ℕ := total (cost s) s.pc

/-- The steps that the operations which have taken effect may have cost the
other threads. -/
def charged (s : State τ A T w) : ℕ := 2 * (Fintype.card τ - 1) * s.hist.length

/-- A step of `t` that leaves the head. -/
theorem potential_quiet {s s' : State τ A T w} {t : τ} {k : Pc A T w} {p : ℕ} (hpc : s'.pc = Function.update s.pc t k)
    (hhead : s'.head = s.head) (hhist : s.hist.length ≤ s'.hist.length) (hcost : cost s k + 1 ≤ cost s (s.pc t) + p) :
    potential s' + charged s + 1 ≤ potential s + charged s' + p := by
  have hu : ∀ u, u ≠ t → cost s' (s.pc u) ≤ cost s (s.pc u) + 0 := fun u _ => (cost_eq hhead (s.pc u)).le
  have htot := total_update_le hu k
  rw [← hpc] at htot
  rw [cost_eq hhead] at htot
  have hch : charged s ≤ charged s' := Nat.mul_le_mul_left _ hhist
  simp only [potential]
  omega

/-- A compare-and-swap of `t` that succeeds. -/
theorem potential_swap {s s' : State τ A T w} {t : τ} {k : Pc A T w} {x : τ × Op T × Ret T}
    (hpc : s'.pc = Function.update s.pc t k) (hhist : s'.hist = s.hist ++ [x])
    (hcost : cost s' k + 1 ≤ cost s (s.pc t)) : potential s' + charged s + 1 ≤ potential s + charged s' := by
  have hu : ∀ u, u ≠ t → cost s' (s.pc u) ≤ cost s (s.pc u) + 2 := fun u _ => cost_le_add s s' (s.pc u)
  have htot := total_update_le hu k
  rw [← hpc] at htot
  have hch : charged s' = charged s + 2 * (Fintype.card τ - 1) := by
    rw [charged, hhist, List.length_append, List.length_singleton, Nat.mul_add, Nat.mul_one]
    rfl
  simp only [potential]
  omega

/-- `pop` reads the head: it returns, or its snapshot is fresh. -/
theorem potential_test {s : State τ A T w} {t : τ} {p : ℕ} (hcost : 5 ≤ cost s (s.pc t) + p) :
    potential (s.test t) + charged s + 1 ≤ potential s + charged (s.test t) + p := by
  rw [State.test]
  split
  · exact potential_quiet rfl rfl (by simp [State.goto, State.commit]) (show 1 + 1 ≤ _ by omega)
  · rename_i a ha
    refine potential_quiet rfl rfl le_rfl ?_
    rw [cost, if_pos (by rw [← ha])]
    exact hcost

theorem potential_next {s s' : State τ A T w} {a : Act τ A T} (h : next s a = some s') :
    potential s' + charged s + 1 ≤ potential s + charged s' + a.pay := by
  cases a with
  | call t op =>
    simp only [next] at h
    split at h <;> cases h
    rename_i hpc
    refine potential_quiet rfl rfl le_rfl ?_
    cases op <;> simp [cost, enter, hpc, Act.pay]
  | new t a =>
    simp only [next] at h
    split at h
    · split at h <;> cases h
      rename_i v hpc _
      exact potential_quiet rfl rfl le_rfl (by simp [cost, hpc])
    · cases h
  | step t =>
    simp only [next] at h
    split at h
    · rename_i v n hpc
      cases h
      exact potential_quiet rfl rfl le_rfl (by simp [cost, hpc])
    · rename_i v n cur seen hpc
      obtain ⟨node, hn, rfl⟩ := Option.map_eq_some_iff.mp h
      refine potential_quiet rfl rfl le_rfl ?_
      by_cases hhead : s.head = cur <;> simp [cost, hpc, hhead]
    · rename_i v n cur seen hpc
      cases h
      split
      · rename_i hhead
        exact potential_swap rfl rfl (by simp [cost, hpc, hhead])
      · rename_i hhead
        exact potential_quiet rfl rfl le_rfl (by simp [cost, hpc, hhead])
    · rename_i hpc
      cases h
      exact potential_test (by simp [cost, hpc])
    · rename_i a tag seen hpc
      obtain ⟨node, hn, rfl⟩ := Option.map_eq_some_iff.mp h
      refine potential_quiet rfl rfl le_rfl ?_
      by_cases hhead : s.head = ⟨some a, tag⟩ <;> simp [cost, hpc, hhead]
    · rename_i a tag seen nx hpc
      cases h
      split
      · rename_i hhead
        exact potential_swap rfl rfl (by simp [cost, hpc, hhead])
      · rename_i hhead
        exact potential_test (by simp [cost, hpc, hhead])
    · rename_i a hpc
      obtain ⟨node, hn, rfl⟩ := Option.map_eq_some_iff.mp h
      exact potential_quiet rfl rfl le_rfl (by simp [cost, hpc])
    · cases h
  | fail t =>
    simp only [next] at h
    split at h
    · rename_i v n cur seen hpc
      cases h
      refine potential_quiet rfl rfl le_rfl ?_
      by_cases hhead : s.head = cur <;> simp [cost, hpc, hhead, Act.pay]
    · rename_i a tag seen nx hpc
      cases h
      refine potential_test ?_
      by_cases hhead : s.head = ⟨some a, tag⟩ <;> simp [cost, hpc, hhead, Act.pay]
    · cases h
  | ret t =>
    simp only [next] at h
    split at h
    · rename_i v hpc
      cases h
      exact potential_quiet rfl rfl le_rfl (by simp [cost, hpc])
    · rename_i r a hpc
      cases h
      cases a <;> exact potential_quiet rfl rfl le_rfl (by simp [cost, hpc])
    · cases h

omit [Fintype τ] in
/-- A thread in a call can always take a step, if the allocator has a node for it. -/
theorem exists_next {s : State τ A T w} (hi : Allocated s) (hfree : ∃ a, s.live a = false) {t : τ} (ht : (s.pc t) ≠ .out) :
    ∃ a : Act τ A T, a.thread = t ∧ (next s a).isSome = true := by
  have hr := hi.refs t
  cases hpc : s.pc t with
  | out => exact absurd hpc ht
  | pushNew v =>
    obtain ⟨a, ha⟩ := hfree
    exact ⟨.new t a, rfl, by simp [next, hpc, ha]⟩
  | pushLoad | pushCas | popLoad | popCas => exact ⟨.step t, rfl, by simp [next, hpc]⟩
  | pushLink v n | popNext n | popValue n =>
    rw [hpc] at hr
    have hn := hr n List.mem_cons_self
    exact ⟨.step t, rfl, by simpa [next, hpc] using hn⟩
  | pushRet v | popRet r a => exact ⟨.ret t, rfl, by simp [next, hpc]⟩

/-- The tagged stack is lock-free too, whatever the width of the tag, if the atomic pair
of pointer and tag is. -/
theorem tagged_lock_free {s s' : State τ A T w} (hs : (stack τ A T w).Reach s) {as : List (Act τ A T)}
    (hr : (stack τ A T w).run s as = some s') :
    as.length ≤ 6 * (Fintype.card τ + as.countP Act.isCall) + 2 * as.countP Act.isFail +
        2 * (Fintype.card τ - 1) * (s'.hist.length - s.hist.length) ∧
      ∀ t, s.pc t ≠ .out → (∃ a, s.live a = false) → ∃ a : Act τ A T, a.thread = t ∧ (next s a).isSome = true := by
  refine ⟨?_, fun t ht hfree => exists_next (allocated hs) hfree ht⟩
  have hlen := System.length_add_le_of_pay (fun _ ha => potential_next ha) hs hr
  have hpot : potential s ≤ 6 * Fintype.card τ := total_le_mul fun t => cost_le s (s.pc t)
  rw [sum_pay] at hlen
  simp only [charged] at hlen
  rw [Nat.mul_sub]
  omega

/-- A push that is overtaken by a push and a pop. -/
def overtaken : List (Act Bool ℕ ℕ) :=
  [.call true (.push 1), .new true 10, .step true, .step true, .call false (.push 2), .new false 11, .step false,
    .step false, .step false, .ret false, .call false .pop, .step false, .step false, .step false, .step true, .step true,
    .step true, .ret true]

theorem tagged_lock_free_overtaken :
    ∃ s, (stack Bool ℕ ℕ 8).run (stack Bool ℕ ℕ 8).start overtaken = some s ∧
      overtaken.length ≤ 6 * (2 + 3) + 2 * 0 + 2 * s.hist.length := by
  have hr : ((stack Bool ℕ ℕ 8).run (stack Bool ℕ ℕ 8).start overtaken).isSome = true := by decide +kernel
  have hs := (Option.some_get hr).symm
  exact ⟨_, hs, (tagged_lock_free .refl hs).1⟩

end Tagged

end TKH.Stack
