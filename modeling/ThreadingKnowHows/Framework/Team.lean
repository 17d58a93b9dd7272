import Mathlib.Algebra.BigOperators.Group.Multiset.Basic
import Mathlib.Data.Multiset.Fold
import ThreadingKnowHows.Framework.System
import ThreadingKnowHows.Framework.Total

/-!
# Loops that a team shares

The threads of a team run the iterations of a loop. A chunk is a list of
iterations that one thread runs in order: `share t` is the chunk that `t` has from
the start, and the chunks of `queue` go to the threads that ask next. At the end
a thread leaves, and may combine what it has with the rest (`leave`).

Each step uses up 1 of what is left (`Loop.Step.remaining`). So every run ends, with
all threads gone (`Loop.ended_of_quiet`), and each chunk has been run by one thread
(`Account.exists_taken`). With `leave` a reduction by an associative and commutative
operation, the result is that of the loop in order (`reduction_final`).
-/

namespace TKH.Team

structure Loop (τ ι D : Type*) where
  share : τ → List ι
  queue : List (List ι)
  body : τ → ι → D → D
  leave : τ → D → D
  init : D

structure State (τ ι D : Type*) where
  queue : List (List ι)
  /-- What is left of the chunk of a thread. -/
  todo : τ → List ι
  left : τ → Bool
  data : D

inductive Act (τ : Type*)
  | take (t : τ)
  | exec (t : τ)
  | leave (t : τ)

variable {τ ι D : Type*} [DecidableEq τ]

def Loop.system (P : Loop τ ι D) : System (State τ ι D) (Act τ) where
  start := { queue := P.queue, todo := P.share, left := fun _ => false, data := P.init }
  next s
    | .take t => match s.todo t, s.queue with
      | [], c :: cs => some { s with queue := cs, todo := Function.update s.todo t c }
      | _, _ => none
    | .exec t => match s.todo t with
      | i :: is => some { s with todo := Function.update s.todo t is, data := P.body t i s.data }
      | [] => none
    | .leave t => match s.todo t, s.queue, s.left t with
      | [], [], false => some { s with left := Function.update s.left t true, data := P.leave t s.data }
      | _, _, _ => none

/-- All threads have left. -/
def Ended (s : State τ ι D) : Prop := ∀ t, s.left t = true

/-- The steps of `next`. -/
inductive Loop.Step (P : Loop τ ι D) (s : State τ ι D) : Act τ → State τ ι D → Prop
  | take {t : τ} {c : List ι} {cs : List (List ι)} : s.todo t = [] → s.queue = c :: cs →
    P.Step s (.take t) { s with queue := cs, todo := Function.update s.todo t c }
  | exec {t : τ} {i : ι} {is : List ι} : s.todo t = i :: is →
    P.Step s (.exec t) { s with todo := Function.update s.todo t is, data := P.body t i s.data }
  | leave {t : τ} : s.todo t = [] → s.queue = [] → s.left t = false →
    P.Step s (.leave t) { s with left := Function.update s.left t true, data := P.leave t s.data }

variable {P : Loop τ ι D} {s s' : State τ ι D}

theorem Loop.next_iff {a : Act τ} : P.system.next s a = some s' ↔ P.Step s a s' := by
  constructor
  · intro h
    cases a with
    | take t =>
      simp only [system] at h
      split at h <;> cases h
      exact .take ‹_› ‹_›
    | exec t =>
      simp only [system] at h
      split at h <;> cases h
      exact .exec ‹_›
    | leave t =>
      simp only [system] at h
      split at h <;> cases h
      exact .leave ‹_› ‹_› ‹_›
  · intro h
    cases h with
    | take ht hq => simp [system, ht, hq]
    | exec ht => simp [system, ht]
    | leave ht hq hl => simp [system, ht, hq, hl]

/-! ## Every run ends -/

variable [Fintype τ]

/-- The steps that are left. -/
def remaining (s : State τ ι D) : ℕ :=
  s.queue.length + s.queue.flatten.length + total List.length s.todo + total (fun b => bif b then 0 else 1) s.left

theorem Loop.Step.remaining {a : Act τ} (h : P.Step s a s') : remaining s' + 1 = remaining s := by
  cases h with
  | @take t c cs ht hq =>
    have hu := total_update List.length s.todo t c
    rw [ht] at hu
    simp only [Team.remaining, hq, List.length_cons, List.flatten_cons, List.length_append] at hu ⊢
    simp only [List.length_nil] at hu
    omega
  | @exec t i is ht =>
    have hu := total_update List.length s.todo t is
    rw [ht, List.length_cons] at hu
    simp only [Team.remaining]
    omega
  | @leave t ht hq hl =>
    have hu := total_update (fun b : Bool => bif b then 0 else 1) s.left t true
    rw [hl] at hu
    simp only [cond_true, cond_false] at hu
    simp only [Team.remaining]
    omega

omit [Fintype τ] in
theorem Loop.ended_of_quiet (hq : ∀ a, P.system.next s a = none) : Ended s := by
  intro t
  have hno : ∀ {a s'}, ¬ P.Step s a s' := fun h => by
    cases (Loop.next_iff.mpr h).symm.trans (hq _)
  cases ht : s.todo t with
  | cons i is => exact (hno (.exec ht)).elim
  | nil =>
    cases hc : s.queue with
    | cons c cs => exact (hno (.take ht hc)).elim
    | nil =>
      by_contra hl
      exact hno (.leave ht hc (Bool.eq_false_of_not_eq_true hl))

/-- From each state a run leads to the end. -/
theorem Loop.exists_quiet (P : Loop τ ι D) (s : State τ ι D) :
    ∃ s', P.system.Path (fun _ _ => True) s s' ∧ ∀ a, P.system.next s' a = none := by
  induction hn : Team.remaining s using Nat.strong_induction_on generalizing s with
  | h n ih =>
    by_cases hq : ∀ a, P.system.next s a = none
    · exact ⟨s, .refl, hq⟩
    · push Not at hq
      obtain ⟨a, ha⟩ := hq
      obtain ⟨s₁, ha⟩ := Option.ne_none_iff_exists'.mp ha
      have hlt := (Loop.next_iff.mp ha).remaining
      obtain ⟨s', hp, he⟩ := ih (Team.remaining s₁) (by omega) s₁ rfl
      exact ⟨s', (System.Path.step .refl trivial ha).trans hp, he⟩

/-! ## Who runs what -/

def Loop.chunks (P : Loop τ ι D) : Multiset (List ι) := total (fun c => {c}) P.share + P.queue

def Loop.iterations (P : Loop τ ι D) : Multiset ι := (P.chunks.map fun c : List ι => (c : Multiset ι)).join

/-- The chunks that the threads have taken, and the iterations that they have
run. -/
structure Account (P : Loop τ ι D) (s : State τ ι D) (taken : τ → List (List ι)) (done : τ → List ι) : Prop where
  parts : ∀ t, done t ++ s.todo t = (taken t).flatten
  share : ∀ t, P.share t ∈ taken t
  chunks : total (fun cs : List (List ι) => (cs : Multiset (List ι))) taken + s.queue = P.chunks
  left : ∀ t, s.left t = true → s.todo t = [] ∧ s.queue = []

variable {taken : τ → List (List ι)} {done : τ → List ι}

theorem Account.start (P : Loop τ ι D) : Account P P.system.start (fun t => [P.share t]) fun _ => [] where
  parts t := by simp [Loop.system]
  share _ := List.mem_singleton_self _
  chunks := rfl
  left := nofun

theorem Account.take (h : Account P s taken done) {t : τ} {c : List ι} {cs : List (List ι)} (ht : s.todo t = [])
    (hq : s.queue = c :: cs) :
    Account P { s with queue := cs, todo := Function.update s.todo t c } (Function.update taken t (taken t ++ [c]))
      done where
  parts u := by
    dsimp only
    by_cases hu : u = t
    · subst hu
      have := h.parts u
      rw [ht, List.append_nil] at this
      simp [this]
    · simpa only [Function.update_of_ne hu] using h.parts u
  share u := by
    by_cases hu : u = t
    · subst hu
      rw [Function.update_self]
      exact List.mem_append_left _ (h.share u)
    · rw [Function.update_of_ne hu]
      exact h.share u
  chunks := by
    rw [← h.chunks, hq]
    have hu := total_update (fun cs : List (List ι) => (cs : Multiset (List ι))) taken t (taken t ++ [c])
    rw [← Multiset.coe_add, ← add_assoc, add_right_comm] at hu
    dsimp only
    rw [add_right_cancel hu, add_assoc, Multiset.coe_add]
    rfl
  left u hl := by
    have := (h.left u hl).2
    rw [hq] at this
    cases this

theorem Account.exec (h : Account P s taken done) {t : τ} {i : ι} {is : List ι} (ht : s.todo t = i :: is) (d : D) :
    Account P { s with todo := Function.update s.todo t is, data := d } taken
      (Function.update done t (done t ++ [i])) where
  parts u := by
    dsimp only
    by_cases hu : u = t
    · subst hu
      rw [Function.update_self, Function.update_self, List.append_assoc, List.singleton_append, ← ht]
      exact h.parts u
    · simpa only [Function.update_of_ne hu] using h.parts u
  share := h.share
  chunks := h.chunks
  left u hl := by
    dsimp only
    have hu : u ≠ t := by
      rintro rfl
      have := (h.left u hl).1
      rw [ht] at this
      cases this
    rw [Function.update_of_ne hu]
    exact h.left u hl

theorem Account.leave (h : Account P s taken done) {t : τ} (ht : s.todo t = []) (hq : s.queue = []) (d : D) :
    Account P { s with left := Function.update s.left t true, data := d } taken done where
  parts := h.parts
  share := h.share
  chunks := h.chunks
  left u hl := by
    by_cases hu : u = t
    · subst hu
      exact ⟨ht, hq⟩
    · dsimp only at hl
      rw [Function.update_of_ne hu] at hl
      exact h.left u hl

omit [DecidableEq τ] in
/-- The iterations that are run, or left. -/
theorem Account.iterations (h : Account P s taken done) :
    total (fun cs : List (List ι) => (cs.flatten : Multiset ι)) taken + s.queue.flatten = P.iterations := by
  have hjoin : ∀ cs : List (List ι), ((cs : Multiset (List ι)).map fun c : List ι => (c : Multiset ι)).join = cs.flatten :=
    fun cs => by rw [Multiset.map_coe, Multiset.coe_join]
  let φ : Multiset (List ι) →+ Multiset ι :=
    Multiset.sumAddMonoidHom.comp (Multiset.mapAddMonoidHom fun c : List ι => (c : Multiset ι))
  have hφ : ∀ cs : List (List ι), φ cs = cs.flatten := hjoin
  rw [Loop.iterations, ← h.chunks]
  change _ = φ _
  rw [map_add, hφ, total, total, map_sum]
  simp only [hφ]

omit [DecidableEq τ] in
theorem Loop.iterations_eq (P : Loop τ ι D) :
    P.iterations = total (fun is : List ι => (is : Multiset ι)) P.share + P.queue.flatten := by
  classical
  rw [← (Account.start P).iterations, total, total]
  simp only [List.flatten_singleton, system]

/-- An iteration that is left has not been run. -/
theorem Account.fresh (h : Account P s taken done) (hnd : P.iterations.Nodup) {t : τ} {i : ι} (hi : i ∈ s.todo t)
    (u : τ) : i ∉ done u := by
  classical
  intro hu
  have hle : total (fun cs : List (List ι) => cs.flatten.count i) taken ≤ 1 := by
    have hcount := Multiset.nodup_iff_count_le_one.mp hnd i
    rw [← h.iterations, Multiset.count_add, total, Multiset.count_sum'] at hcount
    simp only [Multiset.coe_count] at hcount
    exact (Nat.le_add_right _ _).trans hcount
  have hpart : ∀ u, (taken u).flatten.count i = (done u).count i + (s.todo u).count i := fun u => by
    rw [← h.parts u, List.count_append]
  have htodo := List.count_pos_iff.mpr hi
  have hdone := List.count_pos_iff.mpr hu
  -- the chunk is that of one thread
  have he : t = u := eq_of_total_le_one hle (by rw [hpart]; omega) (by rw [hpart]; omega)
  subst he
  have hone := (single_le_total (fun cs : List (List ι) => cs.flatten.count i) taken t).trans hle
  rw [hpart] at hone
  omega

/-- The invariant rule of loops: what holds of the iterations that the threads
have run, of the threads that have left, and of the data. -/
theorem Loop.inv {J : (τ → List ι) → (τ → Bool) → D → Prop} (hs : P.system.Reach s) (hnd : P.iterations.Nodup)
    (h₀ : J (fun _ => []) (fun _ => false) P.init)
    (hexec : ∀ {done left d t i}, J done left d → left t = false → (∀ u, i ∉ done u) →
      J (Function.update done t (done t ++ [i])) left (P.body t i d))
    (hleave : ∀ {done left d t}, J done left d → left t = false → J done (Function.update left t true) (P.leave t d)) :
    ∃ taken done, Account P s taken done ∧ J done s.left s.data := by
  refine hs.inv (I := fun s => ∃ taken done, Account P s taken done ∧ J done s.left s.data)
    ⟨_, _, .start P, h₀⟩ ?_
  rintro s a s' - - ha ⟨taken, done, hacc, hJ⟩
  cases Loop.next_iff.mp ha with
  | take ht hq => exact ⟨_, _, hacc.take ht hq, hJ⟩
  | @exec t i is ht =>
    have hl : s.left t = false := by
      by_contra hl
      have := (hacc.left t (Bool.eq_true_of_not_eq_false hl)).1
      rw [ht] at this
      cases this
    exact ⟨_, _, hacc.exec ht _, hexec hJ hl (hacc.fresh hnd (by rw [ht]; exact List.mem_cons_self))⟩
  | leave ht hq hl => exact ⟨_, _, hacc.leave ht hq _, hleave hJ hl⟩

omit [DecidableEq τ] in
/-- In the end each chunk has been run by one thread. -/
theorem Account.ended [Nonempty τ] (h : Account P s taken done) (hend : Ended s) :
    (∀ t, done t = (taken t).flatten) ∧ total (fun cs : List (List ι) => (cs : Multiset (List ι))) taken = P.chunks := by
  refine ⟨fun t => ?_, ?_⟩
  · rw [← h.parts t, (h.left t (hend t)).1, List.append_nil]
  · rw [← h.chunks, (h.left (Classical.arbitrary τ) (hend _)).2]
    exact (add_zero _).symm

omit [DecidableEq τ] in
theorem Account.done_le (h : Account P s taken done) :
    total (fun is : List ι => (is : Multiset ι)) done ≤ P.iterations := by
  rw [← h.iterations]
  refine le_add_right (Finset.sum_le_sum fun t _ => ?_)
  dsimp only
  rw [← h.parts t, ← Multiset.coe_add]
  exact Multiset.le_add_right _ _

omit [DecidableEq τ] in
theorem Account.done_eq [Nonempty τ] (h : Account P s taken done) (hend : Ended s) :
    total (fun is : List ι => (is : Multiset ι)) done = P.iterations := by
  rw [← h.iterations, (h.left (Classical.arbitrary τ) (hend _)).2]
  simp only [(h.ended hend).1, total, List.flatten_nil, Multiset.coe_nil, add_zero]

omit [DecidableEq τ] in
/-- Each chunk is one that a thread has taken. -/
theorem Account.exists_taken [Nonempty τ] (h : Account P s taken done) (hend : Ended s) {c : List ι} (hc : c ∈ P.chunks) :
    ∃ t, ∀ i ∈ c, i ∈ done t := by
  rw [← (h.ended hend).2, total, Multiset.mem_sum] at hc
  obtain ⟨t, -, ht⟩ := hc
  refine ⟨t, fun i hi => ?_⟩
  rw [(h.ended hend).1 t]
  exact List.mem_flatten.mpr ⟨c, Multiset.mem_coe.mp ht, hi⟩

/-! ## Reductions -/

variable {M : Type*} {op : M → M → M} {e init : M} {f : ι → M} {share : τ → List ι} {queue : List (List ι)}

/-- The private copies of a variable, and the variable itself. -/
structure Vars (τ M : Type*) where
  acc : τ → M
  result : M

/-- A reduction by `op`, whose private copies start with `e`. -/
def reduction (share : τ → List ι) (queue : List (List ι)) (op : M → M → M) (e init : M) (f : ι → M) :
    Loop τ ι (Vars τ M) where
  share := share
  queue := queue
  body t i d := { d with acc := Function.update d.acc t (op (d.acc t) (f i)) }
  leave t d := { d with result := op d.result (d.acc t) }
  init := { acc := fun _ => e, result := init }

/-- The iterations of a thread that has left. -/
def combined (p : Bool × List ι) : Multiset ι := bif p.1 then p.2 else 0

variable [Std.Commutative op] [Std.Associative op]

/-- In each state the copies and the variable are what `op` makes of the
iterations that have been run, and of those that have been combined. -/
theorem reduction_inv (he : op init e = init) {s : State τ ι (Vars τ M)}
    (hs : (reduction share queue op e init f).system.Reach s)
    (hnd : (reduction share queue op e init f).iterations.Nodup) :
    ∃ taken done, Account (reduction share queue op e init f) s taken done ∧
      (∀ t, s.data.acc t = ((done t : Multiset ι).map f).fold op e) ∧
      s.data.result = ((total combined fun t => (s.left t, done t)).map f).fold op init := by
  refine Loop.inv (J := fun done left d => (∀ t, d.acc t = ((done t : Multiset ι).map f).fold op e) ∧
    d.result = ((total combined fun t => (left t, done t)).map f).fold op init) hs hnd ⟨fun t => rfl, ?_⟩ ?_ ?_
  · simp [reduction, total, combined]
  · rintro done left d t i ⟨hacc, hres⟩ hl -
    refine ⟨fun u => ?_, ?_⟩
    · by_cases hu : u = t
      · subst hu
        rw [Function.update_self, ← Multiset.coe_add, add_comm, Multiset.map_add, Multiset.coe_singleton,
          Multiset.map_singleton, Multiset.singleton_add, Multiset.fold_cons_left, ← hacc u]
        simp only [reduction, Function.update_self]
        exact Std.Commutative.comm _ _
      · simp only [reduction, Function.update_of_ne hu]
        exact hacc u
    · refine hres.trans (congrArg (fun m : Multiset ι => (m.map f).fold op init) (total_congr fun u => ?_))
      by_cases hu : u = t
      · subst hu; simp only [combined, hl, cond_false]
      · rw [Function.update_of_ne hu]
  · rintro done left d t ⟨hacc, hres⟩ hl
    refine ⟨hacc, ?_⟩
    have hup : (fun u => (Function.update left t true u, done u)) =
        Function.update (fun u => (left u, done u)) t (true, done t) := by
      funext u
      by_cases hu : u = t
      · subst hu; simp
      · simp [hu]
    have hsum := total_update combined (fun u => (left u, done u)) t (true, done t)
    simp only [combined, hl, cond_false, cond_true, add_zero] at hsum
    rw [hup, hsum, Multiset.map_add, ← he, Multiset.fold_add, ← hacc t, he, ← hres]
    rfl

/-- The result does not depend on who runs which iterations, on the order, or on
the order in which the copies are combined. -/
theorem reduction_final [Nonempty τ] (he : op init e = init) {s : State τ ι (Vars τ M)}
    (hs : (reduction share queue op e init f).system.Reach s)
    (hnd : (reduction share queue op e init f).iterations.Nodup) (hend : Ended s) :
    s.data.result = ((reduction share queue op e init f).iterations.map f).fold op init := by
  obtain ⟨taken, done, hacc, -, hres⟩ := reduction_inv he hs hnd
  rw [hres, ← hacc.done_eq hend]
  refine congrArg (fun m : Multiset ι => (m.map f).fold op init) (Finset.sum_congr rfl fun t _ => ?_)
  simp only [combined, hend t, cond_true]

end TKH.Team
