import Mathlib.Algebra.Ring.Nat
import ThreadingKnowHows.Tree.Model

/-!
# What an observer sees of a run

Runs exclude each other, so that their increments are not interleaved and
`count_` is what the completed runs have counted and what the one in progress
has made so far (`Inv.count`). `count` does not lock: the value it reads may be
one from the middle of a run (`exact_iff`).
-/

namespace TKH.Tree

variable {τ : Type} [DecidableEq τ] [Fintype τ] {s s' : State τ} {a : Act τ}

/-- The increments of some runs. -/
def counted (rs : List (τ × ℕ)) : ℕ := (rs.map fun x => x.2 + 1).sum

omit [DecidableEq τ] [Fintype τ] in
theorem counted_append (rs rs' : List (τ × ℕ)) : counted (rs ++ rs') = counted rs + counted rs' := by
  simp [counted]

omit [DecidableEq τ] [Fintype τ] in
theorem counted_le {rs rs' : List (τ × ℕ)} (h : rs <+: rs') : counted rs ≤ counted rs' := by
  obtain ⟨rs'', rfl⟩ := h
  rw [counted_append]
  exact Nat.le_add_right _ _

omit [DecidableEq τ] [Fintype τ] in
theorem counted_take_succ {rs : List (τ × ℕ)} {i : ℕ} {x : τ × ℕ} (h : rs[i]? = some x) :
    counted (rs.take (i + 1)) = counted (rs.take i) + (x.2 + 1) := by
  rw [List.take_add_one, h, counted_append]
  simp [counted]

/-! ## The invariant -/

/-- The value is the right one for the moment of the read, and the run in
progress then is the next one to complete. -/
structure Reading.Ok (s : State τ) (r : Reading) : Prop where
  first_le : r.first ≤ r.atCompleted
  at_le : r.atCompleted ≤ s.completed.length
  value : r.value = counted (s.completed.take r.atCompleted) + r.made
  pending : 0 < r.made → s.completed.length = r.atCompleted →
    total Pc.made s.pc + total Pc.left s.pc = r.made + r.left
  next : 0 < r.made → ∀ x, s.completed[r.atCompleted]? = some x → x.2 + 1 = r.made + r.left

structure Inv (s : State τ) : Prop where
  held : ∀ t, s.m.held t = (s.pc t).level
  stack : ∀ {t f depth stack}, s.pc t = .recurse f depth stack → stack = List.range' (depth + 1) stack.length
  count : s.count = counted s.completed + total Pc.made s.pc
  first : ∀ {t first}, s.pc t = .count first → first ≤ s.completed.length
  reading : ∀ {t r}, s.pc t = .counted r → r.Ok s

theorem made_eq_zero {k : Pc} (h : k.level = 0) : k.made = 0 := by
  rcases k with _ | ⟨_ | _ | _, depth, stack⟩ | _ | _ <;> simp_all [Pc.level, Pc.made]

theorem left_eq_zero {k : Pc} (h : k.level = 0) : k.left = 0 := by
  rcases k with _ | ⟨_ | _ | _, depth, _ | ⟨_, _⟩⟩ | _ | _ <;> simp_all [Pc.level, Pc.left]

/-- At most one thread holds the mutex. -/
theorem Inv.level_unique (h : Inv s) {t u : τ} (ht : 0 < (s.pc t).level) (hu : 0 < (s.pc u).level) : t = u :=
  RecursiveMutex.held_unique (m := s.m) (by rwa [h.held]) (by rwa [h.held])

/-- While a thread holds the mutex, the run in progress is its own. -/
theorem Inv.total_made (h : Inv s) {t : τ} (ht : 0 < (s.pc t).level) : total Pc.made s.pc = (s.pc t).made :=
  total_eq_single fun _ hu => made_eq_zero (Nat.eq_zero_of_not_pos fun hp => hu (h.level_unique hp ht))

theorem Inv.total_left (h : Inv s) {t : τ} (ht : 0 < (s.pc t).level) : total Pc.left s.pc = (s.pc t).left :=
  total_eq_single fun _ hu => left_eq_zero (Nat.eq_zero_of_not_pos fun hp => hu (h.level_unique hp ht))

/-- The first call of `run` locks: nobody holds the mutex, so that no run is in
progress. -/
theorem Inv.idle_of_lock (h : Inv s) {t : τ} {depth : ℕ} {m : RecursiveMutex τ} (hpc : s.pc t = .recurse .lock depth [])
    (hm : s.m.lock t = some m) (u : τ) : (s.pc u).level = 0 := by
  by_cases hu : u = t
  · rw [hu, hpc]
    rfl
  · rw [← h.held]
    exact (RecursiveMutex.lock_spec hm).1 u hu

/-- The frame below the call of depth `depth` is the one that made it. -/
theorem Inv.caller (h : Inv s) {t : τ} {f : Frame} {depth caller : ℕ} {stack : List ℕ}
    (hpc : s.pc t = .recurse f depth (caller :: stack)) :
    caller = depth + 1 ∧ stack = List.range' (caller + 1) stack.length := by
  have hstack := h.stack hpc
  rw [List.length_cons, List.range'_succ, List.cons.injEq] at hstack
  obtain ⟨rfl, hstack⟩ := hstack
  exact ⟨rfl, hstack⟩

omit [DecidableEq τ] in
/-- What was read stays right while no run completes and none takes the place of
the one in progress. -/
theorem Reading.Ok.mono {r : Reading} (h : r.Ok s) (hc : s'.completed = s.completed)
    (ht : 0 < total Pc.made s.pc + total Pc.left s.pc →
      total Pc.made s'.pc + total Pc.left s'.pc = total Pc.made s.pc + total Pc.left s.pc) : r.Ok s' where
  first_le := h.first_le
  at_le := by rw [hc]; exact h.at_le
  value := by rw [hc]; exact h.value
  pending hm he := by
    have hp := h.pending hm (by rwa [hc] at he)
    rw [ht (by omega), hp]
  next hm x hx := h.next hm x (by rwa [hc] at hx)

omit [DecidableEq τ] in
/-- The run in progress completes. -/
theorem Reading.Ok.complete {r : Reading} (h : r.Ok s) {x : τ × ℕ} (hc : s'.completed = s.completed ++ [x])
    (ht : total Pc.made s.pc + total Pc.left s.pc = x.2 + 1) : r.Ok s' where
  first_le := h.first_le
  at_le := by rw [hc, List.length_append]; exact h.at_le.trans (Nat.le_add_right _ _)
  value := by rw [hc, List.take_append_of_le_length h.at_le]; exact h.value
  pending hm he := by
    have := h.at_le
    rw [hc, List.length_append, List.length_singleton] at he
    omega
  next hm y hy := by
    rw [hc] at hy
    rcases Nat.lt_or_ge r.atCompleted s.completed.length with hlt | hge
    · rw [List.getElem?_append_left hlt] at hy
      exact h.next hm y hy
    · have he : s.completed.length = r.atCompleted := Nat.le_antisymm hge h.at_le
      rw [List.getElem?_append_right hge, he, Nat.sub_self] at hy
      cases hy
      rw [← ht, h.pending hm he]

/-- A step of `t`, which goes on at `k`. -/
theorem Inv.move (h : Inv s) {t : τ} {k : Pc} {m : RecursiveMutex τ} {c : ℕ} {rs : List (τ × ℕ)}
    (hheld : m.held = Function.update s.m.held t k.level)
    (hstack : ∀ {f depth stack}, k = .recurse f depth stack → stack = List.range' (depth + 1) stack.length)
    (hcount : c = counted rs + total Pc.made (Function.update s.pc t k)) (hrs : s.completed <+: rs)
    (hfirst : ∀ {first}, k = .count first → first ≤ rs.length)
    (hreading : ∀ {r}, k = .counted r → r.Ok ⟨m, c, Function.update s.pc t k, rs⟩)
    (hold : ∀ {r : Reading}, r.Ok s → r.Ok ⟨m, c, Function.update s.pc t k, rs⟩) :
    Inv ⟨m, c, Function.update s.pc t k, rs⟩ := by
  -- a fact about where a thread is, that `t` has at `k`
  have hcases : ∀ {I : Pc → Prop}, I k → (∀ u, I (s.pc u)) → ∀ u, I (Function.update s.pc t k u) := by
    intro I hk hs
    exact (Function.forall_update_iff s.pc fun _ x => I x).mpr ⟨hk, fun u _ => hs u⟩
  refine ⟨fun u => ?_, fun {u f depth stack} hu => ?_, hcount, fun {u first} hu => ?_, fun {u r} hu => ?_⟩
  · simp only [hheld]
    by_cases hu : u = t
    · subst hu; simp only [Function.update_self]
    · simp only [Function.update_of_ne hu, h.held u]
  · exact hcases (I := fun x => x = .recurse f depth stack → stack = List.range' (depth + 1) stack.length)
      hstack (fun u => h.stack) u hu
  · exact hcases (I := fun x => x = .count first → first ≤ rs.length) hfirst
      (fun u hu => (h.first hu).trans hrs.length_le) u hu
  · exact hcases (I := fun x => x = .counted r → r.Ok _) hreading (fun u hu => hold (h.reading hu)) u hu

/-- A step of `t` that changes neither the mutex nor what has been counted. -/
theorem Inv.outside (h : Inv s) {t : τ} {k : Pc} (ht : (s.pc t).level = 0) (hk : k.level = 0)
    (hstack : ∀ {f depth stack}, k = .recurse f depth stack → stack = List.range' (depth + 1) stack.length)
    (hfirst : ∀ {first}, k = .count first → first ≤ s.completed.length)
    (hreading : ∀ {r}, k = .counted r → r.Ok s) : Inv (s.goto t k) := by
  have hmade : total Pc.made (Function.update s.pc t k) = total Pc.made s.pc :=
    total_update_eq (by rw [made_eq_zero hk, made_eq_zero ht])
  have hleft : total Pc.left (Function.update s.pc t k) = total Pc.left s.pc :=
    total_update_eq (by rw [left_eq_zero hk, left_eq_zero ht])
  have hold : ∀ {r : Reading}, r.Ok s → r.Ok (s.goto t k) := fun hr => hr.mono rfl fun _ =>
    congrArg₂ (· + ·) hmade hleft
  refine h.move ?_ hstack (by rw [hmade]; exact h.count) List.prefix_rfl hfirst (fun he => hold (hreading he)) hold
  rw [hk, ← ht, ← h.held, Function.update_eq_self]

/-- A step of `t` in its run: it makes what it had left to make. -/
theorem Inv.inside (h : Inv s) {t : τ} {f : Frame} {depth : ℕ} {stack : List ℕ} {m : RecursiveMutex τ} {c : ℕ}
    (hheld : m.held = Function.update s.m.held t (Pc.recurse f depth stack).level)
    (hstack : stack = List.range' (depth + 1) stack.length)
    (hcount : c + (s.pc t).made = s.count + (Pc.recurse f depth stack).made)
    (hsize : 0 < total Pc.made s.pc + total Pc.left s.pc →
      (Pc.recurse f depth stack).made + (Pc.recurse f depth stack).left = (s.pc t).made + (s.pc t).left) :
    Inv ({ s with m := m, count := c }.goto t (.recurse f depth stack)) := by
  have hmade := total_update Pc.made s.pc t (.recurse f depth stack)
  have hleft := total_update Pc.left s.pc t (.recurse f depth stack)
  have hc := h.count
  refine h.move hheld (fun he => by cases he; exact hstack) (by dsimp only; omega) List.prefix_rfl (fun he => by cases he)
    (fun he => by cases he) fun hr => hr.mono rfl fun hpos => ?_
  have hsize := hsize hpos
  simp only
  omega

theorem Step.inv (h : Step s a s') (hi : Inv s) : Inv s' := by
  cases h with
  | run hpc =>
    exact hi.outside (by rw [hpc]; rfl) rfl (fun he => by cases he; rfl) (fun he => by cases he) fun he => by cases he
  | count hpc =>
    exact hi.outside (by rw [hpc]; rfl) rfl (fun he => by cases he) (fun he => by cases he; exact le_rfl)
      fun he => by cases he
  | @lock t depth stack m hpc hm =>
    obtain ⟨-, hheld⟩ := RecursiveMutex.lock_spec hm
    rw [hi.held, hpc] at hheld
    refine hi.inside hheld (hi.stack hpc) (by rw [hpc]; rfl) fun hpos => ?_
    cases stack with
    | cons => rw [hpc]; rfl
    | nil =>
      have hnone := hi.idle_of_lock hpc hm
      have hmade : total Pc.made s.pc = 0 := total_eq_zero.mpr fun u => made_eq_zero (hnone u)
      have hleft : total Pc.left s.pc = 0 := total_eq_zero.mpr fun u => left_eq_zero (hnone u)
      omega
  | @nest t depth stack hpc =>
    have hstack := hi.stack hpc
    refine hi.inside ?_ ?_ ?_ fun _ => ?_
    · rw [show (Pc.recurse .lock depth ((depth + 1) :: stack)).level = (s.pc t).level by rw [hpc]; rfl, ← hi.held,
        Function.update_eq_self]
    · rw [List.length_cons, List.range'_succ, ← hstack]
    · rw [hpc]; simp only [Pc.made, List.length_cons]; omega
    · rw [hpc]; simp only [Pc.made, Pc.left, List.length_cons]; omega
  | @bottom t stack hpc =>
    refine hi.inside ?_ (hi.stack hpc) ?_ fun _ => ?_
    · rw [show (Pc.recurse .unlock 0 stack).level = (s.pc t).level by rw [hpc]; rfl, ← hi.held,
        Function.update_eq_self]
    · rw [hpc]; simp only [Pc.made]; omega
    · rw [hpc]; simp only [Pc.made, Pc.left]; omega
  | @unwind t depth caller stack m hpc hm =>
    obtain ⟨-, hheld⟩ := RecursiveMutex.unlock_spec hm
    obtain ⟨rfl, hstack⟩ := hi.caller hpc
    rw [hi.held, hpc] at hheld
    refine hi.inside hheld hstack ?_ fun _ => ?_
    · rw [hpc]; simp only [Pc.made, List.length_cons]; omega
    · rw [hpc]; simp only [Pc.made, Pc.left, List.length_cons]; omega
  | @finish t depth m hpc hm =>
    obtain ⟨-, hheld⟩ := RecursiveMutex.unlock_spec hm
    have hlevel : 0 < (s.pc t).level := by rw [hpc]; exact Nat.one_pos
    have hmade := hi.total_made hlevel
    have hleft := hi.total_left hlevel
    have hupdate := total_update Pc.made s.pc t .out
    have hc := hi.count
    rw [hi.held, hpc] at hheld
    simp only [hpc, Pc.made, Pc.left, List.length_nil] at hmade hleft hupdate
    refine hi.move hheld (fun he => by cases he) ?_ (List.prefix_append _ _) (fun he => by cases he)
      (fun he => by cases he) fun hr => hr.complete rfl (by simp only [hmade, hleft])
    rw [counted_append]
    simp only [counted, List.map_cons, List.map_nil, List.sum_cons, List.sum_nil] at hc ⊢
    omega
  | @read t first hpc =>
    refine hi.outside (by rw [hpc]; rfl) rfl (fun he => by cases he) (fun he => by cases he) fun he => ?_
    cases he
    refine ⟨hi.first hpc, le_rfl, ?_, fun _ _ => rfl, fun _ x hx => ?_⟩
    · simp only [State.read, List.take_length]
      exact hi.count
    · simp [State.read] at hx
  | ret hpc =>
    exact hi.outside (by rw [hpc]; rfl) rfl (fun he => by cases he) (fun he => by cases he) fun he => by cases he

theorem inv (h : (tree τ).Reach s) : Inv s := by
  refine h.inv (I := Inv) ⟨fun _ => rfl, fun hpc => (by cases hpc), ?_, fun hpc => (by cases hpc), fun hpc => (by cases hpc)⟩
    fun _ _ ha hi => (step_of_next ha).inv hi
  have hzero : total Pc.made (fun _ : τ => Pc.out) = 0 := total_eq_zero.mpr fun _ => rfl
  change 0 = 0 + total Pc.made (fun _ : τ => Pc.out)
  rw [hzero]

/-! ## The value that is returned -/

/-- A call of `count` returns the sum over the runs that had completed at some
moment during the call. -/
def Exact (s : State τ) : Act τ → Prop
  | .ret t => match s.pc t with
    | .counted r => ∃ i, i < s.completed.length + 1 ∧ r.first ≤ i ∧ counted (s.completed.take i) = r.value
    | _ => True
  | _ => True

/-- A call of `count` returns that has read when the run in progress, if any,
had made no increment, or had made all of them and has completed since. -/
def Calm (s : State τ) : Act τ → Prop
  | .ret t => match s.pc t with
    | .counted r => r.made = 0 ∨ (r.left = 0 ∧ r.atCompleted < s.completed.length)
    | _ => True
  | _ => True

instance (s : State τ) : ∀ a, Decidable (Defined s a)
  | .step t => match h : s.pc t with
    | .recurse .incr _ _ => decidable_of_iff (s.count + 1 < 2 ^ 31) (by simp only [Defined, h])
    | .recurse .lock _ _ | .recurse .unlock _ _ | .out | .count _ | .counted _ => isTrue (by simp [Defined, h])
  | .run _ _ | .count _ | .ret _ => isTrue trivial

instance (s : State τ) : ∀ a, Decidable (Calm s a)
  | .ret t => match h : s.pc t with
    | .counted r => decidable_of_iff (r.made = 0 ∨ (r.left = 0 ∧ r.atCompleted < s.completed.length))
        (by simp only [Calm, h])
    | .out | .recurse _ _ _ | .count _ => isTrue (by simp [Calm, h])
  | .run _ _ | .count _ | .step _ => isTrue trivial

instance (s : State τ) : ∀ a, Decidable (Exact s a)
  | .ret t => match h : s.pc t with
    | .counted r => decidable_of_iff
        (∃ i, i < s.completed.length + 1 ∧ r.first ≤ i ∧ counted (s.completed.take i) = r.value) (by simp only [Exact, h])
    | .out | .recurse _ _ _ | .count _ => isTrue (by simp [Exact, h])
  | .run _ _ | .count _ | .step _ => isTrue trivial

omit [DecidableEq τ] in
theorem Reading.Ok.exact_iff {r : Reading} (h : r.Ok s) :
    (∃ i, i < s.completed.length + 1 ∧ r.first ≤ i ∧ counted (s.completed.take i) = r.value) ↔
      r.made = 0 ∨ (r.left = 0 ∧ r.atCompleted < s.completed.length) := by
  have hfirst := h.first_le
  have hat := h.at_le
  have hvalue := h.value
  constructor
  · rintro ⟨i, hi, -, he⟩
    by_contra hn
    push Not at hn
    rcases Nat.lt_or_ge r.atCompleted i with hlt | hge
    · -- a moment after the read: the run that was in progress has completed
      obtain ⟨x, hx⟩ : ∃ x, s.completed[r.atCompleted]? = some x := ⟨_, List.getElem?_eq_getElem (by omega)⟩
      have hnext := h.next (Nat.pos_of_ne_zero hn.1) x hx
      have hle := counted_le (List.take_prefix_take_left (l := s.completed) (show r.atCompleted + 1 ≤ i from hlt))
      rw [counted_take_succ hx] at hle
      have := hn.2
      omega
    · have hle := counted_le (List.take_prefix_take_left (l := s.completed) hge)
      omega
  · rintro (hmade | ⟨hleft, hlt⟩)
    · exact ⟨r.atCompleted, by omega, hfirst, by omega⟩
    · by_cases hmade : r.made = 0
      · exact ⟨r.atCompleted, by omega, hfirst, by omega⟩
      · obtain ⟨x, hx⟩ : ∃ x, s.completed[r.atCompleted]? = some x := ⟨_, List.getElem?_eq_getElem hlt⟩
        have hnext := h.next (Nat.pos_of_ne_zero hmade) x hx
        exact ⟨r.atCompleted + 1, by omega, by omega, by rw [counted_take_succ hx]; omega⟩

theorem exact_iff (h : (tree τ).Reach s) : Exact s a ↔ Calm s a := by
  cases a with
  | ret t =>
    simp only [Exact, Calm]
    split
    · exact ((inv h).reading ‹_›).exact_iff
    · exact Iff.rfl
  | run | count | step => exact Iff.rfl

/-! ## The runs -/

inductive Event
  | incr
  /-- `run(depth)` returns. -/
  | done (depth : ℕ)

/-- Increments and returns of `run`. -/
def events (s : State τ) : Act τ → List (τ × Event)
  | .step t => match s.pc t with
    | .recurse .incr _ _ => [(t, .incr)]
    | .recurse .unlock depth [] => [(t, .done depth)]
    | _ => []
  | _ => []

/-- The calls of `run`. -/
def runs (_ : State τ) : Act τ → List (τ × ℕ)
  | .run t depth => [(t, depth)]
  | _ => []

/-- A run from its first increment to its return. -/
def block (x : τ × ℕ) : List (τ × Event) := List.replicate (x.2 + 1) (x.1, .incr) ++ [(x.1, .done x.2)]

/-- When a run returns the mutex is free. -/
def Frees (s : State τ) (a : Act τ) : Prop :=
  ∀ t depth, (t, Event.done depth) ∈ events s a → ∀ s', (tree τ).next s a = some s' → s'.m.owner = none

theorem frees (h : (tree τ).Reach s) : Frees s a := by
  intro t depth hmem s' ha
  have hi := inv h
  cases step_of_next ha with
  | @finish u depth' m hpc hm =>
    obtain ⟨hpos, hheld⟩ := RecursiveMutex.unlock_spec hm
    refine RecursiveMutex.owner_eq_none_iff.mpr fun v => ?_
    simp only [State.goto, hheld]
    by_cases hv : v = u
    · subst hv
      rw [Function.update_self, hi.held, hpc]
      rfl
    · rw [Function.update_of_ne hv]
      by_contra hne
      exact hv (RecursiveMutex.held_unique (Nat.pos_of_ne_zero hne) hpos)
  | run | count | ret => cases hmem
  | lock hpc | nest hpc | bottom hpc | unwind hpc | read hpc => simp [events, hpc] at hmem

/-- The increments of the run in progress, or none. -/
structure Open (s : State τ) (es : List (τ × Event)) : Prop where
  inside : ∀ t, 0 < (s.pc t).level → es = List.replicate (s.pc t).made (t, .incr)
  outside : (∀ t, (s.pc t).level = 0) → es = []

omit [Fintype τ] in
/-- A step that moves `t` from outside the mutex to outside. -/
theorem Open.outside_step {es : List (τ × Event)} (h : Open s es) {t : τ} {k : Pc} (ht : (s.pc t).level = 0)
    (hk : k.level = 0) : Open (s.goto t k) es where
  inside u hu := by
    simp only [State.goto] at hu ⊢
    by_cases hut : u = t
    · subst hut
      rw [Function.update_self, hk] at hu
      exact absurd hu (Nat.lt_irrefl 0)
    · rw [Function.update_of_ne hut] at hu ⊢
      exact h.inside u hu
  outside hout := h.outside fun u => by
    by_cases hut : u = t
    · rw [hut, ht]
    · have := hout u
      simp only [State.goto] at this
      rwa [Function.update_of_ne hut] at this

/-- A step of `t` in its run. -/
theorem Open.of_inside {es : List (τ × Event)} (hi : Inv s) {t : τ} (ht : 0 < (s.pc t).level)
    (he : es = List.replicate (s.pc t).made (t, .incr)) : Open s es where
  inside u hu := by rw [hi.level_unique hu ht]; exact he
  outside hout := by
    rw [hout t] at ht
    exact absurd ht (Nat.lt_irrefl 0)

variable {as : List (Act τ)}

/-- The increments of different runs are not interleaved. -/
theorem contiguous (hr : (tree τ).run (tree τ).start as = some s) :
    ∃ es, (tree τ).trace events (tree τ).start as = s.completed.flatMap block ++ es ∧ Open s es := by
  refine System.trace_inv (I := fun all s => ∃ es, all = s.completed.flatMap block ++ es ∧ Open s es) hr
    (System.along_true _ _) ⟨[], rfl, fun t ht => absurd ht (Nat.lt_irrefl 0), fun _ => rfl⟩ ?_
  rintro all s a s' hp _ ha ⟨es, rfl, ho⟩
  have hi := inv hp
  have hstep := step_of_next ha
  have hi' := hstep.inv hi
  cases hstep with
  | run hpc | count hpc | read hpc | ret hpc =>
    exact ⟨es, by simp [events, hpc, State.goto], ho.outside_step (by rw [hpc]; rfl) rfl⟩
  | @lock t depth stack m hpc hm =>
    refine ⟨es, by simp [events, hpc, State.goto], Open.of_inside hi' (t := t) ?_ ?_⟩
    · simp [State.goto, Pc.level]
    · cases stack with
      | cons caller stack =>
        rw [ho.inside t (by rw [hpc]; exact Nat.succ_pos _), hpc]
        simp [State.goto, Pc.made]
      | nil =>
        -- the run begins
        rw [ho.outside (hi.idle_of_lock hpc hm)]
        simp [State.goto, Pc.made]
  | @nest t depth stack hpc | @bottom t stack hpc =>
    refine ⟨es ++ [(t, .incr)], by simp [events, hpc, State.goto], Open.of_inside hi' (t := t) ?_ ?_⟩
    · simp [State.goto, Pc.level]
    · rw [ho.inside t (by rw [hpc]; exact Nat.succ_pos _), hpc]
      simp [State.goto, Pc.made, List.replicate_succ']
  | @unwind t depth caller stack m hpc hm =>
    obtain ⟨rfl, -⟩ := hi.caller hpc
    refine ⟨es, by simp [events, hpc, State.goto], Open.of_inside hi' (t := t) ?_ ?_⟩
    · simp [State.goto, Pc.level]
    · rw [ho.inside t (by rw [hpc]; exact Nat.succ_pos _), hpc]
      simp only [State.goto, Function.update_self, Pc.made, List.length_cons]
      congr 1
      omega
  | @finish t depth m hpc hm =>
    have hfree := frees hp t depth (by simp [events, hpc]) _ ha
    refine ⟨[], ?_, ?_⟩
    · rw [ho.inside t (by rw [hpc]; exact Nat.one_pos), hpc]
      simp [events, hpc, State.goto, Pc.made, block]
    · have hlevel := RecursiveMutex.owner_eq_none_iff.mp hfree
      refine ⟨fun u hu => ?_, fun _ => rfl⟩
      rw [← hi'.held, hlevel u] at hu
      exact absurd hu (Nat.lt_irrefl 0)

/-- The runs of a thread have completed, but for the one it is in. -/
theorem journal_runs (hr : (tree τ).run (tree τ).start as = some s) (u : τ) :
    journal u ((tree τ).trace runs (tree τ).start as) = journal u s.completed ++ (s.pc u).running := by
  refine System.trace_inv (I := fun es s => journal u es = journal u s.completed ++ (s.pc u).running) hr
    (System.along_true _ _) rfl ?_
  intro es s a s' hp _ ha ih
  have hi := inv hp
  rw [journal_append, ih]
  -- `t` goes on to `k`, and calls `run` with what is `new`
  have hgo : ∀ (t : τ) (k : Pc) (new : List ℕ), k.running = (s.pc t).running ++ new →
      journal u s.completed ++ (s.pc u).running ++ journal u (new.map (Prod.mk t)) =
        journal u s.completed ++ (Function.update s.pc t k u).running := by
    intro t k new hk
    by_cases hu : u = t
    · subst hu
      rw [journal_self, Function.update_self, hk, List.append_assoc]
    · rw [journal_of_ne hu, Function.update_of_ne hu, List.append_nil]
  cases step_of_next ha with
  | @run t depth hpc => exact hgo t _ [depth] (by rw [hpc]; rfl)
  | @unwind t depth caller stack m hpc hm =>
    obtain ⟨rfl, -⟩ := hi.caller hpc
    refine hgo t _ [] ?_
    simp only [hpc, Pc.running, List.length_cons, List.append_nil]
    congr 1
    omega
  | @nest t depth stack hpc =>
    refine hgo t _ [] ?_
    simp only [hpc, Pc.running, List.length_cons, List.append_nil]
    congr 1
    omega
  | @finish t depth m hpc hm =>
    by_cases hu : u = t
    · subst hu
      simp [runs, State.goto, journal, hpc, Pc.running]
    · simp [runs, State.goto, journal, Function.update_of_ne hu, Ne.symm hu]
  | @count t hpc | @lock t _ _ _ hpc _ | @bottom t _ hpc | @read t _ hpc | @ret t _ hpc =>
    exact hgo t _ [] (by rw [hpc]; rfl)

/-- When no run is in progress `count_` is the sum over all runs. -/
theorem count_of_idle (hr : (tree τ).run (tree τ).start as = some s) (hidle : ∀ t, (s.pc t).running = []) :
    s.count = counted ((tree τ).trace runs (tree τ).start as) := by
  have hi := inv (System.reach_of_run hr)
  have hmade : total Pc.made s.pc = 0 := total_eq_zero.mpr fun t => by
    have := hidle t
    cases hk : s.pc t with
    | recurse => rw [hk] at this; cases this
    | out | count | counted => rfl
  have hjournal : ∀ t, journal t ((tree τ).trace runs (tree τ).start as) = journal t s.completed := fun t => by
    rw [journal_runs hr, hidle, List.append_nil]
  have hcoe : (((tree τ).trace runs (tree τ).start as : List (τ × ℕ)) : Multiset (τ × ℕ)) = s.completed :=
    le_antisymm (coe_le_of_journal fun t => by rw [hjournal]) (coe_le_of_journal fun t => by rw [hjournal])
  rw [hi.count, hmade, Nat.add_zero, counted, counted]
  exact ((Multiset.coe_eq_coe.mp hcoe).map _).sum_eq.symm

/-- Runs are atomic and are counted, but `count` returns the sum over those that
have completed exactly if it does not read in the middle of one. -/
theorem run_atomic_iff (hr : (tree τ).run (tree τ).start as = some s) :
    ((tree τ).Along Frees (tree τ).start as ∧
      (∃ es, (tree τ).trace events (tree τ).start as = s.completed.flatMap block ++ es ∧ Open s es) ∧
      ((∀ t, (s.pc t).running = []) → s.count = counted ((tree τ).trace runs (tree τ).start as)) ∧
      (tree τ).Along Exact (tree τ).start as ∧ (tree τ).Along Defined (tree τ).start as) ↔
    (tree τ).Along Calm (tree τ).start as ∧ (tree τ).Along Defined (tree τ).start as := by
  have hfrees : (tree τ).Along Frees (tree τ).start as :=
    (System.along_congr (fun _ _ hp => iff_true_intro (frees hp)) hr).mpr (System.along_true _ _)
  rw [System.along_congr (fun _ _ hp => exact_iff hp) hr]
  constructor
  · rintro ⟨-, -, -, hcalm, hdef⟩
    exact ⟨hcalm, hdef⟩
  · rintro ⟨hcalm, hdef⟩
    exact ⟨hfrees, contiguous hr, count_of_idle hr, hcalm, hdef⟩

/-- A call of `count` that reads between the last increment of a run and its
return, and that returns after it. -/
def overlapping : List (Act Bool) :=
  [.run false 1, .step false, .step false, .step false, .step false, .count true, .step true, .step false, .step false,
    .ret true]

theorem run_atomic_overlapping : ∃ s, (tree Bool).run (tree Bool).start overlapping = some s ∧
    s.count = counted ((tree Bool).trace runs (tree Bool).start overlapping) ∧
    (tree Bool).Along Exact (tree Bool).start overlapping := by
  have hr : ((tree Bool).run (tree Bool).start overlapping).any (fun s => decide (∀ t, (s.pc t).running = [])) = true := by
    decide
  obtain ⟨s, hs, hp⟩ := System.exists_of_run hr
  obtain ⟨-, -, hcount, hexact, -⟩ := (run_atomic_iff hs).mpr ⟨by decide, by decide⟩
  exact ⟨s, hs, hcount (of_decide_eq_true hp), hexact⟩

/-- `count` reads after the first of two increments, and returns 1. -/
def torn : List (Act Bool) := [.run false 1, .step false, .step false, .count true, .step true, .ret true]

theorem count_torn : ∃ s, (tree Bool).run (tree Bool).start torn = some s ∧
    ¬ (tree Bool).Along Exact (tree Bool).start torn := by
  have hr : ((tree Bool).run (tree Bool).start torn).any (fun _ => true) = true := by decide
  obtain ⟨s, hs, -⟩ := System.exists_of_run hr
  exact ⟨s, hs, by decide⟩

end TKH.Tree
