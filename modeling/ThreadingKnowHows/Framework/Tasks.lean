import Mathlib.Data.List.Nodup
import Mathlib.Logic.Function.Basic
import ThreadingKnowHows.Framework.Trace

/-!
# Tasks

A task may create other tasks and wait for those it has created (`taskwait`).
The threads of a team run the tasks: any of them may start a task at any time
after its creation, also at once the one that has created it, and goes on with
any of the tasks that it has started. What task `p` does at a control point `l`
is the command `code p l`; the `i`-th task that `p` creates is `i :: p`.

A task waits only for tasks that start later than it does. So of the tasks that
have started and are not complete the last one can go on, or waits for a task
that has not started (`exists_step`). This does not need that the threads are
many, nor that they choose freely between their tasks: the steps it finds are
`Scheduled`, and keep the rule for tied tasks if all steps before did
(`tied_of_scheduled`).
-/

namespace TKH

abbrev TaskId := List ℕ

namespace Tasks

/-- The next command of a task, and where it goes on. -/
inductive Cmd (D L : Type*)
  /-- Read and write the shared data, if this is defined. -/
  | act (f : D → Option (D × L))
  /-- Create a task that begins at `child`. -/
  | create (child k : L)
  /-- Wait for the tasks that this one has created. -/
  | taskwait (k : L)
  | complete

inductive Phase
  | created
  | started
  | complete
  deriving DecidableEq

structure Task (L : Type*) where
  phase : Phase
  point : L
  /-- How many tasks it has created. -/
  children : ℕ

structure State (τ D L : Type*) where
  data : D
  task : TaskId → Option (Task L)
  /-- The tasks that a thread has started and not completed, the last one first. -/
  own : τ → List TaskId

structure Program (D L : Type*) where
  code : TaskId → L → Cmd D L
  /-- Where the first task begins. -/
  entry : L
  init : D

inductive Act (τ : Type*)
  /-- `t` starts the task `p`. -/
  | start (t : τ) (p : TaskId)
  /-- The next command of `p`, a task that `t` has started. -/
  | exec (t : τ) (p : TaskId)

variable {τ D L : Type*}

namespace State

variable (s : State τ D L)

def put (p : TaskId) (T : Task L) : State τ D L := { s with task := Function.update s.task p (some T) }

def phase (p : TaskId) : Option Phase := (s.task p).map Task.phase

def children (p : TaskId) : ℕ := (s.task p).elim 0 Task.children

def isComplete (p : TaskId) : Bool := s.phase p = some .complete

/-- The task exists and is not complete. -/
def Unfinished (p : TaskId) : Prop := s.phase p = some .created ∨ s.phase p = some .started

end State

namespace Program

variable (P : Program D L)

/-- The task `p` of the thread `t` takes its next command. -/
def exec [DecidableEq τ] (s : State τ D L) (t : τ) (p : TaskId) (T : Task L) : Option (State τ D L) :=
  match P.code p T.point with
  | .act f => (f s.data).map fun (d, k) => { s with data := d }.put p { T with point := k }
  | .create child k =>
    some ((s.put (T.children :: p) ⟨.created, child, 0⟩).put p { T with point := k, children := T.children + 1 })
  | .taskwait k => if ∀ i < T.children, s.isComplete (i :: p) = true then some (s.put p { T with point := k }) else none
  | .complete =>
    some { s.put p { T with phase := .complete } with own := Function.update s.own t ((s.own t).erase p) }

def next [DecidableEq τ] (s : State τ D L) : Act τ → Option (State τ D L)
  | .start t p => match s.task p with
    | some T =>
      if T.phase = .created then
        some { s.put p { T with phase := .started } with own := Function.update s.own t (p :: s.own t) }
      else none
    | none => none
  | .exec t p => if p ∈ s.own t then (s.task p).bind fun T => P.exec s t p T else none

variable (τ) in
/-- At first the threads are idle and there is one task. -/
def system [DecidableEq τ] : System (State τ D L) (Act τ) where
  start := { data := P.init, task := Function.update (fun _ => none) [] (some ⟨.created, P.entry, 0⟩), own := fun _ => [] }
  next := P.next

/-- The steps of `next`. -/
inductive Step [DecidableEq τ] (s : State τ D L) : Act τ → State τ D L → Prop
  | start {t : τ} {p : TaskId} {T : Task L} : s.task p = some T → T.phase = .created →
    Step s (.start t p) { s.put p { T with phase := .started } with own := Function.update s.own t (p :: s.own t) }
  | act {t : τ} {p : TaskId} {T : Task L} {f : D → Option (D × L)} {d : D} {k : L} :
    p ∈ s.own t → s.task p = some T → P.code p T.point = .act f → f s.data = some (d, k) →
    Step s (.exec t p) ({ s with data := d }.put p { T with point := k })
  | create {t : τ} {p : TaskId} {T : Task L} {child k : L} :
    p ∈ s.own t → s.task p = some T → P.code p T.point = .create child k →
    Step s (.exec t p)
      ((s.put (T.children :: p) ⟨.created, child, 0⟩).put p { T with point := k, children := T.children + 1 })
  | taskwait {t : τ} {p : TaskId} {T : Task L} {k : L} :
    p ∈ s.own t → s.task p = some T → P.code p T.point = .taskwait k →
    (∀ i < T.children, s.isComplete (i :: p) = true) → Step s (.exec t p) (s.put p { T with point := k })
  | complete {t : τ} {p : TaskId} {T : Task L} :
    p ∈ s.own t → s.task p = some T → P.code p T.point = .complete →
    Step s (.exec t p)
      { s.put p { T with phase := .complete } with own := Function.update s.own t ((s.own t).erase p) }

variable {P} [DecidableEq τ] {s s' : State τ D L}

theorem step_of_next {a : Act τ} (h : P.next s a = some s') : P.Step s a s' := by
  cases a with
  | start t p =>
    simp only [next] at h
    split at h
    · split at h <;> cases h
      exact .start ‹_› ‹_›
    · cases h
  | exec t p =>
    simp only [next] at h
    split at h
    · obtain ⟨T, hT, hx⟩ := Option.bind_eq_some_iff.mp h
      simp only [exec] at hx
      split at hx
      · obtain ⟨⟨d, k⟩, hf, rfl⟩ := Option.map_eq_some_iff.mp hx
        exact .act ‹_› hT ‹_› hf
      · cases hx
        exact .create ‹_› hT ‹_›
      · split at hx <;> cases hx
        exact .taskwait ‹_› hT ‹_› ‹_›
      · cases hx
        exact .complete ‹_› hT ‹_›
    · cases h

theorem Step.next {a : Act τ} (h : P.Step s a s') : P.next s a = some s' := by
  cases h with
  | start hT hp => simp [Program.next, hT, hp]
  | act hp hT hc hf => simp [Program.next, exec, hp, hT, hc, hf]
  | create hp hT hc | complete hp hT hc => simp [Program.next, exec, hp, hT, hc]
  | taskwait hp hT hc hall =>
    simp only [Program.next, if_pos hp, hT, Option.bind_some, exec, hc]
    exact if_pos hall

end Program

/-! ## Where the tasks are -/

variable {s s' : State τ D L}

theorem phase_of_put {p : TaskId} {T : Task L} (h : s'.task = Function.update s.task p (some T)) :
    s'.phase = Function.update s.phase p (some T.phase) := by
  refine Function.eq_update_iff.mpr ⟨?_, fun q hq => ?_⟩
  · rw [State.phase, h, Function.update_self, Option.map_some]
  · rw [State.phase, h, Function.update_of_ne hq, State.phase]

theorem children_of_put {p : TaskId} {T : Task L} (h : s'.task = Function.update s.task p (some T)) :
    s'.children = Function.update s.children p T.children := by
  refine Function.eq_update_iff.mpr ⟨?_, fun q hq => ?_⟩
  · rw [State.children, h, Function.update_self, Option.elim_some]
  · rw [State.children, h, Function.update_of_ne hq, State.children]

theorem phase_of_task {p : TaskId} {T : Task L} (h : s.task p = some T) : s.phase p = some T.phase := by
  rw [State.phase, h, Option.map_some]

theorem children_of_task {p : TaskId} {T : Task L} (h : s.task p = some T) : s.children p = T.children := by
  rw [State.children, h, Option.elim_some]

theorem exists_task {p : TaskId} {x : Phase} (h : s.phase p = some x) : ∃ T, s.task p = some T ∧ T.phase = x :=
  Option.map_eq_some_iff.mp h

theorem child_ne (i : ℕ) (p : TaskId) : i :: p ≠ p := fun h => by simpa using congrArg List.length h

variable [DecidableEq τ]

/-- What a step does, but for the data and where in its code a task is. -/
inductive Control (s s' : State τ D L) : Act τ → Prop
  | start {t : τ} {p : TaskId} : s.phase p = some .created → s'.phase = Function.update s.phase p (some .started) →
    s'.children = s.children → s'.own = Function.update s.own t (p :: s.own t) → Control s s' (.start t p)
  | go {t : τ} {p : TaskId} : s'.phase = s.phase → s'.children = s.children → s'.own = s.own → Control s s' (.exec t p)
  | create {t : τ} {p : TaskId} : p ∈ s.own t →
    s'.phase = Function.update s.phase (s.children p :: p) (some .created) →
    s'.children = Function.update (Function.update s.children (s.children p :: p) 0) p (s.children p + 1) →
    s'.own = s.own → Control s s' (.exec t p)
  | complete {t : τ} {p : TaskId} : p ∈ s.own t → s'.phase = Function.update s.phase p (some .complete) →
    s'.children = s.children → s'.own = Function.update s.own t ((s.own t).erase p) → Control s s' (.exec t p)

theorem Program.Step.control {P : Program D L} {a : Act τ} (h : P.Step s a s') : Control s s' a := by
  -- a task that only goes on
  have hgo : ∀ {t p} {T : Task L} {k : L} {d : D}, s.task p = some T →
      Control s ({ s with data := d }.put p { T with point := k }) (.exec t p) := by
    intro t p T k d hT
    refine .go ?_ ?_ rfl
    · rw [phase_of_put (s := s) rfl, ← phase_of_task hT, Function.update_eq_self]
    · rw [children_of_put (s := s) rfl, ← children_of_task hT, Function.update_eq_self]
  cases h with
  | @start t p T hT hp =>
    refine .start (by rw [phase_of_task hT, hp]) (phase_of_put (T := { T with phase := .started }) rfl) ?_ rfl
    rw [children_of_put (s := s) rfl, ← children_of_task hT, Function.update_eq_self]
  | act _ hT | taskwait _ hT => exact hgo hT
  | @create t p T child k hp hT hc =>
    have hne : p ≠ s.children p :: p := (child_ne _ p).symm
    rw [← children_of_task hT]
    refine .create hp ?_ ?_ rfl
    · rw [phase_of_put (s := s.put (s.children p :: p) ⟨.created, child, 0⟩) rfl, phase_of_put (s := s) rfl]
      refine Function.update_eq_self_iff.mpr ?_
      rw [Function.update_of_ne hne, phase_of_task hT]
    · rw [children_of_put (s := s.put (s.children p :: p) ⟨.created, child, 0⟩) rfl, children_of_put (s := s) rfl]
  | @complete t p T hp hT hc =>
    refine .complete hp (phase_of_put (T := { T with phase := .complete }) rfl) ?_ rfl
    rw [children_of_put (s := s) rfl, ← children_of_task hT, Function.update_eq_self]

structure Inv (s : State τ D L) : Prop where
  child : ∀ {p i}, s.phase (i :: p) ≠ none ↔ i < s.children p
  parent : ∀ {p}, 0 < s.children p → s.phase p = some .started ∨ s.phase p = some .complete
  running : ∀ {p}, s.phase p = some .started ↔ ∃ t, p ∈ s.own t
  nodup : ∀ t, (s.own t).Nodup
  apart : ∀ {t u p}, p ∈ s.own t → p ∈ s.own u → t = u

omit [DecidableEq τ] in
/-- The next task that `p` creates is new. -/
theorem Inv.fresh (h : Inv s) (p : TaskId) : s.phase (s.children p :: p) = none := by
  by_contra hn
  exact Nat.lt_irrefl _ (h.child.mp hn)

omit [DecidableEq τ] in
theorem Inv.task_fresh (h : Inv s) {p : TaskId} {T : Task L} (hT : s.task p = some T) : s.task (T.children :: p) = none :=
  Option.map_eq_none_iff.mp (children_of_task hT ▸ h.fresh p)

omit [DecidableEq τ] in
/-- A task that a thread has is started. -/
theorem Inv.started (h : Inv s) {t : τ} {p : TaskId} {T : Task L} (hp : p ∈ s.own t) (hT : s.task p = some T) :
    T.phase = .started :=
  Option.some.inj ((phase_of_task hT).symm.trans (h.running.mpr ⟨t, hp⟩))

theorem mem_start {t u : τ} {p q : TaskId} (hs' : s'.own = Function.update s.own t (p :: s.own t)) :
    q ∈ s'.own u ↔ q ∈ s.own u ∨ (q = p ∧ u = t) := by
  rw [hs']
  by_cases hu : u = t
  · subst hu; simp [or_comm]
  · simp [hu]

theorem Inv.mem_complete (h : Inv s) {t u : τ} {p q : TaskId} (hp : p ∈ s.own t)
    (hs' : s'.own = Function.update s.own t ((s.own t).erase p)) : q ∈ s'.own u ↔ q ∈ s.own u ∧ q ≠ p := by
  rw [hs']
  by_cases hu : u = t
  · subst hu
    rw [Function.update_self, (h.nodup u).mem_erase_iff, and_comm]
  · rw [Function.update_of_ne hu]
    refine ⟨fun hq => ⟨hq, fun he => hu ?_⟩, And.left⟩
    subst he
    exact h.apart hq hp

theorem update_phase_eq_none {f : TaskId → Option Phase} {p q : TaskId} {x : Phase} (hp : f p ≠ none) :
    Function.update f p (some x) q ≠ none ↔ f q ≠ none := by
  by_cases hq : q = p
  · subst hq; simp [hp]
  · rw [Function.update_of_ne hq]

theorem Inv.start (h : Inv s) {t : τ} {p : TaskId} (hp : s.phase p = some .created)
    (hphase : s'.phase = Function.update s.phase p (some .started)) (hchildren : s'.children = s.children)
    (hown : s'.own = Function.update s.own t (p :: s.own t)) : Inv s' := by
  have hnot : ∀ u, p ∉ s.own u := fun u hu => by
    cases hp.symm.trans (h.running.mpr ⟨u, hu⟩)
  have hmem : ∀ {u q}, q ∈ s'.own u ↔ q ∈ s.own u ∨ (q = p ∧ u = t) := mem_start hown
  refine ⟨fun {q i} => ?_, fun {q} hq => ?_, fun {q} => ?_, fun u => ?_, fun {u v q} hu hv => ?_⟩
  · rw [hphase, hchildren, update_phase_eq_none (by simp [hp])]
    exact h.child
  · rw [hchildren] at hq
    have hparent := h.parent hq
    by_cases he : q = p
    · subst he; simp [hp] at hparent
    · rwa [hphase, Function.update_of_ne he]
  · simp only [hmem, hphase]
    by_cases he : q = p
    · subst he; simp
    · simp [he, h.running]
  · rw [hown]
    by_cases hu : u = t
    · subst hu
      rw [Function.update_self]
      exact List.nodup_cons.mpr ⟨hnot u, h.nodup u⟩
    · rw [Function.update_of_ne hu]
      exact h.nodup u
  · rcases hmem.mp hu with hu | ⟨rfl, rfl⟩
    · rcases hmem.mp hv with hv | ⟨rfl, -⟩
      · exact h.apart hu hv
      · exact absurd hu (hnot u)
    · rcases hmem.mp hv with hv | ⟨-, rfl⟩
      · exact absurd hv (hnot v)
      · rfl

omit [DecidableEq τ] in
theorem Inv.create (h : Inv s) {t : τ} {p : TaskId} (hown : p ∈ s.own t)
    (hphase : s'.phase = Function.update s.phase (s.children p :: p) (some .created))
    (hchildren : s'.children = Function.update (Function.update s.children (s.children p :: p) 0) p (s.children p + 1))
    (hsame : s'.own = s.own) : Inv s' := by
  have hp : s.phase p = some .started := h.running.mpr ⟨t, hown⟩
  -- the new task has no children
  have hnew := h.fresh p
  have hzero : s.children (s.children p :: p) = 0 := by
    by_contra hn
    rcases h.parent (Nat.pos_of_ne_zero hn) with he | he <;> simp [hnew] at he
  have hchildren' : ∀ q, s'.children q = if q = p then s.children p + 1 else s.children q := fun q => by
    rw [hchildren]
    by_cases hq : q = p
    · subst hq; simp
    · rw [Function.update_of_ne hq, if_neg hq]
      by_cases he : q = s.children p :: p
      · rw [he, Function.update_self, hzero]
      · rw [Function.update_of_ne he]
  refine ⟨fun {q i} => ?_, fun {q} hq => ?_, fun {q} => ?_, fun u => hsame ▸ h.nodup u, fun hu hv => ?_⟩
  · rw [hphase, hchildren']
    by_cases he : i :: q = s.children p :: p
    · obtain ⟨rfl, rfl⟩ := List.cons.inj he
      simp
    · rw [Function.update_of_ne he, h.child]
      by_cases hq : q = p
      · subst hq
        have hi : i ≠ s.children q := fun hi => he (by rw [hi])
        simp only [if_true]
        omega
      · rw [if_neg hq]
  · have hne : q ≠ s.children p :: p := fun he => by
      rw [hchildren', if_neg (by rw [he]; exact child_ne _ p), he, hzero] at hq
      exact Nat.lt_irrefl 0 hq
    rw [hphase, Function.update_of_ne hne]
    by_cases he : q = p
    · rw [he]; exact .inl hp
    · rw [hchildren', if_neg he] at hq
      exact h.parent hq
  · rw [hphase, hsame, ← h.running]
    by_cases he : q = s.children p :: p
    · subst he; simp [hnew]
    · rw [Function.update_of_ne he]
  · rw [hsame] at hu hv
    exact h.apart hu hv

theorem Inv.complete (h : Inv s) {t : τ} {p : TaskId} (hmem : p ∈ s.own t)
    (hphase : s'.phase = Function.update s.phase p (some .complete)) (hchildren : s'.children = s.children)
    (hown : s'.own = Function.update s.own t ((s.own t).erase p)) : Inv s' := by
  have hp : s.phase p = some .started := h.running.mpr ⟨t, hmem⟩
  have hmem' : ∀ {u q}, q ∈ s'.own u ↔ q ∈ s.own u ∧ q ≠ p := h.mem_complete hmem hown
  refine ⟨fun {q i} => ?_, fun {q} hq => ?_, fun {q} => ?_, fun u => ?_, fun {u v q} hu hv => ?_⟩
  · rw [hphase, hchildren, update_phase_eq_none (by simp [hp])]
    exact h.child
  · rw [hchildren] at hq
    rw [hphase]
    by_cases he : q = p
    · subst he; exact .inr (Function.update_self ..)
    · rw [Function.update_of_ne he]
      exact h.parent hq
  · simp only [hmem', hphase]
    by_cases he : q = p
    · subst he; simp
    · simp [he, h.running]
  · rw [hown]
    by_cases hu : u = t
    · subst hu
      rw [Function.update_self]
      exact (h.nodup u).erase p
    · rw [Function.update_of_ne hu]
      exact h.nodup u
  · exact h.apart (hmem'.mp hu).1 (hmem'.mp hv).1

theorem Control.inv {a : Act τ} (h : Control s s' a) (hi : Inv s) : Inv s' := by
  cases h with
  | start hp hphase hchildren hown => exact hi.start hp hphase hchildren hown
  | go hphase hchildren hown =>
    exact ⟨by rw [hphase, hchildren]; exact hi.child, by rw [hphase, hchildren]; exact hi.parent,
      by rw [hphase, hown]; exact hi.running, hown ▸ hi.nodup, by rw [hown]; exact hi.apart⟩
  | create hp hphase hchildren hown => exact hi.create hp hphase hchildren hown
  | complete hp hphase hchildren hown => exact hi.complete hp hphase hchildren hown

variable {P : Program D L}

theorem phase_start (p : TaskId) : (P.system τ).start.phase p = if p = [] then some .created else none := by
  simp only [State.phase, Program.system, Function.update_apply]
  split <;> rfl

theorem children_start (p : TaskId) : (P.system τ).start.children p = 0 := by
  simp only [State.children, Program.system, Function.update_apply]
  split <;> rfl

theorem inv (h : (P.system τ).Reach s) : Inv s := by
  refine h.inv (I := Inv) ⟨fun {p i} => ?_, fun {p} hp => ?_, fun {p} => ?_, fun t => List.nodup_nil, fun hp => by cases hp⟩
    fun _ _ ha hi => (Program.step_of_next ha).control.inv hi
  · simp [phase_start, children_start]
  · exact absurd hp (by rw [children_start]; exact Nat.lt_irrefl 0)
  · refine ⟨fun he => ?_, fun ⟨t, ht⟩ => by cases ht⟩
    rw [phase_start] at he
    split at he <;> cases he

/-- A task remains. -/
theorem Control.ne_none {a : Act τ} (h : Control s s' a) {p : TaskId} (hp : s.phase p ≠ none) : s'.phase p ≠ none := by
  have hupdate : ∀ {q x}, Function.update s.phase q (some x) p ≠ none := fun {q x} => by
    by_cases hq : p = q
    · subst hq; simp
    · rwa [Function.update_of_ne hq]
  cases h with
  | start _ hphase | create _ hphase | complete _ hphase => exact hphase ▸ hupdate
  | go hphase => exact hphase ▸ hp

theorem root_ne_none (h : (P.system τ).Reach s) : s.phase [] ≠ none :=
  h.inv (I := fun s => s.phase [] ≠ none) (by simp [phase_start])
    fun _ _ ha hp => (Program.step_of_next ha).control.ne_none hp

/-! ## The order in which the tasks start -/

def starts (_ : State τ D L) : Act τ → List TaskId
  | .start _ p => [p]
  | .exec _ _ => []

/-- A task starts once and after the one that created it. -/
structure Order (es : List TaskId) (s : State τ D L) : Prop where
  mem : ∀ {p}, p ∈ es ↔ s.phase p = some .started ∨ s.phase p = some .complete
  nodup : es.Nodup
  own : ∀ t, (s.own t).reverse.Sublist es
  child : ∀ {p i}, i :: p ∈ es → [p, i :: p].Sublist es

theorem Order.start {es : List TaskId} (h : Order es s) (hi : Inv s) {t : τ} {p : TaskId} (hp : s.phase p = some .created)
    (hphase : s'.phase = Function.update s.phase p (some .started))
    (hown : s'.own = Function.update s.own t (p :: s.own t)) : Order (es ++ [p]) s' := by
  have hnot : p ∉ es := fun hmem => by rcases h.mem.mp hmem with he | he <;> cases hp.symm.trans he
  refine ⟨fun {q} => ?_, ?_, fun u => ?_, fun {q i} hq => ?_⟩
  · rw [List.mem_append, List.mem_singleton, h.mem, hphase]
    by_cases hq : q = p
    · subst hq; simp
    · simp [hq]
  · exact List.nodup_append.mpr ⟨h.nodup, List.nodup_singleton p, fun a ha b hb => by
      rw [List.mem_singleton.mp hb]
      rintro rfl
      exact hnot ha⟩
  · rw [hown]
    by_cases hu : u = t
    · subst hu
      rw [Function.update_self, List.reverse_cons]
      exact (h.own u).append (List.Sublist.refl [p])
    · rw [Function.update_of_ne hu]
      exact (h.own u).trans (List.sublist_append_left es [p])
  · rcases List.mem_append.mp hq with hq | hq
    · exact (h.child hq).trans (List.sublist_append_left es [p])
    · -- its creator has started
      obtain rfl := List.mem_singleton.mp hq
      have hlt := hi.child.mp (show s.phase (i :: q) ≠ none by rw [hp]; simp)
      have hmem : q ∈ es := h.mem.mpr (hi.parent (Nat.zero_lt_of_lt hlt))
      exact (List.singleton_sublist.mpr hmem).append (List.Sublist.refl [i :: q])

theorem Order.step {es : List TaskId} (h : Order es s) (hi : Inv s) {a : Act τ} (hc : Control s s' a) :
    Order (es ++ starts s a) s' := by
  cases hc with
  | start hp hphase _ hown => exact h.start hi hp hphase hown
  | go hphase _ hown =>
    rw [starts, List.append_nil]
    exact ⟨by rw [hphase]; exact h.mem, h.nodup, hown ▸ h.own, h.child⟩
  | @create t p hp hphase _ hown =>
    have hnew := hi.fresh p
    rw [starts, List.append_nil]
    refine ⟨fun {q} => ?_, h.nodup, hown ▸ h.own, h.child⟩
    rw [h.mem, hphase]
    by_cases hq : q = s.children p :: p
    · subst hq; simp [hnew]
    · rw [Function.update_of_ne hq]
  | @complete t p hmem hphase _ hown =>
    have hp : s.phase p = some .started := hi.running.mpr ⟨t, hmem⟩
    rw [starts, List.append_nil]
    refine ⟨fun {q} => ?_, h.nodup, fun u => ?_, h.child⟩
    · rw [h.mem, hphase]
      by_cases hq : q = p
      · subst hq; simp [hp]
      · rw [Function.update_of_ne hq]
    · rw [hown]
      by_cases hu : u = t
      · subst hu
        rw [Function.update_self]
        exact (List.erase_sublist.reverse).trans (h.own u)
      · rw [Function.update_of_ne hu]
        exact h.own u

variable {as : List (Act τ)}

theorem order (hr : (P.system τ).run (P.system τ).start as = some s) :
    Order ((P.system τ).trace starts (P.system τ).start as) s := by
  refine System.trace_inv (I := Order) hr (System.along_true _ _)
    ⟨fun {p} => ?_, List.nodup_nil, fun _ => List.Sublist.refl _, fun hp => by cases hp⟩
    fun hp _ ha ho => ho.step (inv hp) (Program.step_of_next ha).control
  rw [phase_start]
  split <;> simp

/-! ## No deadlock -/

/-- What is done next in all tasks that run is defined. -/
def Program.Defined (P : Program D L) (s : State τ D L) : Prop :=
  ∀ {p T f}, s.task p = some T → T.phase = .started → P.code p T.point = .act f → (f s.data).isSome

/-- A step that may be taken whatever else the threads are not allowed to do: a
thread goes on with the last task it has started, starts one that this task
waits for, or starts a task when it is idle. -/
def Program.Scheduled (P : Program D L) (s : State τ D L) : Act τ → Prop
  | .exec t p => (s.own t).head? = some p
  | .start t p => s.own t = [] ∨ ∃ i q T k, p = i :: q ∧ (s.own t).head? = some q ∧ s.task q = some T ∧
    P.code q T.point = .taskwait k

omit [DecidableEq τ] in
/-- In a list without duplicates what contains the last element ends with it. -/
theorem last_of_sublist {α : Type*} {l vs : List α} {q : α} (h : l.Sublist (vs ++ [q])) (hn : (vs ++ [q]).Nodup)
    (hq : q ∈ l) : ∃ l', l = l' ++ [q] := by
  obtain ⟨l₁, l₂, rfl, h₁, h₂⟩ := List.sublist_append_iff.mp h
  rcases List.sublist_singleton.mp h₂ with rfl | rfl
  · rw [List.append_nil] at hq
    exact absurd (h₁.subset hq) fun hmem => List.disjoint_of_nodup_append hn hmem (List.mem_singleton_self q)
  · exact ⟨l₁, rfl⟩

omit [DecidableEq τ] in
/-- Of the tasks that have started and are not complete, the last one is the
last of its thread, and none that it has created is among them. -/
theorem Order.exists_last {es : List TaskId} (h : Order es s) (hi : Inv s) {p : TaskId} (hp : s.phase p = some .started) :
    ∃ t q, (s.own t).head? = some q ∧ ∀ i, s.phase (i :: q) ≠ some .started := by
  let us := es.filter fun q => !s.isComplete q
  have hus : ∀ {q}, q ∈ us ↔ s.phase q = some .started := fun {q} => by
    simp only [us, List.mem_filter, h.mem, State.isComplete]
    cases s.phase q with
    | none => simp
    | some x => cases x <;> simp
  -- what is in the order of the starts stays so among those that are not complete
  have hsub : ∀ {l : List TaskId}, l.Sublist es → (∀ q ∈ l, s.phase q = some .started) → l.Sublist us := fun {l} hl hall => by
    have hself : l.filter (fun q => !s.isComplete q) = l := List.filter_eq_self.mpr fun q hq => by
      rw [State.isComplete, hall q hq]
      rfl
    rw [← hself]
    exact hl.filter _
  have hnodup : us.Nodup := h.nodup.filter _
  obtain hnil | ⟨vs, q, hcons⟩ := List.eq_nil_or_concat us
  · exact absurd (hus.mpr hp) (by rw [hnil]; exact List.not_mem_nil)
  rw [List.concat_eq_append] at hcons
  have hq : s.phase q = some .started := hus.mp (by rw [hcons]; simp)
  rw [hcons] at hnodup
  obtain ⟨t, ht⟩ := hi.running.mp hq
  have hown := hsub (h.own t) fun r hr => hi.running.mpr ⟨t, List.mem_reverse.mp hr⟩
  obtain ⟨l, hl⟩ := last_of_sublist (hcons ▸ hown) hnodup (List.mem_reverse.mpr ht)
  refine ⟨t, q, ?_, fun i hx => ?_⟩
  · rw [← List.reverse_reverse (s.own t), hl, List.reverse_append]
    rfl
  · have hpair := hsub (h.child (h.mem.mpr (.inl hx))) fun r hr => by
      rcases List.mem_pair.mp hr with rfl | rfl
      · exact hq
      · exact hx
    obtain ⟨l', hl'⟩ := last_of_sublist (hcons ▸ hpair) hnodup (List.mem_cons_self ..)
    have hlast := congrArg List.getLast? hl'
    rw [List.getLast?_append] at hlast
    simp at hlast

/-- Some task can go on, or be started. -/
theorem exists_step [Nonempty τ] (hr : (P.system τ).run (P.system τ).start as = some s) (hdef : P.Defined s)
    {p : TaskId} (hp : s.Unfinished p) : ∃ a, ((P.system τ).next s a).isSome ∧ P.Scheduled s a := by
  have hi := inv (System.reach_of_run hr)
  have hstep : ∀ {a s'}, P.Step s a s' → P.Scheduled s a → ∃ a, ((P.system τ).next s a).isSome ∧ P.Scheduled s a :=
    fun {a s'} h hs => ⟨a, by rw [show (P.system τ).next s a = some s' from h.next]; rfl, hs⟩
  by_cases hstarted : ∃ q, s.phase q = some .started
  · obtain ⟨q, hq⟩ := hstarted
    obtain ⟨t, q, htop, hlast⟩ := (order hr).exists_last hi hq
    have hown : q ∈ s.own t := List.mem_of_mem_head? htop
    obtain ⟨T, hT, hphase⟩ := exists_task (hi.running.mpr ⟨t, hown⟩)
    cases hc : P.code q T.point with
    | act f =>
      obtain ⟨⟨d, k⟩, hf⟩ := Option.isSome_iff_exists.mp (hdef hT hphase hc)
      exact hstep (.act hown hT hc hf) htop
    | create child k => exact hstep (.create hown hT hc) htop
    | complete => exact hstep (.complete hown hT hc) htop
    | taskwait k =>
      by_cases hall : ∀ i < T.children, s.isComplete (i :: q) = true
      · exact hstep (.taskwait hown hT hc hall) htop
      · -- it waits for a task that has not started
        push Not at hall
        obtain ⟨i, hlt, hnot⟩ := hall
        have hexists : s.phase (i :: q) ≠ none := hi.child.mpr (by rwa [children_of_task hT])
        obtain ⟨x, hx⟩ := Option.ne_none_iff_exists'.mp hexists
        cases x with
        | created =>
          obtain ⟨C, hC, hcreated⟩ := exists_task hx
          exact hstep (.start (t := t) hC hcreated) (.inr ⟨i, q, T, k, rfl, htop, hT, hc⟩)
        | complete => exact absurd (by rw [State.isComplete, hx]; rfl) hnot
        | started => exact absurd hx (hlast i)
  · -- all threads are idle
    obtain ⟨t⟩ := ‹Nonempty τ›
    have hempty : s.own t = [] := List.eq_nil_iff_forall_not_mem.mpr fun q hq => hstarted ⟨q, hi.running.mpr ⟨t, hq⟩⟩
    rcases hp with hp | hp
    · obtain ⟨T, hT, hphase⟩ := exists_task hp
      exact hstep (.start (t := t) hT hphase) (.inl hempty)
    · exact absurd ⟨p, hp⟩ hstarted

/-! ## Tied tasks -/

/-- The rule for tied tasks: a thread starts only descendants of all its tasks. -/
def Tied (s : State τ D L) : Act τ → Prop
  | .start t p => ∀ q ∈ s.own t, q <:+ p
  | .exec _ _ => True

theorem tied_chain (h : (P.system τ).ReachBy Tied s) (t : τ) : (s.own t).Pairwise fun p q => q <:+ p := by
  revert t
  refine h.inv (I := fun s => ∀ t, (s.own t).Pairwise fun p q => q <:+ p) (fun _ => List.Pairwise.nil) ?_
  intro s a s' _ htied ha ih u
  cases (Program.step_of_next ha).control with
  | @start t p _ _ _ hown =>
    rw [hown]
    by_cases hu : u = t
    · subst hu
      rw [Function.update_self]
      exact List.pairwise_cons.mpr ⟨htied, ih u⟩
    · rw [Function.update_of_ne hu]
      exact ih u
  | go _ _ hown | create _ _ _ hown => exact hown ▸ ih u
  | @complete t p _ _ _ hown =>
    rw [hown]
    by_cases hu : u = t
    · subst hu
      rw [Function.update_self]
      exact (ih u).sublist List.erase_sublist
    · rw [Function.update_of_ne hu]
      exact ih u

theorem tied_of_scheduled (h : (P.system τ).ReachBy Tied s) {a : Act τ} (ha : P.Scheduled s a) : Tied s a := by
  cases a with
  | exec => trivial
  | start t p =>
    rcases ha with hnil | ⟨i, q, T, k, rfl, htop, -⟩
    · simp [Tied, hnil]
    · obtain ⟨rest, hown⟩ := List.head?_eq_some_iff.mp htop
      have hchain := tied_chain h t
      intro r hr
      rw [hown] at hr hchain
      have hq : q <:+ i :: q := List.suffix_cons i q
      rcases List.mem_cons.mp hr with rfl | hr
      · exact hq
      · exact ((List.pairwise_cons.mp hchain).1 r hr).trans hq

end Tasks

end TKH
