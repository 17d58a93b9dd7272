import Mathlib.Data.Fintype.Sum
import ThreadingKnowHows.Framework.Local

/-!
# The thread pool

`ThreadPool` of `03_patterns/01_thread_pool.cpp`: workers that take jobs from
a queue, a `submit` that notifies after it has released the mutex, and a
destructor that stops the workers and joins them, once the external threads
have made their last call.

A job is the number under which `submit` accepted it. What a job does is up
to it: while it runs it may submit any number of times, also after shutdown
began, and it ends (`running`). An exception in a job stays in its
`packaged_task`, so that `job()` returns. `accepted`, `taken` and `ran` are not
in the source: the number of accepted jobs, and the jobs in the order in which
they left `tasks_` and in which they ended.
-/

namespace TKH.ThreadPool

/-- The constructor replaces 0. -/
def workers (n : ℕ) : ℕ := if n = 0 then 2 else n

inductive Thread (n : ℕ) (E : Type)
  | worker (i : Fin (workers n))
  | external (e : E)
  | destructor
  deriving DecidableEq

instance {n : ℕ} {E : Type} [DecidableEq E] [Fintype E] : Fintype (Thread n E) :=
  Fintype.ofSurjective (α := Fin (workers n) ⊕ E ⊕ Unit)
    (fun
      | .inl i => .worker i
      | .inr (.inl e) => .external e
      | .inr (.inr ()) => .destructor)
    fun
      | .worker i => ⟨.inl i, rfl⟩
      | .external e => ⟨.inr (.inl e), rfl⟩
      | .destructor => ⟨.inr (.inr ()), rfl⟩

/-- The condition variable `cv_`. -/
inductive Cv
  | cv
  deriving DecidableEq

structure Data where
  tasks : List ℕ
  stop : Bool
  accepted : ℕ
  taken : List ℕ
  ran : List ℕ

/-- Who calls `submit`. -/
inductive Caller
  | external
  | job (j : ℕ)

inductive SubmitPc
  | lock
  | body
  /-- Accepted as `r`, or about to throw. -/
  | unlock (r : Option ℕ)
  | notify (j : ℕ)
  /-- Returns the future of `r`, or throws. -/
  | ret (r : Option ℕ)

inductive WorkerPc
  | lock
  | test
  | sleep
  | body
  | unlock (j : ℕ)
  /-- `job()`. -/
  | running (j : ℕ)
  | finish (j : ℕ)
  | leave
  | returned
  /-- `front()` of an empty queue (never reached). -/
  | undefined

inductive DestructorPc
  | idle
  | lock
  | set
  | unlock
  | notify
  | join (i : ℕ)
  | returned

inductive Pc
  /-- An external thread between its calls, and after the last one. -/
  | out
  | gone
  | submit (c : Caller) (p : SubmitPc)
  | worker (p : WorkerPc)
  | destructor (p : DestructorPc)

/-- The predicate of the wait in `worker_loop`. -/
def mayTake (d : Data) : Bool := d.stop || !d.tasks.isEmpty

/-- Where `submit` returns to. -/
def Caller.back : Caller → Pc
  | external => .out
  | job j => .worker (.running j)

variable {n : ℕ} {E : Type}

def submit (c : Caller) : SubmitPc → Cmd (Thread n E) Cv Data Pc
  | .lock => .lock (.submit c .body)
  | .body => .act fun d =>
    if d.stop then (d, .submit c (.unlock none))
    else ({ d with tasks := d.tasks ++ [d.accepted], accepted := d.accepted + 1 },
      .submit c (.unlock (some d.accepted)))
  | .unlock r => .unlock (.submit c (match r with
    | some j => .notify j
    | none => .ret none))
  | .notify j => .notifyOne .cv (.submit c (.ret (some j)))
  | .ret _ => .act fun d => (d, c.back)

/-- What a running job may do next. -/
def jobStep (j : ℕ) : Pc → Bool
  | .submit (.job i) .lock => i = j
  | .worker (.finish i) => i = j
  | _ => false

def workerLoop : WorkerPc → Cmd (Thread n E) Cv Data Pc
  | .lock => .lock (.worker .test)
  | .test => .act fun d => (d, .worker (if mayTake d then .body else .sleep))
  | .sleep => .wait .cv (.worker .test)
  | .body => .act fun d => match d.tasks with
    | [] => (d, .worker (if d.stop then .leave else .undefined))
    | j :: js => ({ d with tasks := js, taken := d.taken ++ [j] }, .worker (.unlock j))
  | .unlock j => .unlock (.worker (.running j))
  | .running j => .pick fun _ k => jobStep j k
  | .finish j => .act fun d => ({ d with ran := d.ran ++ [j] }, .worker .lock)
  | .leave => .unlock (.worker .returned)
  | .returned => .halt
  | .undefined => .act fun d => (d, .worker .undefined)

def isExternal : Thread n E → Bool
  | .external _ => true
  | _ => false

def destruct : DestructorPc → Cmd (Thread n E) Cv Data Pc
  | .idle => .ext isExternal fun k => match k with
    | .destructor .lock => true
    | _ => false
  | .lock => .lock (.destructor .set)
  | .set => .act fun d => ({ d with stop := true }, .destructor .unlock)
  | .unlock => .unlock (.destructor .notify)
  | .notify => .notifyAll .cv (.destructor (.join 0))
  | .join i =>
    if h : i < workers n then .join (fun u => match u with
      | .worker k => k = ⟨i, h⟩
      | _ => false) (.destructor (.join (i + 1)))
    else .act fun d => (d, .destructor .returned)
  | .returned => .halt

/-- A pool constructed with `n`, and the external threads `E`. -/
def pool (n : ℕ) (E : Type) : Program (Thread n E) Cv Data Pc where
  code _
    | .out => .ext (fun _ => false) fun k => match k with
      | .submit .external .lock | .gone => true
      | _ => false
    | .gone => .halt
    | .submit c p => submit c p
    | .worker p => workerLoop p
    | .destructor p => destruct p
  entry
    | .worker _ => .worker .lock
    | .external _ => .out
    | .destructor => .destructor .idle
  init := { tasks := [], stop := false, accepted := 0, taken := [], ran := [] }

/-! ## The mutex and the data -/

/-- Where a thread holds the mutex `mu_`. -/
def held : Pc → Bool
  | .submit _ p => match p with
    | .body | .unlock _ => true
    | _ => false
  | .worker p => match p with
    | .test | .sleep | .body | .unlock _ | .leave | .undefined => true
    | _ => false
  | .destructor p => match p with
    | .set | .unlock => true
    | _ => false
  | _ => false

/-- The jobs leave the queue in the order in which they were accepted. -/
def InOrder (d : Data) : Prop := d.taken ++ d.tasks = List.range d.accepted

/-- What a thread that holds the mutex knows. -/
def tested (l : Pc) (d : Data) : Prop :=
  InOrder d ∧ match l with
    | .worker .sleep => mayTake d = false
    | .worker .body => mayTake d = true
    | _ => True

theorem mayTake_eq_false {d : Data} : mayTake d = false ↔ d.stop = false ∧ d.tasks = [] := by
  simp [mayTake]

theorem jobStep_iff {j : ℕ} {k : Pc} :
    jobStep j k = true ↔ k = .submit (.job j) .lock ∨ k = .worker (.finish j) := by
  rcases k with _ | _ | ⟨_ | _, _ | _ | _ | _ | _⟩ | ⟨_ | _ | _ | _ | _ | _ | _ | _ | _ | _⟩ | _ <;>
    simp [jobStep]

theorem InOrder.submit {d : Data} (h : InOrder d) :
    InOrder { d with tasks := d.tasks ++ [d.accepted], accepted := d.accepted + 1 } := by
  simp only [InOrder] at h ⊢
  rw [← List.append_assoc, h, List.range_succ]

theorem InOrder.take {d : Data} {j : ℕ} {js : List ℕ} (h : InOrder d) (hj : d.tasks = j :: js) :
    InOrder { d with tasks := js, taken := d.taken ++ [j] } := by
  simpa [InOrder, hj] using h

theorem pool_discipline : Discipline (pool n E) held where
  entry t := by cases t <;> rfl
  code t l := by
    cases l with
    | out => exact ⟨rfl, fun k hk => by dsimp only at hk; split at hk <;> first | rfl | cases hk⟩
    | gone => rfl
    | submit c p =>
      cases p with
      | lock => exact ⟨rfl, rfl⟩
      | body => intro d; dsimp only; split <;> rfl
      | unlock r => cases r <;> exact ⟨rfl, rfl⟩
      | notify j => rfl
      | ret r => intro d; cases c <;> rfl
    | worker p =>
      cases p with
      | lock => exact ⟨rfl, rfl⟩
      | test => intro d; dsimp only; split <;> rfl
      | sleep => exact ⟨rfl, rfl⟩
      | body => intro d; dsimp only; split <;> [(split <;> rfl); rfl]
      | unlock j => exact ⟨rfl, rfl⟩
      | running j => exact ⟨rfl, fun d k hk => by rcases jobStep_iff.mp hk with rfl | rfl <;> rfl⟩
      | finish j | undefined => exact fun d => rfl
      | leave => exact ⟨rfl, rfl⟩
      | returned => rfl
    | destructor p =>
      cases p with
      | idle => exact ⟨rfl, fun k hk => by dsimp only at hk; split at hk <;> first | rfl | cases hk⟩
      | lock => exact ⟨rfl, rfl⟩
      | set => exact fun d => rfl
      | unlock => exact ⟨rfl, rfl⟩
      | notify => rfl
      | join i => simp only [pool, destruct]; split <;> simp [Cmd.Holds, held]
      | returned => rfl

theorem pool_annotation : Annotation (pool n E) held InOrder tested where
  toDiscipline := pool_discipline
  init := rfl
  keeps t l := by
    cases l with
    | out | gone => trivial
    | submit c p =>
      cases p with
      | lock => exact fun d h => ⟨h, trivial⟩
      | body =>
        refine fun d => ⟨fun _ h => ?_, fun h => by cases h⟩
        dsimp only
        split
        · exact ⟨h.1, trivial⟩
        · exact ⟨h.1.submit, trivial⟩
      | unlock r => exact fun d h => h.1
      | notify j => exact fun h => by cases h
      | ret r => exact fun d => ⟨fun h => (by cases h), fun _ => ⟨id, fun _ _ h => h⟩⟩
    | worker p =>
      cases p with
      | lock => exact fun d h => ⟨h, trivial⟩
      | test =>
        refine fun d => ⟨fun _ h => ?_, fun h => by cases h⟩
        cases ht : mayTake d <;> exact ⟨h.1, by simp [ht]⟩
      | sleep => exact fun d => ⟨fun h => h.1, fun h => ⟨h, trivial⟩⟩
      | body =>
        refine fun d => ⟨fun _ h => ?_, fun h => by cases h⟩
        dsimp only
        split
        · split <;> exact ⟨h.1, trivial⟩
        · exact ⟨h.1.take ‹_›, trivial⟩
      | unlock j => exact fun d h => h.1
      | running j | returned => trivial
      | finish j => exact fun d => ⟨fun h => (by cases h), fun _ => ⟨id, fun _ _ h => h⟩⟩
      | leave => exact fun d h => h.1
      | undefined => exact fun d => ⟨fun _ h => h, fun h => by cases h⟩
    | destructor p =>
      cases p with
      | idle | returned => trivial
      | lock => exact fun d h => ⟨h, trivial⟩
      | set => exact fun d => ⟨fun _ h => ⟨h.1, trivial⟩, fun h => by cases h⟩
      | unlock => exact fun d h => h.1
      | notify => exact fun h => by cases h
      | join i =>
        simp only [pool, destruct]
        split
        · trivial
        · exact fun d => ⟨fun h => (by cases h), fun _ => ⟨id, fun _ _ h => h⟩⟩

/-! ## The roles of the threads -/

def SubmitPc.knows : SubmitPc → Data → Prop
  | .unlock none, d | .ret none, d => d.stop = true
  | .unlock (some j), d | .notify j, d | .ret (some j), d => j < d.accepted
  | _, _ => True

def WorkerPc.knows : WorkerPc → Data → Prop
  | .leave, d | .returned, d => d.stop = true ∧ d.tasks = []
  | .undefined, _ => False
  | _, _ => True

def DestructorPc.knows : DestructorPc → Data → Prop
  | .idle, d | .lock, d | .set, d => d.stop = false
  | _, d => d.stop = true

/-- Where the threads can be, and what they know there. -/
def role : Thread n E → Pc → Data → Prop
  | .worker _, .worker p, d => p.knows d
  | .worker _, .submit (.job _) p, d => p.knows d
  | .external _, .submit .external p, d => p.knows d
  | .external _, .out, _ | .external _, .gone, _ => True
  | .destructor, .destructor p, d => p.knows d
  | _, _, _ => False

theorem role.submit {u : Thread n E} {c : Caller} {p p' : SubmitPc} {d d' : Data}
    (h : role u (.submit c p) d) (hp : p.knows d → p'.knows d') : role u (.submit c p') d' := by
  cases u <;> cases c <;> first | exact hp h | exact h

theorem role.worker {u : Thread n E} {p p' : WorkerPc} {d d' : Data} (h : role u (.worker p) d)
    (hp : p.knows d → p'.knows d') : role u (.worker p') d' := by
  cases u <;> first | exact hp h | exact h

theorem role.destructor {u : Thread n E} {p p' : DestructorPc} {d d' : Data}
    (h : role u (.destructor p) d) (hp : p.knows d → p'.knows d') : role u (.destructor p') d' := by
  cases u <;> first | exact hp h | exact h

/-- What another thread may do to the data. -/
theorem role.stable {u : Thread n E} {k : Pc} {d d' : Data} (h : role u k d)
    (hstop : d.stop = true → d'.stop = true) (hdtor : u = .destructor → d'.stop = d.stop)
    (htasks : d.stop = true → d.tasks = [] → d'.tasks = []) (haccepted : d.accepted ≤ d'.accepted) :
    role u k d' := by
  have hsubmit : ∀ p : SubmitPc, p.knows d → p.knows d' := by
    rintro (_ | _ | (_ | _) | _ | (_ | _)) h
    all_goals first | trivial | exact hstop h | exact h.trans_le haccepted
  cases k with
  | submit c p => exact h.submit (hsubmit p)
  | worker p =>
    refine h.worker ?_
    cases p <;> first | exact id | exact fun h => ⟨hstop h.1, htasks h.1 h.2⟩
  | destructor p =>
    cases u with
    | destructor => cases p <;> exact (hdtor rfl).trans h
    | _ => exact h
  | _ => cases u <;> exact h

theorem pool_local : Local (pool n E) held InOrder tested role where
  toAnnotation := pool_annotation
  entries t := by cases t <;> trivial
  asserts t l := by
    cases l with
    | out =>
      intro d k hk h
      dsimp only at hk
      split at hk
      · cases t <;> exact h
      · cases t <;> exact h
      · cases hk
    | gone => trivial
    | submit c p =>
      cases p with
      | lock => exact fun d h => h.submit fun _ => trivial
      | body =>
        intro d _ h
        dsimp only
        split
        · exact ⟨h.submit fun _ => ‹_›, fun _ _ _ h => h⟩
        · rename_i hs
          exact ⟨h.submit fun _ => Nat.lt_succ_self _,
            fun u k _ h => h.stable id (fun _ => rfl) (fun hs' => absurd hs' hs) (Nat.le_succ _)⟩
      | unlock r => cases r <;> exact fun d h => h.submit id
      | notify j => exact fun d h => h.submit id
      | ret r =>
        intro d _ h
        refine ⟨?_, fun _ _ _ h => h⟩
        cases t <;> cases c <;> trivial
    | worker p =>
      cases p with
      | lock | sleep => exact fun d h => h.worker id
      | test =>
        refine fun d _ h => ⟨?_, fun _ _ _ h => h⟩
        dsimp only
        split <;> exact h.worker id
      | body =>
        intro d hp h
        have ht : mayTake d = true := (hp rfl).2
        dsimp only
        split
        · rename_i hn
          have hs : d.stop = true := by simpa [mayTake, hn] using ht
          rw [hs]
          exact ⟨h.worker fun _ => ⟨hs, hn⟩, fun _ _ _ h => h⟩
        · rename_i j js hj
          refine ⟨h.worker fun _ => trivial, fun u k _ h => h.stable id (fun _ => rfl) (fun _ hn => ?_) le_rfl⟩
          rw [hj] at hn; cases hn
      | unlock j => exact fun d h => h.worker id
      | running j =>
        intro d k hk h
        rcases jobStep_iff.mp hk with rfl | rfl
        · cases t <;> exact h
        · exact h.worker id
      | finish j =>
        exact fun d _ h => ⟨h.worker fun _ => trivial,
          fun _ _ _ h => h.stable id (fun _ => rfl) (fun _ => id) le_rfl⟩
      | leave => exact fun d h => h.worker id
      | returned => trivial
      | undefined => exact fun d _ h => by cases t <;> exact h.elim
    | destructor p =>
      cases p with
      | idle =>
        intro d k hk h
        dsimp only at hk
        split at hk
        · exact h.destructor id
        · cases hk
      | lock => exact fun d h => h.destructor id
      | set =>
        refine fun d _ h => ⟨h.destructor fun _ => rfl, fun u k hu h' => ?_⟩
        refine h'.stable (fun _ => rfl) (fun he => ?_) (fun _ => id) le_rfl
        subst he
        cases t <;> first | exact h.elim | exact absurd rfl hu
      | unlock | notify => exact fun d h => h.destructor id
      | join i =>
        simp only [pool, destruct]
        split
        · exact fun d h => h.destructor id
        · exact fun d _ h => ⟨h.destructor id, fun _ _ _ h => h⟩
      | returned => trivial

end TKH.ThreadPool
