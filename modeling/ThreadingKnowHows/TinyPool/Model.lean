import Mathlib.Data.Fintype.Sum
import ThreadingKnowHows.Framework.Flow

/-!
# The tiny pool

`TinyPool` of `02_cpp11_threads/05_futures/03_packaged_task.cpp`: workers that
take jobs from a queue, a `submit` that does not ask whether the pool is
stopped, and a destructor that stops the workers and joins them, once the
external threads have made their last call.

A job is the number under which `submit` put it into the queue. While it runs
it may submit any number of times, and it ends (`running`); an exception stays
in its `packaged_task`. `submitted` and `ran` are not in the source: the number
of jobs that were put into the queue, and the jobs in the order in which they
ended.
-/

namespace TKH.TinyPool

inductive Thread (n : ℕ) (E : Type)
  | worker (i : Fin n)
  | external (e : E)
  | destructor
  deriving DecidableEq

instance {n : ℕ} {E : Type} [DecidableEq E] [Fintype E] : Fintype (Thread n E) :=
  Fintype.ofSurjective (α := Fin n ⊕ E ⊕ Unit)
    (fun
      | .inl i => .worker i
      | .inr (.inl e) => .external e
      | .inr (.inr ()) => .destructor)
    fun
      | .worker i => ⟨.inl i, rfl⟩
      | .external e => ⟨.inr (.inl e), rfl⟩
      | .destructor => ⟨.inr (.inr ()), rfl⟩

/-- The condition variable `cv_`. -/
inductive Cv
  | cv
  deriving DecidableEq

structure Data where
  q : List ℕ
  stop : Bool
  submitted : ℕ
  ran : List ℕ

/-- Who calls `submit`. -/
inductive Caller
  | external
  | job (j : ℕ)
  deriving DecidableEq

inductive SubmitPc
  | lock
  | emplace
  | unlock
  | notify
  deriving DecidableEq

inductive WorkerPc
  | lock
  | test
  | sleep
  | body
  | unlock (j : ℕ)
  /-- `job()`. -/
  | running (j : ℕ)
  | finish (j : ℕ)
  | leave
  | returned
  /-- `front()` of an empty queue (never reached). -/
  | undefined
  deriving DecidableEq

inductive DestructorPc
  | idle
  | lock
  | set
  | unlock
  | notify
  | join (i : ℕ)
  | returned
  deriving DecidableEq

inductive Pc
  /-- An external thread between its calls, and after the last one. -/
  | out
  | gone
  | submit (c : Caller) (p : SubmitPc)
  | worker (p : WorkerPc)
  | destructor (p : DestructorPc)
  deriving DecidableEq

/-- The predicate of the wait. -/
def mayTake (d : Data) : Bool := d.stop || !d.q.isEmpty

/-- Where `submit` returns to. -/
def Caller.back : Caller → Pc
  | external => .out
  | job j => .worker (.running j)

variable {n : ℕ} {E : Type}

def submit (c : Caller) : SubmitPc → Cmd (Thread n E) Cv Data Pc
  | .lock => .lock (.submit c .emplace)
  | .emplace => .act fun d =>
    ({ d with q := d.q ++ [d.submitted], submitted := d.submitted + 1 }, .submit c .unlock)
  | .unlock => .unlock (.submit c .notify)
  | .notify => .notifyOne .cv c.back

/-- What a running job may do next. -/
def jobStep (j : ℕ) : Pc → Bool
  | .submit (.job i) .lock => i = j
  | .worker (.finish i) => i = j
  | _ => false

def workerLoop : WorkerPc → Cmd (Thread n E) Cv Data Pc
  | .lock => .lock (.worker .test)
  | .test => .act fun d => (d, .worker (if mayTake d then .body else .sleep))
  | .sleep => .wait .cv (.worker .test)
  | .body => .act fun d => match d.q with
    | [] => (d, .worker (if d.stop then .leave else .undefined))
    | j :: js => ({ d with q := js }, .worker (.unlock j))
  | .unlock j => .unlock (.worker (.running j))
  | .running j => .pick fun _ k => jobStep j k
  | .finish j => .act fun d => ({ d with ran := d.ran ++ [j] }, .worker .lock)
  | .leave => .unlock (.worker .returned)
  | .returned => .halt
  | .undefined => .act fun d => (d, .worker .undefined)

def isExternal : Thread n E → Bool
  | .external _ => true
  | _ => false

def destruct : DestructorPc → Cmd (Thread n E) Cv Data Pc
  | .idle => .ext isExternal fun k => k = .destructor .lock
  | .lock => .lock (.destructor .set)
  | .set => .act fun d => ({ d with stop := true }, .destructor .unlock)
  | .unlock => .unlock (.destructor .notify)
  | .notify => .notifyAll .cv (.destructor (.join 0))
  | .join i =>
    if h : i < n then .join (fun u => match u with
      | .worker k => k = ⟨i, h⟩
      | _ => false) (.destructor (.join (i + 1)))
    else .act fun d => (d, .destructor .returned)
  | .returned => .halt

/-- What an external thread may do next. -/
def callStep : Pc → Bool
  | .submit .external .lock | .gone => true
  | _ => false

/-- A pool of `n` workers, and the external threads `E`. -/
def pool (n : ℕ) (E : Type) : Program (Thread n E) Cv Data Pc where
  code _
    | .out => .ext (fun _ => false) callStep
    | .gone => .halt
    | .submit c p => submit c p
    | .worker p => workerLoop p
    | .destructor p => destruct p
  entry
    | .worker _ => .worker .lock
    | .external _ => .out
    | .destructor => .destructor .idle
  init := { q := [], stop := false, submitted := 0, ran := [] }

/-! ## The mutex and the data -/

/-- Where a thread holds the mutex `m_`. -/
def held : Pc → Bool
  | .submit _ p => match p with
    | .emplace | .unlock => true
    | _ => false
  | .worker p => match p with
    | .test | .sleep | .body | .unlock _ | .leave | .undefined => true
    | _ => false
  | .destructor p => match p with
    | .set | .unlock => true
    | _ => false
  | _ => false

/-- What a thread that holds the mutex knows. -/
def tested (l : Pc) (d : Data) : Prop :=
  match l with
  | .worker .sleep => mayTake d = false
  | .worker .body => mayTake d = true
  | .worker .leave => d.stop = true ∧ d.q = []
  | .worker .undefined => False
  | _ => True

theorem mayTake_eq_false {d : Data} : mayTake d = false ↔ d.stop = false ∧ d.q = [] := by
  simp [mayTake]

theorem stop_of_mayTake {d : Data} (h : mayTake d = true) (hq : d.q = []) : d.stop = true := by
  simpa [mayTake, hq] using h

theorem jobStep_iff {j : ℕ} {k : Pc} :
    jobStep j k = true ↔ k = .submit (.job j) .lock ∨ k = .worker (.finish j) := by
  rcases k with _ | _ | ⟨_ | _, _ | _ | _ | _⟩ | ⟨_ | _ | _ | _ | _ | _ | _ | _ | _ | _⟩ | _ <;>
    simp [jobStep]

theorem callStep_iff {k : Pc} : callStep k = true ↔ k = .submit .external .lock ∨ k = .gone := by
  rcases k with _ | _ | ⟨_ | _, _ | _ | _ | _⟩ | _ | _ <;> simp [callStep]

theorem pool_discipline : Discipline (pool n E) held where
  entry t := by cases t <;> rfl
  code t l := by
    cases l with
    | out => exact ⟨rfl, fun k hk => by rcases callStep_iff.mp hk with rfl | rfl <;> rfl⟩
    | gone => rfl
    | submit c p =>
      cases p with
      | lock | unlock => exact ⟨rfl, rfl⟩
      | emplace => exact fun d => rfl
      | notify => cases c <;> rfl
    | worker p =>
      cases p with
      | lock | sleep | unlock | leave => exact ⟨rfl, rfl⟩
      | test => intro d; dsimp only; split <;> rfl
      | body => intro d; dsimp only; split <;> [(split <;> rfl); rfl]
      | running j => exact ⟨rfl, fun d k hk => by rcases jobStep_iff.mp hk with rfl | rfl <;> rfl⟩
      | finish j | undefined => exact fun d => rfl
      | returned => rfl
    | destructor p =>
      cases p with
      | idle => exact ⟨rfl, fun k hk => by rw [of_decide_eq_true hk]; rfl⟩
      | lock | unlock => exact ⟨rfl, rfl⟩
      | set => exact fun d => rfl
      | notify | returned => rfl
      | join i => simp only [pool, destruct]; split <;> simp [Cmd.Holds, held]

theorem pool_annotation : Annotation (pool n E) held (fun _ => True) tested where
  toDiscipline := pool_discipline
  init := trivial
  keeps t l := by
    cases l with
    | out | gone => trivial
    | submit c p =>
      cases p with
      | lock | unlock => exact fun _ _ => trivial
      | emplace => exact fun d => ⟨fun _ _ => trivial, fun h => by cases h⟩
      | notify => exact fun h => by cases h
    | worker p =>
      cases p with
      | lock | unlock | leave => exact fun _ _ => trivial
      | test =>
        refine fun d => ⟨fun _ _ => ?_, fun h => by cases h⟩
        cases ht : mayTake d <;> simp [tested, ht]
      | sleep => exact fun d => ⟨fun _ => trivial, fun _ => trivial⟩
      | body =>
        refine fun d => ⟨fun _ h => ?_, fun h => by cases h⟩
        dsimp only
        split
        · rename_i hq
          have hs := stop_of_mayTake h hq
          rw [if_pos hs]
          exact ⟨hs, hq⟩
        · trivial
      | running j | returned => trivial
      | finish j => exact fun d => ⟨fun h => (by cases h), fun _ => ⟨id, fun _ _ h => h⟩⟩
      | undefined => exact fun d => ⟨fun _ => id, fun h => by cases h⟩
    | destructor p =>
      cases p with
      | idle | returned => trivial
      | lock | unlock => exact fun _ _ => trivial
      | set => exact fun d => ⟨fun _ _ => trivial, fun h => by cases h⟩
      | notify => exact fun h => by cases h
      | join i =>
        simp only [pool, destruct]
        split
        · trivial
        · exact fun d => ⟨fun h => (by cases h), fun _ => ⟨id, fun _ _ => id⟩⟩

end TKH.TinyPool
