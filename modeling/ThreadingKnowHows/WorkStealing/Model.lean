import Mathlib.Data.Fintype.Sum
import ThreadingKnowHows.Framework.Flow

/-!
# The work-stealing pool

`WorkStealingPool` of `03_patterns/07_work_stealing.cpp`: workers with a deque
each, which take the newest task of their own deque or else the oldest of
another one, a `submit` that first pushes a task and then counts it in
`pending_`, and a destructor that polls `pending_` before it stops the workers
and joins them, once the external threads have made their last call.

Under a deque's mutex the code touches nothing but that deque, so each of
these critical sections is one step, and no mutex is left in the model.
`submit` may choose any deque, and a thief any victim; what the counter of the source
chooses, and when there is no such deque, is in `counted`, a system over this one.
Since `pending_` is an `int`, it wraps.

A task is the number of its `push_back`, and whether it is an empty
`std::function`. While a task runs it may submit any number of tasks, and it
ends (`running`). `pushed`, `finished` and `dropped` are not in the source: the
number of tasks that were pushed, the tasks that have ended, and the empty ones
that were taken from a deque.
-/

namespace TKH.WorkStealing

structure Task where
  id : ℕ
  empty : Bool
  deriving DecidableEq

inductive Thread (n : ℕ) (E : Type)
  | worker (i : Fin n)
  | external (e : E)
  | destructor
  deriving DecidableEq

instance {n : ℕ} {E : Type} [DecidableEq E] [Fintype E] : Fintype (Thread n E) :=
  Fintype.ofSurjective (α := Fin n ⊕ E ⊕ Unit)
    (fun
      | .inl i => .worker i
      | .inr (.inl e) => .external e
      | .inr (.inr ()) => .destructor)
    fun
      | .worker i => ⟨.inl i, rfl⟩
      | .external e => ⟨.inr (.inl e), rfl⟩
      | .destructor => ⟨.inr (.inr ()), rfl⟩

structure Data (n : ℕ) where
  deques : Fin n → List Task
  stop : Bool
  pending : BitVec 32
  pushed : ℕ
  finished : List ℕ
  dropped : List ℕ

/-- Who calls `submit`: an external thread, or the task that a worker runs. -/
inductive Caller (n : ℕ)
  | external
  | task (i : Fin n) (t : Task)
  deriving DecidableEq

inductive SubmitPc (n : ℕ)
  /-- `push_back`, to the deque `who`. -/
  | push (empty : Bool) (who : Fin n)
  /-- `pending_.fetch_add(1)`. -/
  | count
  deriving DecidableEq

inductive WorkerPc (n : ℕ)
  /-- `while (!stop_.load())`. -/
  | test
  | popLocal
  /-- The `k`-th round of the loop that tries to steal. -/
  | steal (k : ℕ)
  | stealFrom (k : ℕ) (victim : Fin n)
  /-- `t()`. -/
  | running (t : Task)
  /-- `pending_.fetch_sub(1)`. -/
  | finish (t : Task)
  /-- `pending_.load() == 0`, and `stop_.load()`. -/
  | idle
  | idleStop
  | returned
  deriving DecidableEq

inductive DestructorPc
  | idle
  /-- `while (pending_.load() > 0)`. -/
  | poll
  | store
  | join (i : ℕ)
  | returned
  deriving DecidableEq

inductive Pc (n : ℕ)
  /-- An external thread between its calls, and after the last one. -/
  | out
  | gone
  | submit (c : Caller n) (p : SubmitPc n)
  | worker (i : Fin n) (p : WorkerPc n)
  | destructor (p : DestructorPc)
  deriving DecidableEq

variable {n : ℕ} {E : Type}

abbrev Code (n : ℕ) (E : Type) := Cmd (Thread n E) Empty (Data n) (Pc n)

/-- Where `submit` returns to. -/
def Caller.back : Caller n → Pc n
  | external => .out
  | task i t => .worker i (.running t)

def Data.push (d : Data n) (empty : Bool) (who : Fin n) : Data n :=
  { d with
    deques := Function.update d.deques who (d.deques who ++ [⟨d.pushed, empty⟩])
    pushed := d.pushed + 1 }

/-- `t` is taken from the deque `i`, which is left with `rest`. -/
def Data.take (d : Data n) (i : Fin n) (t : Task) (rest : List Task) : Data n :=
  { d with
    deques := Function.update d.deques i rest
    dropped := if t.empty then d.dropped ++ [t.id] else d.dropped }

def submit (c : Caller n) : SubmitPc n → Code n E
  | .push empty who => .act fun d => (d.push empty who, .submit c .count)
  | .count => .act fun d => ({ d with pending := d.pending + 1 }, c.back)

/-- `if (!t)`: the worker goes on at `k` without a task. -/
def got (i : Fin n) (t : Task) (k : WorkerPc n) : Pc n :=
  .worker i (if t.empty then k else .running t)

/-- What a running task may do next. -/
def taskStep (i : Fin n) (t : Task) : Pc n → Bool
  | .submit (.task j u) (.push _ _) => j = i ∧ u = t
  | .worker j (.finish u) => j = i ∧ u = t
  | _ => false

/-- The worker `i` chooses a victim; it does not steal from itself. -/
def victim (i : Fin n) (k : ℕ) : Pc n → Bool
  | .worker j (.stealFrom m v) => j = i ∧ m = k ∧ v ≠ i
  | .worker j (.steal m) => j = i ∧ m = k + 1
  | _ => false

def workerLoop (i : Fin n) : WorkerPc n → Code n E
  | .test => .act fun d => (d, .worker i (if d.stop then .returned else .popLocal))
  | .popLocal => .act fun d => match (d.deques i).getLast? with
    | none => (d, .worker i (.steal 0))
    | some t => (d.take i t (d.deques i).dropLast, got i t (.steal 0))
  | .steal k =>
    if k < n then .pick fun _ l => victim i k l
    else .act fun d => (d, .worker i .idle)
  | .stealFrom k v => .act fun d => match d.deques v with
    | [] => (d, .worker i (.steal (k + 1)))
    | t :: rest => (d.take v t rest, got i t (.steal (k + 1)))
  | .running t => .pick fun _ l => taskStep i t l
  | .finish t => .act fun d =>
    ({ d with pending := d.pending - 1, finished := d.finished ++ [t.id] }, .worker i .test)
  | .idle => .act fun d => (d, .worker i (if d.pending = 0 then .idleStop else .test))
  | .idleStop => .act fun d => (d, .worker i (if d.stop then .returned else .test))
  | .returned => .halt

def isExternal : Thread n E → Bool
  | .external _ => true
  | _ => false

def destruct : DestructorPc → Code n E
  | .idle => .ext isExternal fun k => k = .destructor .poll
  | .poll => .act fun d => (d, .destructor (if 0 < d.pending.toInt then .poll else .store))
  | .store => .act fun d => ({ d with stop := true }, .destructor (.join 0))
  | .join i =>
    if h : i < n then .join (fun u => match u with
      | .worker k => k = ⟨i, h⟩
      | _ => false) (.destructor (.join (i + 1)))
    else .act fun d => (d, .destructor .returned)
  | .returned => .halt

/-- What an external thread may do next. -/
def callStep : Pc n → Bool
  | .submit .external (.push _ _) | .gone => true
  | _ => false

/-- A pool of `n` workers, and the external threads `E`. -/
def pool (n : ℕ) (E : Type) : Program (Thread n E) Empty (Data n) (Pc n) where
  code _
    | .out => .ext (fun _ => false) callStep
    | .gone => .halt
    | .submit c p => submit c p
    | .worker i p => workerLoop i p
    | .destructor p => destruct p
  entry
    | .worker i => .worker i .test
    | .external _ => .out
    | .destructor => .destructor .idle
  init := { deques := fun _ => [], stop := false, pending := 0, pushed := 0, finished := [], dropped := [] }

theorem taskStep_iff {i : Fin n} {t : Task} {k : Pc n} :
    taskStep i t k = true ↔ (∃ b who, k = .submit (.task i t) (.push b who)) ∨ k = .worker i (.finish t) := by
  rcases k with _ | _ | ⟨_ | _, _ | _⟩ | ⟨_, _ | _ | _ | _ | _ | _ | _ | _ | _⟩ | _ <;> simp [taskStep]

theorem victim_iff {i : Fin n} {m : ℕ} {k : Pc n} :
    victim i m k = true ↔ (∃ v, v ≠ i ∧ k = .worker i (.stealFrom m v)) ∨ k = .worker i (.steal (m + 1)) := by
  rcases k with _ | _ | ⟨_ | _, _ | _⟩ | ⟨_, _ | _ | _ | _ | _ | _ | _ | _ | _⟩ | _ <;> simp [victim]
  all_goals grind

theorem callStep_iff {k : Pc n} :
    callStep k = true ↔ (∃ b who, k = .submit .external (.push b who)) ∨ k = .gone := by
  rcases k with _ | _ | ⟨_ | _, _ | _⟩ | _ | _ <;> simp [callStep]

end TKH.WorkStealing
