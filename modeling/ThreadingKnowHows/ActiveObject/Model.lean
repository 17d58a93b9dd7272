import Mathlib.Data.Fintype.Sum
import ThreadingKnowHows.Framework.Local

/-!
# The active object

`Account` of `03_patterns/05_active_object.cpp`: the public calls post requests
to a queue, and one worker executes them. A client makes any calls, one after
another, and may wait for any of the futures that it has got, also while the
object is being destroyed (`js` lists its futures). Balances are integers.

A request is known by its number, and so is its promise. `posted` and `values`
are not in the source: the requests in the order in which they were pushed, and
the values that promises were set to.
-/

namespace TKH.ActiveObject

/-- The public calls. -/
inductive Op
  | deposit (amount : ℤ)
  | withdraw (amount : ℤ)
  | getBalance
  deriving DecidableEq

/-- The value of a future. -/
inductive Ret
  | unit
  | ok (b : Bool)
  | balance (v : ℤ)
  deriving DecidableEq

inductive Thread (E : Type)
  | worker
  | client (e : E)
  | destructor
  deriving DecidableEq

instance {E : Type} [DecidableEq E] [Fintype E] : Fintype (Thread E) :=
  Fintype.ofSurjective (α := Unit ⊕ E ⊕ Unit)
    (fun
      | .inl () => .worker
      | .inr (.inl e) => .client e
      | .inr (.inr ()) => .destructor)
    fun
      | .worker => ⟨.inl (), rfl⟩
      | .client e => ⟨.inr (.inl e), rfl⟩
      | .destructor => ⟨.inr (.inr ()), rfl⟩

/-- The condition variable `cv_`. -/
inductive Cv
  | cv
  deriving DecidableEq

/-- A posted function: the call it executes, and the promise it sets. -/
structure Request (E : Type) where
  id : ℕ
  caller : Thread E
  op : Op
  deriving DecidableEq

structure Data (E : Type) where
  balance : ℤ
  q : List (Request E)
  done : Bool
  posted : List (Request E)
  values : List (Request E × Ret)

inductive PostPc
  | lock
  | push
  | unlock (j : ℕ)
  | notify (j : ℕ)
  | ret (j : ℕ)
  deriving DecidableEq

inductive WorkerPc (E : Type)
  | lock
  | test
  | sleep
  | body
  | unlock (r : Request E)
  /-- `job()`, up to its `set_value`. -/
  | job (r : Request E)
  | setValue (r : Request E) (v : Ret)
  | leave
  | returned
  /-- `front()` of an empty queue (never reached). -/
  | undefined
  deriving DecidableEq

inductive DestructorPc
  | idle
  | lock
  | set
  | unlock
  | notify
  | join
  | returned
  deriving DecidableEq

inductive Pc (E : Type)
  /-- A client between its calls. -/
  | out (js : List ℕ)
  | post (js : List ℕ) (op : Op) (p : PostPc)
  /-- The client waits for the future of the request `j`. -/
  | await (js : List ℕ) (j : ℕ)
  | worker (p : WorkerPc E)
  | destructor (p : DestructorPc)
  deriving DecidableEq

variable {E : Type}

/-- The predicate of the wait in `run`. -/
def mayTake (d : Data E) : Bool := d.done || !d.q.isEmpty

/-- The promise of the request `j` has been set. -/
def ready (d : Data E) (j : ℕ) : Bool := d.values.any fun x => x.1.id = j

/-- What a client may do next. -/
def clientStep (js : List ℕ) : Pc E → Bool
  | .post ks _ .lock => ks = js
  | .await ks j => ks = js ∧ j ∈ js
  | _ => false

def isOut (js : List ℕ) : Pc E → Bool
  | .out ks => ks = js
  | _ => false

/-- `deposit`, `withdraw` and `get_balance`, by way of `post`. -/
def post (t : Thread E) (js : List ℕ) (op : Op) : PostPc → Cmd (Thread E) Cv (Data E) (Pc E)
  | .lock => .lock (.post js op .push)
  | .push => .act fun d =>
    ({ d with
      q := d.q ++ [⟨d.posted.length, t, op⟩]
      posted := d.posted ++ [⟨d.posted.length, t, op⟩] }, .post js op (.unlock d.posted.length))
  | .unlock j => .unlock (.post js op (.notify j))
  | .notify j => .notifyOne .cv (.post js op (.ret j))
  | .ret j => .ext (fun _ => false) (isOut (js ++ [j]))

def run : WorkerPc E → Cmd (Thread E) Cv (Data E) (Pc E)
  | .lock => .lock (.worker .test)
  | .test => .act fun d => (d, .worker (if mayTake d then .body else .sleep))
  | .sleep => .wait .cv (.worker .test)
  | .body => .act fun d => match d.q with
    | [] => (d, .worker (if d.done then .leave else .undefined))
    | r :: rs => ({ d with q := rs }, .worker (.unlock r))
  | .unlock r => .unlock (.worker (.job r))
  | .job r => .act fun d => match r.op with
    | .deposit amount => ({ d with balance := d.balance + amount }, .worker (.setValue r .unit))
    | .withdraw amount =>
      if d.balance ≥ amount then ({ d with balance := d.balance - amount }, .worker (.setValue r (.ok true)))
      else (d, .worker (.setValue r (.ok false)))
    | .getBalance => (d, .worker (.setValue r (.balance d.balance)))
  | .setValue r v => .act fun d => ({ d with values := d.values ++ [(r, v)] }, .worker .lock)
  | .leave => .unlock (.worker .returned)
  | .returned => .halt
  | .undefined => .act fun d => (d, .worker .undefined)

def isWorker : Thread E → Bool
  | .worker => true
  | _ => false

def destruct : DestructorPc → Cmd (Thread E) Cv (Data E) (Pc E)
  | .idle => .ext (fun _ => false) fun k => match k with
    | .destructor .lock => true
    | _ => false
  | .lock => .lock (.destructor .set)
  | .set => .act fun d => ({ d with done := true }, .destructor .unlock)
  | .unlock => .unlock (.destructor .notify)
  | .notify => .notifyAll .cv (.destructor .join)
  | .join => .join isWorker (.destructor .returned)
  | .returned => .halt

/-- An account with the clients `E`. -/
def account (E : Type) : Program (Thread E) Cv (Data E) (Pc E) where
  code t
    | .out js => .ext (fun _ => false) (clientStep js)
    | .post js op p => post t js op p
    | .await js j => .pick fun d k => ready d j && isOut js k
    | .worker p => run p
    | .destructor p => destruct p
  entry
    | .worker => .worker .lock
    | .client _ => .out []
    | .destructor => .destructor .idle
  init := { balance := 0, q := [], done := false, posted := [], values := [] }

/-- A client is inside a public call. -/
def inCall : Pc E → Bool
  | .post _ _ _ => true
  | _ => false

/-- The destructor starts after every public call has returned. -/
def Proper (s : State (Thread E) Cv (Data E) (Pc E)) : Act (Thread E) (Pc E) → Prop
  | .ext _ k =>
    (inCall k = true → (s.th .destructor).point = .destructor .idle) ∧
    (k = .destructor .lock → ∀ e, inCall (s.th (.client e)).point = false)
  | _ => True

instance [DecidableEq E] [Fintype E] (s : State (Thread E) Cv (Data E) (Pc E)) : ∀ a, Decidable (Proper s a)
  | .ext _ k => inferInstanceAs (Decidable (
    (inCall k = true → (s.th .destructor).point = .destructor .idle) ∧
    (k = .destructor .lock → ∀ e, inCall (s.th (.client e)).point = false)))
  | .exec _ | .wake _ _ | .pick _ _ | .relock _ | .spurious _ => isTrue trivial

/-! ## The mutex -/

/-- Where a thread holds the mutex `m_`. -/
def held : Pc E → Bool
  | .post _ _ p => match p with
    | .push | .unlock _ => true
    | _ => false
  | .worker p => match p with
    | .test | .sleep | .body | .unlock _ | .leave | .undefined => true
    | _ => false
  | .destructor p => match p with
    | .set | .unlock => true
    | _ => false
  | _ => false

/-- What a thread that holds the mutex knows. -/
def tested (l : Pc E) (d : Data E) : Prop :=
  match l with
  | .worker .sleep => mayTake d = false
  | .worker .body => mayTake d = true
  | .worker .leave => d.done = true ∧ d.q = []
  | .worker .undefined => False
  | _ => True

theorem mayTake_eq_false {d : Data E} : mayTake d = false ↔ d.done = false ∧ d.q = [] := by
  simp [mayTake]

theorem done_of_mayTake {d : Data E} (h : mayTake d = true) (hq : d.q = []) : d.done = true := by
  simpa [mayTake, hq] using h

theorem clientStep_iff {js : List ℕ} {k : Pc E} :
    clientStep js k = true ↔ (∃ op, k = .post js op .lock) ∨ ∃ j ∈ js, k = .await js j := by
  rcases k with _ | ⟨ks, op, _ | _ | _ | _ | _⟩ | _ | _ | _ <;> simp [clientStep]
  grind

theorem isOut_iff {js : List ℕ} {k : Pc E} : isOut js k = true ↔ k = .out js := by
  cases k <;> simp [isOut]

theorem destruct_idle_iff {k : Pc E} :
    (match k with
      | .destructor .lock => true
      | _ => false) = true ↔ k = .destructor .lock := by
  rcases k with _ | _ | _ | _ | (_ | _ | _ | _ | _ | _ | _) <;> simp

theorem account_discipline : Discipline (account E) held where
  entry t := by cases t <;> rfl
  code t l := by
    cases l with
    | out js => exact ⟨rfl, fun k hk => by rcases clientStep_iff.mp hk with ⟨op, rfl⟩ | ⟨j, -, rfl⟩ <;> rfl⟩
    | post js op p =>
      cases p with
      | lock | unlock => exact ⟨rfl, rfl⟩
      | push => exact fun d => rfl
      | notify j => rfl
      | ret j => exact ⟨rfl, fun k hk => by rw [isOut_iff.mp hk]; rfl⟩
    | await js j => exact ⟨rfl, fun d k hk => by rw [isOut_iff.mp (Bool.and_eq_true_iff.mp hk).2]; rfl⟩
    | worker p =>
      cases p with
      | lock | sleep | unlock | leave => exact ⟨rfl, rfl⟩
      | test => intro d; dsimp only; split <;> rfl
      | body => intro d; dsimp only; split <;> [(split <;> rfl); rfl]
      | job r => intro d; dsimp only; split <;> [rfl; (split <;> rfl); rfl]
      | setValue | undefined => exact fun d => rfl
      | returned => rfl
    | destructor p =>
      cases p with
      | idle => exact ⟨rfl, fun k hk => by rw [destruct_idle_iff.mp hk]; rfl⟩
      | lock | unlock | join => exact ⟨rfl, rfl⟩
      | set => exact fun d => rfl
      | notify | returned => rfl

theorem account_annotation : Annotation (account E) held (fun _ => True) tested where
  toDiscipline := account_discipline
  init := trivial
  keeps t l := by
    cases l with
    | out | await => trivial
    | post js op p =>
      cases p with
      | lock | unlock => exact fun _ _ => trivial
      | push => exact fun d => ⟨fun _ _ => trivial, fun h => by cases h⟩
      | notify => exact fun h => by cases h
      | ret => trivial
    | worker p =>
      cases p with
      | lock | unlock | leave => exact fun _ _ => trivial
      | test =>
        refine fun d => ⟨fun _ _ => ?_, fun h => by cases h⟩
        cases ht : mayTake d <;> simp [tested, ht]
      | sleep => exact fun d => ⟨fun _ => trivial, fun _ => trivial⟩
      | body =>
        refine fun d => ⟨fun _ h => ?_, fun h => by cases h⟩
        dsimp only
        split
        · rename_i hq
          have hs := done_of_mayTake h hq
          rw [if_pos hs]
          exact ⟨hs, hq⟩
        · trivial
      | job r =>
        refine fun d => ⟨fun h => (by cases h), fun _ => ⟨id, fun l' _ h => ?_⟩⟩
        dsimp only
        split <;> [exact h; (split <;> exact h); exact h]
      | setValue r v => exact fun d => ⟨fun h => (by cases h), fun _ => ⟨id, fun _ _ h => h⟩⟩
      | returned => trivial
      | undefined => exact fun d => ⟨fun _ => id, fun h => by cases h⟩
    | destructor p =>
      cases p with
      | idle | join | returned => trivial
      | lock | unlock => exact fun _ _ => trivial
      | set => exact fun d => ⟨fun _ _ => trivial, fun h => by cases h⟩
      | notify => exact fun h => by cases h

end TKH.ActiveObject
