import ThreadingKnowHows.ClosableQueue.Fifo
import ThreadingKnowHows.Framework.Commit

/-!
# The blocking bounded queues

`Queue` (`03_patterns/02_producer_consumer.cpp`), `BQ`
(`03_patterns/06_pipeline.cpp`) and `BoundedQueue`
(`02_cpp11_threads/03_condition_variables/02_producer_consumer.cpp`) are one
monitor with a condition variable for the pushers and one for the poppers.
They differ in two things (`Style`): `BoundedQueue` notifies after it has
released the mutex, the others while they hold it; and only `Queue::push`
returns whether it appended.

The threads are the most general client: one that is outside may call any
operation next (`Cmd.ext`), so that the runs are those of all programs of
pushes, pops and closes. Each statement of `push`, `pop` and `close` is a
control point. `hist` is not in the source: it records the operations in the
order of the critical sections in which they take effect.
-/

namespace TKH.ClosableQueue

variable {τ α : Type*}

/-- `cv_full_` (`not_full_`), where pushers wait, and `cv_empty_`
(`not_empty_`), where poppers do. -/
inductive Cv
  | full
  | empty
  deriving DecidableEq

structure Data (τ α : Type*) where
  q : List α
  closed : Bool
  hist : List (τ × Op α × Ret α)

/-- An operation takes effect. -/
def Data.commit (d : Data τ α) (t : τ) (op : Op α) (r : Ret α) : Data τ α :=
  { d with hist := d.hist ++ [(t, op, r)] }

/-- The predicate of the wait in `push`. -/
def mayPush (cap : ℕ) (d : Data τ α) : Bool := d.closed || d.q.length < cap

/-- The predicate of the wait in `pop`. -/
def mayPop (d : Data τ α) : Bool := d.closed || !d.q.isEmpty

/-- Where the three classes differ. -/
structure Style where
  /-- `notify_one` comes after the unlock. -/
  late : Bool
  /-- `push` returns whether it appended. -/
  reports : Bool

/-- What `push` returns. -/
def Style.result (S : Style) (ok : Bool) : Option Bool := if S.reports then some ok else none

inductive PushPc
  | lock
  | test
  | sleep
  | body
  | notify
  | unlock (ok : Bool)
  | notifyLate
  | ret (ok : Bool)

inductive PopPc (α : Type*)
  | lock
  | test
  | sleep
  | body
  | notify (v : α)
  | unlock (r : Option α)
  | notifyLate (v : α)
  | ret (r : Option α)

inductive ClosePc
  | lock
  | set
  | unlock
  | notifyEmpty
  | notifyFull
  | ret

inductive Pc (α : Type*)
  /-- Outside the queue. -/
  | out
  | push (v : α) (p : PushPc)
  | pop (p : PopPc α)
  | close (p : ClosePc)

/-- Back outside. -/
def isOut : Pc α → Bool
  | .out => true
  | _ => false

/-- The start of a call. -/
def isCall : Pc α → Bool
  | .push _ .lock | .pop .lock | .close .lock => true
  | _ => false

def push (S : Style) (cap : ℕ) (t : τ) (v : α) : PushPc → Cmd τ Cv (Data τ α) (Pc α)
  | .lock => .lock (.push v .test)
  | .test => .act fun d => (d, .push v (if mayPush cap d then .body else .sleep))
  | .sleep => .wait .full (.push v .test)
  | .body => .act fun d =>
    if d.closed then (d.commit t (.push v) (.pushed false), .push v (.unlock false))
    else ({ d with q := d.q ++ [v] }.commit t (.push v) (.pushed true),
      .push v (if S.late then .unlock true else .notify))
  | .notify => .notifyOne .empty (.push v (.unlock true))
  | .unlock ok => .unlock (.push v (if S.late && ok then .notifyLate else .ret ok))
  | .notifyLate => .notifyOne .empty (.push v (.ret true))
  | .ret _ => .ext (fun _ => false) isOut

def pop (S : Style) (t : τ) : PopPc α → Cmd τ Cv (Data τ α) (Pc α)
  | .lock => .lock (.pop .test)
  | .test => .act fun d => (d, .pop (if mayPop d then .body else .sleep))
  | .sleep => .wait .empty (.pop .test)
  | .body => .act fun d => match d.q with
    | [] => (d.commit t .pop (.popped none), .pop (.unlock none))
    | v :: vs => ({ d with q := vs }.commit t .pop (.popped (some v)),
      .pop (if S.late then .unlock (some v) else .notify v))
  | .notify v => .notifyOne .full (.pop (.unlock (some v)))
  | .unlock r => .unlock (.pop (match r with
    | some v => if S.late then .notifyLate v else .ret (some v)
    | none => .ret none))
  | .notifyLate v => .notifyOne .full (.pop (.ret (some v)))
  | .ret _ => .ext (fun _ => false) isOut

def close (t : τ) : ClosePc → Cmd τ Cv (Data τ α) (Pc α)
  | .lock => .lock (.close .set)
  | .set => .act fun d => ({ d with closed := true }.commit t .close .closed, .close .unlock)
  | .unlock => .unlock (.close .notifyEmpty)
  | .notifyEmpty => .notifyAll .empty (.close .notifyFull)
  | .notifyFull => .notifyAll .full (.close .ret)
  | .ret => .ext (fun _ => false) isOut

/-- The queue of capacity `cap`, shared by the threads `τ`. -/
def queue (τ α : Type*) (S : Style) (cap : ℕ) : Program τ Cv (Data τ α) (Pc α) where
  code t
    | .out => .ext (fun _ => false) isCall
    | .push v p => push S cap t v p
    | .pop p => pop S t p
    | .close p => close t p
  entry _ := .out
  init := { q := [], closed := false, hist := [] }

/-- `03_patterns/02_producer_consumer.cpp`. -/
def Queue : Style where
  late := false
  reports := true

/-- `03_patterns/06_pipeline.cpp`. -/
def BQ : Style where
  late := false
  reports := false

/-- `02_cpp11_threads/03_condition_variables/02_producer_consumer.cpp`. -/
def BoundedQueue : Style where
  late := true
  reports := false

/-! ## The mutex and the wait predicates -/

def PushPc.held : PushPc → Bool
  | .test | .sleep | .body | .notify | .unlock _ => true
  | _ => false

def PopPc.held : PopPc α → Bool
  | .test | .sleep | .body | .notify _ | .unlock _ => true
  | _ => false

def ClosePc.held : ClosePc → Bool
  | .set | .unlock => true
  | _ => false

/-- Where a thread holds the mutex `m_`. -/
def held : Pc α → Bool
  | .out => false
  | .push _ p => p.held
  | .pop p => p.held
  | .close p => p.held

/-- What a thread that holds the mutex has just tested. -/
def tested (cap : ℕ) (l : Pc α) (d : Data τ α) : Prop :=
  match l with
  | .push _ .sleep => mayPush cap d = false
  | .push _ .body => mayPush cap d = true
  | .pop .sleep => mayPop d = false
  | .pop .body => mayPop d = true
  | _ => True

theorem isOut_iff {k : Pc α} : isOut k = true ↔ k = .out := by
  cases k <;> simp [isOut]

theorem isCall_iff {k : Pc α} :
    isCall k = true ↔ (∃ v, k = .push v .lock) ∨ k = .pop .lock ∨ k = .close .lock := by
  cases k with
  | out => simp [isCall]
  | push v p => cases p <;> simp [isCall]
  | pop p => cases p <;> simp [isCall]
  | close p => cases p <;> simp [isCall]

theorem held_of_isCall {k : Pc α} (h : isCall k = true) : held k = false := by
  rcases isCall_iff.mp h with ⟨v, rfl⟩ | rfl | rfl <;> rfl

theorem held_of_isOut {k : Pc α} (h : isOut k = true) : held k = false := by
  rw [isOut_iff.mp h]; rfl

variable {S : Style} {cap : ℕ}

theorem push_holds (t : τ) (v : α) (p : PushPc) : (push S cap t v p).Holds held (.push v p) := by
  cases p with
  | test => intro d; simp only [held]; split <;> rfl
  | body => intro d; dsimp only; split <;> [rfl; (cases S.late <;> rfl)]
  | unlock ok => cases hS : S.late <;> cases ok <;> simp [push, Cmd.Holds, held, PushPc.held, hS]
  | ret ok => exact ⟨rfl, fun k => held_of_isOut⟩
  | _ => simp [push, Cmd.Holds, held, PushPc.held]

theorem pop_holds (t : τ) (p : PopPc α) : (pop S t p).Holds held (.pop p) := by
  cases p with
  | test => intro d; simp only [held]; split <;> rfl
  | body => intro d; dsimp only; split <;> [rfl; (cases S.late <;> rfl)]
  | unlock r => cases hS : S.late <;> cases r <;> simp [pop, Cmd.Holds, held, PopPc.held, hS]
  | ret r => exact ⟨rfl, fun k => held_of_isOut⟩
  | _ => simp [pop, Cmd.Holds, held, PopPc.held]

theorem close_holds (t : τ) (p : ClosePc) :
    (close t p : Cmd τ Cv (Data τ α) (Pc α)).Holds held (.close p) := by
  cases p with
  | set => exact fun _ => rfl
  | ret => exact ⟨rfl, fun k => held_of_isOut⟩
  | _ => simp [close, Cmd.Holds, held, ClosePc.held]

theorem queue_discipline : Discipline (queue τ α S cap) held where
  entry _ := rfl
  code t l := by
    cases l with
    | out => exact ⟨rfl, fun k => held_of_isCall⟩
    | push v p => exact push_holds t v p
    | pop p => exact pop_holds t p
    | close p => exact close_holds t p

theorem push_keeps (t : τ) (v : α) (p : PushPc) :
    (push S cap t v p).Keeps held (fun _ => True) (tested cap) (.push v p) := by
  cases p with
  | test =>
    refine fun d => ⟨fun _ _ => ?_, fun h => by cases h⟩
    cases h : mayPush cap d <;> simp [tested, h]
  | body =>
    refine fun d => ⟨fun _ _ => ?_, fun h => by cases h⟩
    dsimp only
    split <;> [trivial; (cases S.late <;> trivial)]
  | _ => simp [push, Cmd.Keeps, tested]

theorem pop_keeps (t : τ) (p : PopPc α) :
    (pop S t p).Keeps held (fun _ => True) (tested cap) (.pop p) := by
  cases p with
  | test =>
    refine fun d => ⟨fun _ _ => ?_, fun h => by cases h⟩
    cases h : mayPop d <;> simp [tested, h]
  | body =>
    refine fun d => ⟨fun _ _ => ?_, fun h => by cases h⟩
    dsimp only
    split <;> [trivial; (cases S.late <;> trivial)]
  | _ => simp [pop, Cmd.Keeps, tested]

theorem close_keeps (t : τ) (p : ClosePc) :
    (close t p : Cmd τ Cv (Data τ α) (Pc α)).Keeps held (fun _ => True) (tested cap) (.close p) := by
  cases p <;> simp [close, Cmd.Keeps, tested, held, ClosePc.held]

theorem queue_annotation : Annotation (queue τ α S cap) held (fun _ => True) (tested cap) where
  toDiscipline := queue_discipline
  init := trivial
  keeps t l := by
    cases l with
    | out => trivial
    | push v p => exact push_keeps t v p
    | pop p => exact pop_keeps t p
    | close p => exact close_keeps t p

end TKH.ClosableQueue
