import ThreadingKnowHows.Framework.Mutexes
import ThreadingKnowHows.Framework.WaitFor

/-!
# Deadlocks and the third cure

`bad_a` and `bad_b` of `01_pthreads/02_mutex/05_deadlock_demo.c`, which lock two
mutexes in opposite orders; the two threads of `deadlock_demo` of
`04_pitfalls/02_deadlock.cpp` do the same with guards, which unlock in reverse.

`cure_try_lock` of `04_pitfalls/02_deadlock.cpp`: threads that try the first
mutex and then the second, and release the first when the second is taken. The
first cure is in `OrderedLocking`.
-/

namespace TKH.Deadlock

/-! ## Opposite orders -/

section

variable {A : Type}

def badA (m1 m2 : A) : List (LockOp A) := [.lock m1, .lock m2, .unlock m2, .unlock m1]

def badB (m1 m2 : A) : List (LockOp A) := [.lock m2, .lock m1, .unlock m1, .unlock m2]

/-- The thread `false` runs `bad_a`, and `true` runs `bad_b`. -/
def deadlockRun [DecidableEq A] (m1 m2 : A) : System (LockState Bool A) Bool :=
  lockSystem fun t => if t then badB m1 m2 else badA m1 m2

end

/-! ## Trying -/

/-- `m1` is `false`, and `m2` is `true`. -/
abbrev Mutex := Bool

/-- Where a thread is in `take_with_backoff`. -/
inductive Pc
  /-- `unique_lock l1(m1, try_to_lock)` -/
  | tryFirst
  /-- `unique_lock l2(m2, try_to_lock)` -/
  | trySecond
  /-- `l1.unlock()` -/
  | backOff
  /-- `return`: the locks are released in reverse order. -/
  | leaveSecond
  | leaveFirst
  | done
  deriving DecidableEq

def takeWithBackoff : Pc → Mutexes.Cmd Mutex Unit Pc
  | .tryFirst => .tryLock false .trySecond .tryFirst
  | .trySecond => .tryLock true .leaveSecond .backOff
  | .backOff => .unlock false .tryFirst
  | .leaveSecond => .unlock true .leaveFirst
  | .leaveFirst => .unlock false .done
  | .done => .halt

/-- The threads of `cure_try_lock`. -/
def cureTryLock (τ : Type) : Mutexes.Program τ Mutex Unit Pc where
  code _ := takeWithBackoff
  entry _ := .tryFirst
  init := ()

variable {τ : Type}

abbrev State (τ : Type) := Mutexes.State τ Mutex Unit Pc

def Finished (s : State τ) : Prop := (∀ t, s.pc t = .done) ∧ ∀ a, s.owner a = none

/-- A `try_lock` fails only if the mutex is taken. -/
def Genuine (s : State τ) : Mutexes.Act τ → Prop
  | .fail t => (s.pc t = .tryFirst → s.owner false ≠ none) ∧ (s.pc t = .trySecond → s.owner true ≠ none)
  | _ => True

instance [DecidableEq τ] (s : State τ) : ∀ a, Decidable (Genuine s a)
  | .fail _ => inferInstanceAs (Decidable (_ ∧ _))
  | .exec _ | .choose _ _ => isTrue trivial

/-- A `try_lock` that fails while another thread has the mutex; the thread tries
`m1`. -/
def Waiting (s : State τ) : Mutexes.Act τ → Prop
  | .fail t => s.pc t = .tryFirst ∧ ∃ u ≠ t, s.owner false = some u
  | _ => False

end TKH.Deadlock
