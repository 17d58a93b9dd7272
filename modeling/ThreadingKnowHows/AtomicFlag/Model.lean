import Mathlib.Data.Fintype.Defs
import Mathlib.Logic.Function.Basic
import ThreadingKnowHows.Framework.Trace

/-!
# A spinlock around an increment

`Spinlock` and `main` of `02_cpp11_threads/04_atomics/02_atomic_flag.cpp`: any
threads, each of which locks, increments `n` and unlocks for a number of rounds
of its own. `test_and_set` and `clear` are single steps; `++n`, which is not
atomic, is a read and a write.
-/

namespace TKH.AtomicFlag

/-- Where a thread is in its loop, and how many rounds come after this one. -/
inductive Pc
  /-- About to `test_and_set`. -/
  | lock (more : ℕ)
  | read (more : ℕ)
  /-- `++n`, having read `v`. -/
  | write (more v : ℕ)
  /-- About to `clear`. -/
  | unlock (more : ℕ)
  | done
  deriving DecidableEq

/-- The head of the loop. -/
def loop : ℕ → Pc
  | 0 => .done
  | more + 1 => .lock more

structure State (τ : Type) where
  flag : Bool
  n : ℕ
  pc : τ → Pc

variable {τ : Type} [DecidableEq τ]

def State.goto (s : State τ) (t : τ) (k : Pc) : State τ := { s with pc := Function.update s.pc t k }

/-- The next step of `t`. -/
def next (s : State τ) (t : τ) : Option (State τ) :=
  match s.pc t with
  | .lock more => some ({ s with flag := true }.goto t (if s.flag then .lock more else .read more))
  | .read more => some (s.goto t (.write more s.n))
  | .write more v => some ({ s with n := v + 1 }.goto t (.unlock more))
  | .unlock more => some ({ s with flag := false }.goto t (loop more))
  | .done => none

def spinlock (rounds : τ → ℕ) : System (State τ) τ where
  start := { flag := false, n := 0, pc := fun t => loop (rounds t) }
  next := next

/-- The increments: the writes of `n`. -/
def writes (s : State τ) (t : τ) : List τ :=
  match s.pc t with
  | .write _ _ => [t]
  | _ => []

/-- The steps of `next`. -/
inductive Step (s : State τ) : τ → State τ → Prop
  | spin {t : τ} {more : ℕ} : s.pc t = .lock more → s.flag = true → Step s t s
  | enter {t : τ} {more : ℕ} : s.pc t = .lock more → s.flag = false →
    Step s t ({ s with flag := true }.goto t (.read more))
  | read {t : τ} {more : ℕ} : s.pc t = .read more → Step s t (s.goto t (.write more s.n))
  | write {t : τ} {more v : ℕ} : s.pc t = .write more v → Step s t ({ s with n := v + 1 }.goto t (.unlock more))
  | clear {t : τ} {more : ℕ} : s.pc t = .unlock more → Step s t ({ s with flag := false }.goto t (loop more))

theorem step_of_next {s s' : State τ} {t : τ} (h : next s t = some s') : Step s t s' := by
  simp only [next] at h
  split at h
  · rename_i more hpc
    cases h
    cases hflag : s.flag with
    | true =>
      rw [if_pos rfl, ← hflag, State.goto, ← hpc, Function.update_eq_self]
      exact .spin hpc hflag
    | false => exact .enter hpc hflag
  · cases h; exact .read ‹_›
  · cases h; exact .write ‹_›
  · cases h; exact .clear ‹_›
  · cases h

end TKH.AtomicFlag
