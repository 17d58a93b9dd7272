import Mathlib.Data.Nat.Notation
import Mathlib.Logic.Function.Basic
import ThreadingKnowHows.Framework.System

/-!
# Increments of a shared counter

The three parts of `01_race_condition.cpp`: each of the threads `τ` increments
the counter `c` `iters` times, without synchronisation (`++c` is a load, an
addition and a store), under a mutex, or with an atomic increment.
-/

namespace TKH.RaceCondition

inductive Kind
  | unsynchronized
  | mutex
  | atomic

/-- Where a thread is in the loop with the index `i`; `r` is its register. -/
inductive Loc
  | test (i : ℕ)
  | lock (i : ℕ)
  | load (i : ℕ)
  | add (i r : ℕ)
  | store (i r : ℕ)
  | unlock (i : ℕ)
  | fetchAdd (i : ℕ)
  | done

/-- Where the body of the loop begins. -/
def body (i : ℕ) : Kind → Loc
  | .unsynchronized => .load i
  | .mutex => .lock i
  | .atomic => .fetchAdd i

/-- Where a thread goes after its store. -/
def stored (i : ℕ) : Kind → Loc
  | .mutex => .unlock i
  | _ => .test (i + 1)

variable {τ : Type*}

structure State (τ : Type*) where
  c : ℕ
  owner : Option τ
  th : τ → Loc

variable [DecidableEq τ]

def State.goto (s : State τ) (t : τ) (l : Loc) : State τ := { s with th := Function.update s.th t l }

/-- An action is a step of a thread. -/
def bench (kind : Kind) (iters : ℕ) : System (State τ) τ where
  start := ⟨0, none, fun _ => .test 0⟩
  next s t := match s.th t with
    | .test i => some (s.goto t (if i < iters then body i kind else .done))
    | .lock i => if s.owner.isNone then some ({ s with owner := some t }.goto t (.load i)) else none
    | .load i => some (s.goto t (.add i s.c))
    | .add i r => some (s.goto t (.store i (r + 1)))
    | .store i r => some ({ s with c := r }.goto t (stored i kind))
    | .unlock i => some ({ s with owner := none }.goto t (.test (i + 1)))
    | .fetchAdd i => some ({ s with c := s.c + 1 }.goto t (.test (i + 1)))
    | .done => none

/-- All threads are at their end. -/
def State.Finished (s : State τ) : Prop := ∀ t, s.th t = .done

end TKH.RaceCondition
