import Mathlib.Algebra.Ring.Int.Defs
import ThreadingKnowHows.Framework.Tasks

/-!
# Fibonacci numbers with tasks

`fib` and `main` of `06_openmp/06_tasks.c`, for any `n` in place of 20 and a
`long` of any width `w`. The first task is the body of `single`, which any
thread of the team may get to first. Each task makes one call of `fib` and
assigns what it returns: the first task to `r`, and the two that a call creates
to the variables `a` and `b` of that call, which they share with it; `n` is
their own. Variables other than `r` are not initialised.
-/

namespace TKH.FibTasks

/-- The variables of `main` and of the calls; a call is known by its task. -/
inductive Var
  | r
  | a (call : TaskId)
  | b (call : TaskId)
  deriving DecidableEq

/-- Where a task is in its call. -/
inductive Pc
  | test
  | taskA
  | taskB
  | taskwait
  | sum
  /-- The call has returned `v`. -/
  | assign (v : ℤ)
  | done
  deriving DecidableEq

/-- A task assigns `x = fib(n)`. -/
structure Point where
  x : Var
  n : ℤ
  pc : Pc

/-- `v` is in the range of `long`. -/
def Fits (w : ℕ) (v : ℤ) : Prop := -2 ^ (w - 1) ≤ v ∧ v < 2 ^ (w - 1)

instance (w : ℕ) (v : ℤ) : Decidable (Fits w v) := inferInstanceAs (Decidable (_ ∧ _))

/-- `a + b`, which overflow leaves undefined. -/
def add (w : ℕ) (a b : ℤ) : Option ℤ := if Fits w (a + b) then some (a + b) else none

abbrev Vars := Var → Option ℤ

def Point.goto (l : Point) (pc : Pc) : Point := { l with pc := pc }

/-- The task `p` at `l`. -/
def fib (w : ℕ) (p : TaskId) (l : Point) : Tasks.Cmd Vars Point :=
  match l.pc with
  | .test => .act fun d => some (d, l.goto (if l.n < 2 then .assign l.n else .taskA))
  | .taskA => .create ⟨.a p, l.n - 1, .test⟩ (l.goto .taskB)
  | .taskB => .create ⟨.b p, l.n - 2, .test⟩ (l.goto .taskwait)
  | .taskwait => .taskwait (l.goto .sum)
  | .sum => .act fun d => do
    let a ← d (.a p)
    let b ← d (.b p)
    let v ← add w a b
    some (d, l.goto (.assign v))
  | .assign v => .act fun d => some (Function.update d l.x (some v), l.goto .done)
  | .done => .complete

/-- `long r = 0`. -/
def init : Vars
  | .r => some 0
  | .a _ | .b _ => none

def main (w : ℕ) (n : ℤ) : Tasks.Program Vars Point where
  code := fib w
  entry := ⟨.r, n, .test⟩
  init := init

/-- `fib` without tasks. -/
def serialFib (n : ℤ) : ℤ := if n < 2 then n else serialFib (n - 1) + serialFib (n - 2)
  termination_by n.toNat
  decreasing_by all_goals omega

/-! ## Events -/

inductive Event
  | assign (task : TaskId) (x : Var) (v : ℤ)
  /-- A call evaluates `a + b`. -/
  | sum (call : TaskId)
  deriving DecidableEq

variable {τ : Type} [DecidableEq τ]

abbrev State (τ : Type) := Tasks.State τ Vars Point

omit [DecidableEq τ] in
def pcAt (s : State τ) (p : TaskId) : Option Pc := (s.task p).map fun T => T.point.pc

/-- The assignments and the sums. -/
def events (s : State τ) : Tasks.Act τ → List Event
  | .start _ _ => []
  | .exec _ p => match s.task p with
    | some T => match T.point.pc with
      | .assign v => [.assign p T.point.x v]
      | .sum => [.sum p]
      | _ => []
    | none => []

def Event.variable : Event → Option Var
  | assign _ x _ => some x
  | sum _ => none

/-- The variables that have been assigned. -/
def assigned (es : List Event) : List Var := es.filterMap Event.variable

end TKH.FibTasks
