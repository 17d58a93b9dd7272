import ThreadingKnowHows.Framework.Journal
import ThreadingKnowHows.Framework.RecursiveMutex

/-!
# A tree with a recursive mutex

`Tree` of `02_cpp11_threads/02_mutex/05_recursive_mutex.cpp`: `recurse` locks
the recursive mutex, increments `count_`, calls itself, and unlocks when its
guard goes out of scope; `run` returns with the outermost of these unlocks.
`count` reads `count_` without the mutex. Any threads make any calls.

Not in the source are `completed`, the runs that have returned, and what is
noted of a call of `count`: how many runs had returned when it began, and in
which state it has read (`Reading`).
-/

namespace TKH.Tree

/-- What a call of `recurse` does next. -/
inductive Frame
  | lock
  /-- `++count_`, and the test of `depth`. -/
  | incr
  | unlock
  deriving DecidableEq

/-- What a call of `count` has read, and when: how many runs had returned when
it began (`first`) and when it read (`at`), and how many increments the run in
progress had made then and had still to make. -/
structure Reading where
  first : ℕ
  atCompleted : ℕ
  made : ℕ
  left : ℕ
  value : ℕ
  deriving DecidableEq

inductive Pc
  | out
  /-- In `recurse(depth)`; `stack` has the arguments of the calls around it. -/
  | recurse (f : Frame) (depth : ℕ) (stack : List ℕ)
  /-- `count` is about to read. -/
  | count (first : ℕ)
  | counted (r : Reading)
  deriving DecidableEq

namespace Pc

/-- How often the thread has locked the mutex. -/
def level : Pc → ℕ
  | recurse .lock _ stack => stack.length
  | recurse _ _ stack => stack.length + 1
  | _ => 0

/-- The increments that the run of the thread has made. -/
def made : Pc → ℕ
  | recurse .unlock depth stack => depth + stack.length + 1
  | recurse _ _ stack => stack.length
  | _ => 0

/-- Those it has still to make, once it has the mutex. -/
def left : Pc → ℕ
  | recurse .lock depth (_ :: _) => depth + 1
  | recurse .incr depth _ => depth + 1
  | _ => 0

/-- The argument of `run`. -/
def running : Pc → List ℕ
  | recurse _ depth stack => [depth + stack.length]
  | _ => []

end Pc

structure State (τ : Type) where
  m : RecursiveMutex τ
  count : ℕ
  pc : τ → Pc
  completed : List (τ × ℕ)

inductive Act (τ : Type)
  | run (t : τ) (depth : ℕ)
  | count (t : τ)
  | step (t : τ)
  /-- `count` returns. -/
  | ret (t : τ)

variable {τ : Type} [DecidableEq τ]

def State.goto (s : State τ) (t : τ) (k : Pc) : State τ := { s with pc := Function.update s.pc t k }

variable [Fintype τ]

/-- `count_` is read. -/
def State.read (s : State τ) (first : ℕ) : Reading :=
  ⟨first, s.completed.length, total Pc.made s.pc, total Pc.left s.pc, s.count⟩

def next (s : State τ) : Act τ → Option (State τ)
  | .run t depth => match s.pc t with
    | .out => some (s.goto t (.recurse .lock depth []))
    | _ => none
  | .count t => match s.pc t with
    | .out => some (s.goto t (.count s.completed.length))
    | _ => none
  | .step t => match s.pc t with
    | .recurse .lock depth stack => (s.m.lock t).map fun m =>
      { s with m := m }.goto t (.recurse .incr depth stack)
    | .recurse .incr depth stack => some ({ s with count := s.count + 1 }.goto t
      (if depth > 0 then .recurse .lock (depth - 1) (depth :: stack) else .recurse .unlock depth stack))
    | .recurse .unlock depth stack => (s.m.unlock t).map fun m => match stack with
      | [] => { s with m := m, completed := s.completed ++ [(t, depth)] }.goto t .out
      | caller :: stack => { s with m := m }.goto t (.recurse .unlock caller stack)
    | .count first => some (s.goto t (.counted (s.read first)))
    | _ => none
  | .ret t => match s.pc t with
    | .counted _ => some (s.goto t .out)
    | _ => none

/-- `++count_` does not overflow. -/
def Defined (s : State τ) : Act τ → Prop
  | .step t => match s.pc t with
    | .recurse .incr _ _ => s.count + 1 < 2 ^ 31
    | _ => True
  | _ => True

variable (τ) in
def tree : System (State τ) (Act τ) where
  start := { m := .free, count := 0, pc := fun _ => .out, completed := [] }
  next := next

/-- The steps of `next`. -/
inductive Step (s : State τ) : Act τ → State τ → Prop
  | run {t : τ} {depth : ℕ} : s.pc t = .out → Step s (.run t depth) (s.goto t (.recurse .lock depth []))
  | count {t : τ} : s.pc t = .out → Step s (.count t) (s.goto t (.count s.completed.length))
  | lock {t : τ} {depth : ℕ} {stack : List ℕ} {m : RecursiveMutex τ} : s.pc t = .recurse .lock depth stack →
    s.m.lock t = some m → Step s (.step t) ({ s with m := m }.goto t (.recurse .incr depth stack))
  | nest {t : τ} {depth : ℕ} {stack : List ℕ} : s.pc t = .recurse .incr (depth + 1) stack →
    Step s (.step t) ({ s with count := s.count + 1 }.goto t (.recurse .lock depth ((depth + 1) :: stack)))
  | bottom {t : τ} {stack : List ℕ} : s.pc t = .recurse .incr 0 stack →
    Step s (.step t) ({ s with count := s.count + 1 }.goto t (.recurse .unlock 0 stack))
  | unwind {t : τ} {depth caller : ℕ} {stack : List ℕ} {m : RecursiveMutex τ} :
    s.pc t = .recurse .unlock depth (caller :: stack) → s.m.unlock t = some m →
    Step s (.step t) ({ s with m := m }.goto t (.recurse .unlock caller stack))
  | finish {t : τ} {depth : ℕ} {m : RecursiveMutex τ} : s.pc t = .recurse .unlock depth [] →
    s.m.unlock t = some m →
    Step s (.step t) ({ s with m := m, completed := s.completed ++ [(t, depth)] }.goto t .out)
  | read {t : τ} {first : ℕ} : s.pc t = .count first → Step s (.step t) (s.goto t (.counted (s.read first)))
  | ret {t : τ} {r : Reading} : s.pc t = .counted r → Step s (.ret t) (s.goto t .out)

theorem step_of_next {s s' : State τ} {a : Act τ} (h : (tree τ).next s a = some s') : Step s a s' := by
  change next s a = some s' at h
  cases a with
  | run t depth | count t | ret t =>
    simp only [next] at h
    split at h <;> cases h
    constructor
    assumption
  | step t =>
    simp only [next] at h
    split at h
    · obtain ⟨m, hm, rfl⟩ := Option.map_eq_some_iff.mp h
      exact .lock ‹_› hm
    · rename_i depth stack hpc
      cases h
      cases depth with
      | zero => exact .bottom hpc
      | succ depth => exact .nest hpc
    · rename_i depth stack hpc
      obtain ⟨m, hm, rfl⟩ := Option.map_eq_some_iff.mp h
      cases stack with
      | nil => exact .finish hpc hm
      | cons caller stack => exact .unwind hpc hm
    · cases h; exact .read ‹_›
    · cases h

end TKH.Tree
