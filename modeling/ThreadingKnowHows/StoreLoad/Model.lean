import Mathlib.Algebra.Ring.Int.Defs
import ThreadingKnowHows.Framework.StoreBuffer

/-!
# The store and load litmus test

`run_once` of `06_store_load_reorder.cpp`, and the round of `01_seq_cst.cpp`:
main sets `x` and `y` to 0 and creates two threads; each stores 1 to its own
variable and loads the other one; main joins them and counts the round if both
loads returned 0. `mo₀` is the order of main's stores and `mo` that of the
threads' stores. The machine is the one with store buffers; creating a thread
and joining it wait until the stores before are in memory.
-/

namespace TKH.StoreLoad

inductive Var | x | y
  deriving DecidableEq

inductive Thread | main | t1 | t2
  deriving DecidableEq

inductive MemoryOrder | relaxed | seqCst
  deriving DecidableEq

/-- `v.store(n, mo)`. A seq_cst store is followed by a full fence. -/
def store (v : Var) (n : ℤ) : MemoryOrder → List (Instr Var ℤ)
  | .relaxed => [.store v n]
  | .seqCst => [.store v n, .fence]

/-- What the threads of a round do. -/
def code (mo₀ mo : MemoryOrder) : Thread → List (Instr Var ℤ)
  | .main => store .x 0 mo₀ ++ store .y 0 mo₀
  | .t1 => store .x 1 mo ++ [.load .y]
  | .t2 => store .y 1 mo ++ [.load .x]

/-- Between rounds, while main resets the variables, while the threads run. -/
inductive Phase | next | reset | race
  deriving DecidableEq

structure State where
  i : ℕ
  zeros : ℕ
  r1 : ℤ
  r2 : ℤ
  phase : Phase
  m : Tso Thread Var ℤ

/-- The machine when the threads in `on` are about to run. -/
def load (mo₀ mo : MemoryOrder) (mem : Var → ℤ) (on : Thread → Bool) : Tso Thread Var ℤ where
  mem := mem
  buf _ := []
  todo t := if on t then code mo₀ mo t else []
  got _ := []

/-- The thread is at its end, and its stores are in memory. -/
def idle (m : Tso Thread Var ℤ) (t : Thread) : Bool := (m.todo t).isEmpty && (m.buf t).isEmpty

/-- `r1` and `r2` after the round. -/
def result (s : State) : ℤ × ℤ := ((s.m.got .t1).getLastD s.r1, (s.m.got .t2).getLastD s.r2)

inductive Act
  | enter
  | machine (a : Tso.Act Thread)
  | create
  | join

/-- `runs` rounds. -/
def test (mo₀ mo : MemoryOrder) (runs : ℕ) : System State Act where
  start := ⟨0, 0, 0, 0, .next, load mo₀ mo (fun _ => 0) fun _ => false⟩
  next s
    | .enter =>
      if s.phase = .next ∧ s.i < runs then
        some { s with phase := .reset, m := load mo₀ mo s.m.mem (· == .main) }
      else none
    | .machine a => (s.m.next a).map fun m => { s with m := m }
    | .create =>
      if s.phase = .reset ∧ idle s.m .main then
        some { s with phase := .race, m := load mo₀ mo s.m.mem (· != .main) }
      else none
    | .join =>
      if s.phase = .race ∧ idle s.m .t1 ∧ idle s.m .t2 then
        some { s with
          i := s.i + 1
          zeros := s.zeros + (result s == (0, 0)).toNat
          r1 := (result s).1
          r2 := (result s).2
          phase := .next }
      else none

/-- The results of the rounds. -/
def output (s : State) : Act → List (ℤ × ℤ)
  | .join => [result s]
  | _ => []

end TKH.StoreLoad
