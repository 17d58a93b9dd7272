import ThreadingKnowHows.Framework.Team

/-!
# Parallel loops

The two loops of `main` in `06_openmp/02_for_loop.c`, with the schedules `static`
and `dynamic` of any chunk size, and the one of `06_openmp/05_reduction.c`, on any
schedule. Which iterations a thread gets from the static schedule is left to
the implementation.
-/

namespace TKH.OpenMP

variable {τ : Type} [DecidableEq τ]

/-! ## `02_for_loop.c` -/

/-- `who[i] = omp_get_thread_num()` -/
def whoLoop (share : τ → List ℕ) (queue : List (List ℕ)) (who : ℕ → τ) : Team.Loop τ ℕ (ℕ → τ) where
  share := share
  queue := queue
  body t i who := Function.update who i t
  leave _ who := who
  init := who

/-- `schedule(static)` -/
def forStatic (share : τ → List ℕ) (who : ℕ → τ) : Team.Loop τ ℕ (ℕ → τ) := whoLoop share [] who

/-- The `k`-th chunk of `c` of the iterations below `N`; the last one may be
shorter. -/
def chunk (N c k : ℕ) : List ℕ := List.range' (c * k) (min c (N - c * k))

def chunks (N c : ℕ) : List (List ℕ) := (List.range ((N + c - 1) / c)).map (chunk N c)

/-- `schedule(dynamic, c)` -/
def forDynamic (N c : ℕ) (who : ℕ → τ) : Team.Loop τ ℕ (ℕ → τ) := whoLoop (fun _ => []) (chunks N c) who

/-! ## `05_reduction.c` -/

structure SumMax where
  sum : ℤ
  vmax : ℤ
  deriving DecidableEq

/-- `sum` is added to, and `vmax` replaced if the other one is greater. -/
def SumMax.combine (a b : SumMax) : SumMax where
  sum := a.sum + b.sum
  vmax := if b.vmax > a.vmax then b.vmax else a.vmax

/-- What an iteration contributes: `i` and `(int)i`. -/
def iteration (i : ℕ) : SumMax := { sum := i, vmax := (i : ℤ).bmod (2 ^ 32) }

/-- `reduction(+:sum) reduction(max:vmax)`: the private copies start with 0 and
with the least `int`. -/
def sumMax (share : τ → List ℕ) (queue : List (List ℕ)) : Team.Loop τ ℕ (Team.Vars τ SumMax) :=
  Team.reduction share queue .combine { sum := 0, vmax := -2 ^ 31 } { sum := 0, vmax := 0 } iteration

end TKH.OpenMP
