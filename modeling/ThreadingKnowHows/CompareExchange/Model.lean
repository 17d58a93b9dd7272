import ThreadingKnowHows.Framework.CasLoop
import ThreadingKnowHows.Framework.Long

/-!
# Loops around a compare-exchange

`my_add` and `atomic_max` of `02_cpp11_threads/04_atomics/04_compare_exchange.cpp`:
a relaxed load, and a `compare_exchange_weak` until it succeeds. `my_add` adds
to whatever it has seen; `atomic_max` leaves once it has seen a value that is
not below its candidate.
-/

namespace TKH.CompareExchange

/-- `old + delta`, which must not overflow, is the new value. -/
def addDelta (delta old : Long) : Attempt Long :=
  match old.add delta with
  | some desired => .swap desired
  | none => .undefined

/-- `candidate > current`, and the candidate is the new value. -/
def raiseTo (candidate current : Long) : Attempt Long :=
  if candidate > current then .swap candidate else .leave

variable (τ : Type) [DecidableEq τ]

/-- The threads `τ` call `my_add(a, delta)`, where `a` is `v₀` at first. -/
def myAdd (v₀ : Long) : System (CasState τ Long Long) (CasAct τ Long) := casLoop addDelta v₀

/-- The threads `τ` call `atomic_max(a, candidate)`. -/
def atomicMax (v₀ : Long) : System (CasState τ Long Long) (CasAct τ Long) := casLoop raiseTo v₀

end TKH.CompareExchange
