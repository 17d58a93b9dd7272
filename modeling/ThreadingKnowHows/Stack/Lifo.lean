import Mathlib.Algebra.Order.Group.Multiset
import ThreadingKnowHows.Framework.Object

/-!
# The LIFO stack

What a stack is for. A pop takes what was pushed last, or gets nothing when
the stack is empty; no value is lost, duplicated or invented
(`runs_conserve`).
-/

namespace TKH.Stack

variable {T : Type*}

inductive Op (T : Type*)
  | push (v : T)
  | pop

inductive Ret (T : Type*)
  | pushed
  | popped (r : Option T)

def lifo (T : Type*) : Object (List T) (Op T) (Ret T) where
  start := []
  apply q
    | .push v => some (.pushed, v :: q)
    | .pop => match q with
      | [] => some (.popped none, [])
      | v :: q => some (.popped (some v), q)

def pushes : Op T × Ret T → Option T
  | (.push v, _) => some v
  | _ => none

def pops : Op T × Ret T → Option T
  | (.pop, .popped r) => r
  | _ => none

/-- The values pushed, and the values popped, in the order of the operations. -/
def pushed (h : List (Op T × Ret T)) : List T := h.filterMap pushes

def popped (h : List (Op T × Ret T)) : List T := h.filterMap pops

@[simp] theorem pushed_cons (x : Op T × Ret T) (h : List (Op T × Ret T)) :
    pushed (x :: h) = (pushes x).toList ++ pushed h := by
  cases hx : pushes x <;> simp [pushed, hx]

@[simp] theorem popped_cons (x : Op T × Ret T) (h : List (Op T × Ret T)) :
    popped (x :: h) = (pops x).toList ++ popped h := by
  cases hx : pops x <;> simp [popped, hx]

/-- What was there and what was pushed is what was popped and what is left. -/
theorem runs_conserve {q q' : List T} {h : List (Op T × Ret T)} (hr : (lifo T).Runs q h q') :
    ((pushed h : Multiset T) + q) = popped h + q' := by
  induction h generalizing q with
  | nil => cases hr; simp [pushed, popped]
  | cons x h ih =>
    obtain ⟨op, r⟩ := x
    obtain ⟨q₁, ha, hr⟩ := hr
    have := ih hr
    cases op with
    | push v =>
      cases ha
      simpa [pushes, pops, ← Multiset.cons_coe, Multiset.add_cons, Multiset.cons_add] using this
    | pop =>
      cases q with
      | nil => cases ha; simpa [pushes, pops] using this
      | cons v q =>
        cases ha
        simpa [pushes, pops, ← Multiset.cons_coe, Multiset.add_cons, Multiset.cons_add] using this

end TKH.Stack
