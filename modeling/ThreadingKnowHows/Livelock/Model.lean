import Mathlib.Algebra.Ring.Int.Defs
import ThreadingKnowHows.Framework.Mutexes

/-!
# Polite threads

`buggy` and `fixed` of `04_pitfalls/03_livelock.cpp`: two threads make up to
`attempts` attempts to lock their own mutex and then to try the other one. The
two functions differ in a pause after an attempt that fails, and have the same
steps. The thread `false` is the one with the id 0, and `m1` is its mutex;
the data are the `iterations` of the threads.
-/

namespace TKH.Livelock

/-- Where a thread is; `n` is its attempt. -/
inductive Pc
  | test (n : ℕ)
  | lock (n : ℕ)
  | tryLock (n : ℕ)
  | unlockSecond (n : ℕ)
  | unlockFirst (n : ℕ)
  /-- `iterations = v`. -/
  | set (v : ℤ)
  /-- The attempt has failed. -/
  | release (n : ℕ)
  | done
  deriving DecidableEq

/-- The first mutex of a thread has its id, and the second is the other one. -/
def code (attempts : ℕ) (id : Bool) : Pc → Mutexes.Cmd Bool (Bool → ℤ) Pc
  | .test n => .act fun d => (d, if n < attempts then .lock n else .set (-1))
  | .lock n => .lock id (.tryLock n)
  | .tryLock n => .tryLock (!id) (.unlockSecond n) (.release n)
  | .unlockSecond n => .unlock (!id) (.unlockFirst n)
  | .unlockFirst n => .unlock id (.set n)
  | .set v => .act fun d => (Function.update d id v, .done)
  | .release n => .unlock id (.test (n + 1))
  | .done => .halt

def polite (attempts : ℕ) : Mutexes.Program Bool Bool (Bool → ℤ) Pc where
  code := code attempts
  entry _ := .test 0
  init _ := 0

abbrev State := Mutexes.State Bool Bool (Bool → ℤ) Pc

/-- Both threads are at their end, and the mutexes are free. -/
def Finished (s : State) : Prop := (∀ t, s.pc t = .done) ∧ ∀ a, s.owner a = none

/-- A `try_lock` fails only if the mutex is taken. -/
def Genuine (s : State) : Mutexes.Act Bool → Prop
  | .fail t => s.owner (!t) ≠ none
  | _ => True

/-! ## The mutexes -/

def Holds (id : Bool) : Pc → Bool → Prop
  | .tryLock _, a | .unlockFirst _, a | .release _, a => a = id
  | .unlockSecond _, a => a = id ∨ a = !id
  | _, _ => False

theorem discipline (attempts : ℕ) : Mutexes.Discipline (polite attempts) Holds fun _ => 0 where
  entry _ _ := id
  code t l := by
    cases l with
    | test n => exact fun d a => by dsimp only; split <;> exact Iff.rfl
    | lock n => exact ⟨fun _ h => h.elim, fun a => by simp [Holds]⟩
    | tryLock n => exact ⟨by cases t <;> exact nofun, fun a => Iff.rfl, fun a => Iff.rfl⟩
    | unlockSecond n => exact ⟨.inr rfl, fun a => by cases t <;> cases a <;> simp [Holds]⟩
    | unlockFirst n => exact ⟨rfl, fun a => by simp [Holds]⟩
    | set v => exact fun _ _ => Iff.rfl
    | release n => exact ⟨rfl, fun a => by simp [Holds]⟩
    | done => exact fun _ h => h

end TKH.Livelock
