import Mathlib.Data.Fintype.Defs
import Mathlib.Logic.Function.Basic
import Mathlib.Tactic.Common

/-!
# Barriers

`pthread_barrier_wait` on a barrier of all threads of `τ`. A thread that arrives
is blocked until the last one does, which releases all of them; one of them,
whichever, is told that it is the serial thread. A thread that has left may
arrive for the next cycle while others have still to leave.
-/

namespace TKH

variable {τ : Type*}

/-- Where a thread is with respect to the barrier. -/
inductive Waiter
  | outside
  | blocked
  | released (serial : Bool)
  deriving DecidableEq

structure Barrier (τ : Type*) where
  status : τ → Waiter
  /-- How many times all have been released. -/
  cycle : ℕ
  not_full : ∃ t, status t ≠ .blocked

namespace Barrier

/-- `pthread_barrier_init`. -/
def init [Nonempty τ] : Barrier τ := ⟨fun _ => .outside, 0, by simp⟩

variable [DecidableEq τ]

/-- `t` calls `pthread_barrier_wait`. If it is the last one, `serial` is the
serial thread. -/
def arrive [Fintype τ] (b : Barrier τ) (t serial : τ) : Option (Barrier τ) :=
  if b.status t = .outside then
    if h : ∀ u, u ≠ t → b.status u = .blocked then
      some ⟨fun u => .released (u = serial), b.cycle + 1, ⟨t, by simp⟩⟩
    else
      some ⟨Function.update b.status t .blocked, b.cycle, by
        push Not at h
        obtain ⟨u, hu, hb⟩ := h
        exact ⟨u, by rwa [Function.update_of_ne hu]⟩⟩
  else none

/-- `pthread_barrier_wait` returns to `t`, and whether it is the serial thread. -/
def leave (b : Barrier τ) (t : τ) : Option (Bool × Barrier τ) :=
  match b.status t with
  | .released serial => some (serial, ⟨Function.update b.status t .outside, b.cycle, ⟨t, by simp⟩⟩)
  | _ => none

variable {b b' : Barrier τ} {t serial : τ}

/-- A thread that arrives is blocked, or is the last one. -/
theorem arrive_spec [Fintype τ] (h : b.arrive t serial = some b') : b.status t = .outside ∧
    ((b'.status = Function.update b.status t .blocked ∧ b'.cycle = b.cycle) ∨
      (∀ u, u ≠ t → b.status u = .blocked) ∧ b'.status = (fun u => .released (u = serial)) ∧
        b'.cycle = b.cycle + 1) := by
  simp only [arrive] at h
  split at h
  · rename_i ht
    refine ⟨ht, ?_⟩
    split at h
    · rename_i hu
      cases h
      exact .inr ⟨hu, rfl, rfl⟩
    · cases h
      exact .inl ⟨rfl, rfl⟩
  · cases h

theorem arrive_isSome [Fintype τ] (h : b.status t = .outside) (serial : τ) : (b.arrive t serial).isSome := by
  simp only [arrive, if_pos h]
  split <;> rfl

theorem leave_spec {last : Bool} (h : b.leave t = some (last, b')) : b.status t = .released last ∧
    b'.status = Function.update b.status t .outside ∧ b'.cycle = b.cycle := by
  simp only [leave] at h
  split at h
  · rename_i hs
    cases h
    exact ⟨hs, rfl, rfl⟩
  · cases h

theorem leave_isSome {last : Bool} (h : b.status t = .released last) : (b.leave t).isSome := by
  simp only [leave, h, Option.isSome_some]

end Barrier

end TKH
