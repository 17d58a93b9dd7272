import ThreadingKnowHows.Framework.Barrier
import ThreadingKnowHows.Framework.System

/-!
# Phases separated by a barrier

`worker` of `01_pthreads/05_barriers/01_barrier_basic.c`, with the threads of
`τ` and any number of `phases`. Printing a line, arriving at the barrier and
leaving it are steps of their own.
-/

namespace TKH.BarrierBasic

/-- Where a worker is in its loop, and its variable `phase`. -/
inductive Pc
  /-- About to print that it has reached the barrier. -/
  | reach (phase : ℕ)
  /-- About to call `pthread_barrier_wait`. -/
  | wait (phase : ℕ)
  | waiting (phase : ℕ)
  /-- The serial thread, about to print that the phase is complete. -/
  | announce (phase : ℕ)
  | done (phase : ℕ)

def Pc.phase : Pc → ℕ
  | reach phase | wait phase | waiting phase | announce phase | done phase => phase

/-- The head of the loop. -/
def loop (phases phase : ℕ) : Pc := if phase ≤ phases then .reach phase else .done phase

structure State (τ : Type) where
  bar : Barrier τ
  pc : τ → Pc

inductive Act (τ : Type)
  | step (t : τ)
  /-- `pthread_barrier_wait` is called; if `t` is the last one, `serial` will be
  the serial thread. -/
  | wait (t serial : τ)

inductive Line
  | reached (phase : ℕ)
  | complete (phase : ℕ)
  deriving DecidableEq

variable {τ : Type} [DecidableEq τ]

def State.goto (s : State τ) (t : τ) (k : Pc) : State τ := { s with pc := Function.update s.pc t k }

variable [Fintype τ]

def next (phases : ℕ) (s : State τ) : Act τ → Option (State τ)
  | .step t => match s.pc t with
    | .reach phase => some (s.goto t (.wait phase))
    | .waiting phase => (s.bar.leave t).map fun r =>
      { s with bar := r.2 }.goto t (if r.1 then .announce phase else loop phases (phase + 1))
    | .announce phase => some (s.goto t (loop phases (phase + 1)))
    | _ => none
  | .wait t serial => match s.pc t with
    | .wait phase => (s.bar.arrive t serial).map fun bar => { s with bar := bar }.goto t (.waiting phase)
    | _ => none

omit [DecidableEq τ] [Fintype τ] in
/-- The lines that are printed. -/
def lines (s : State τ) : Act τ → List (τ × Line)
  | .step t => match s.pc t with
    | .reach phase => [(t, .reached phase)]
    | .announce phase => [(t, .complete phase)]
    | _ => []
  | .wait _ _ => []

variable (τ) in
def workers [Nonempty τ] (phases : ℕ) : System (State τ) (Act τ) where
  start := { bar := .init, pc := fun _ => loop phases 1 }
  next := next phases

/-- The steps of `next`. -/
inductive Step (phases : ℕ) (s : State τ) : Act τ → State τ → Prop
  | reach {t : τ} {phase : ℕ} : s.pc t = .reach phase → Step phases s (.step t) (s.goto t (.wait phase))
  | arrive {t serial : τ} {phase : ℕ} {bar : Barrier τ} : s.pc t = .wait phase → s.bar.arrive t serial = some bar →
    Step phases s (.wait t serial) ({ s with bar := bar }.goto t (.waiting phase))
  | leave {t : τ} {phase : ℕ} {serial : Bool} {bar : Barrier τ} : s.pc t = .waiting phase →
    s.bar.leave t = some (serial, bar) → Step phases s (.step t)
      ({ s with bar := bar }.goto t (if serial then .announce phase else loop phases (phase + 1)))
  | announce {t : τ} {phase : ℕ} : s.pc t = .announce phase →
    Step phases s (.step t) (s.goto t (loop phases (phase + 1)))

theorem step_of_next {phases : ℕ} {s s' : State τ} {a : Act τ} (h : next phases s a = some s') :
    Step phases s a s' := by
  cases a with
  | wait t serial =>
    simp only [next] at h
    split at h
    · obtain ⟨bar, hbar, rfl⟩ := Option.map_eq_some_iff.mp h
      exact .arrive ‹_› hbar
    · cases h
  | step t =>
    simp only [next] at h
    split at h
    · cases h; exact .reach ‹_›
    · obtain ⟨⟨serial, bar⟩, hbar, rfl⟩ := Option.map_eq_some_iff.mp h
      exact .leave ‹_› hbar
    · cases h; exact .announce ‹_›
    · cases h

end TKH.BarrierBasic
