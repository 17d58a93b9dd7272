import Mathlib.Logic.Function.Basic
import ThreadingKnowHows.Framework.System
import ThreadingKnowHows.Framework.Total

/-!
# A latch and a barrier

`main` of `02_cpp11_threads/08_jthread_cpp20/02_latch_barrier.cpp`, with any
workers `W` that the latch counts, and any threads `T` that go through `phases`
phases of the barrier. The thread that arrives last runs the completion function,
and then the phase ends. What is inserted into `std::cout` comes out piece by piece:
the line of a worker is three insertions, and that of a thread five.
-/

namespace TKH.LatchBarrier

inductive Piece (W T : Type)
  /-- The insertion `k` of `worker w ready`. -/
  | ready (w : W) (k : ℕ)
  | allReady
  /-- The insertion `k` of `T t phase p`. -/
  | phase (t : T) (p k : ℕ)
  | complete

/-- `"  worker " << i << " ready\n"` -/
abbrev readyInsertions : ℕ := 3

/-- `"  T" << i << " phase " << phase << "\n"` -/
abbrev phaseInsertions : ℕ := 5

inductive WorkerPc
  | print (k : Fin readyInsertions)
  | countDown
  | done
  deriving DecidableEq

inductive MainPc
  /-- `ready.wait()` -/
  | wait
  | allReady
  | joinWorkers
  /-- The threads have been created. -/
  | joinThreads
  | returned
  deriving DecidableEq

inductive ThreadPc
  | idle
  | print (p : ℕ) (k : Fin phaseInsertions)
  | arrive (p : ℕ)
  | wait (p : ℕ)
  /-- The completion function. -/
  | complete (p : ℕ)
  | done
  deriving DecidableEq

structure State (W T : Type) where
  latch : ℕ
  worker : W → WorkerPc
  main : MainPc
  /-- The phase of the barrier, and the threads that have arrived for it. -/
  phase : ℕ
  arrived : ℕ
  thread : T → ThreadPc
  out : List (Piece W T)

inductive Act (W T : Type)
  | worker (w : W)
  | main
  | thread (t : T)

variable {W T : Type} [DecidableEq W] [DecidableEq T] [Fintype W] [Fintype T]

/-- Where a worker is when it has made `k` insertions. -/
def readied (k : ℕ) : WorkerPc := if h : k < readyInsertions then .print ⟨k, h⟩ else .countDown

/-- Where a thread is when it has made `k` insertions in the phase `p`. -/
def said (p k : ℕ) : ThreadPc := if h : k < phaseInsertions then .print p ⟨k, h⟩ else .arrive p

/-- `for (int phase = 1; phase <= phases; ++phase)` -/
def loop (phases p : ℕ) : ThreadPc := if p ≤ phases then said p 0 else .done

omit [DecidableEq T] [Fintype W] [Fintype T] in
def workerNext (s : State W T) (w : W) : Option (State W T) :=
  match s.worker w with
  | .print k => some { s with worker := Function.update s.worker w (readied (k + 1)), out := s.out ++ [.ready w k] }
  | .countDown => some { s with worker := Function.update s.worker w .done, latch := s.latch - 1 }
  | .done => none

def mainNext (s : State W T) : Option (State W T) :=
  match s.main with
  | .wait => if s.latch = 0 then some { s with main := .allReady } else none
  | .allReady => some { s with main := .joinWorkers, out := s.out ++ [.allReady] }
  | .joinWorkers => if ∀ w, s.worker w = .done then some { s with main := .joinThreads } else none
  | .joinThreads => if ∀ t, s.thread t = .done then some { s with main := .returned } else none
  | .returned => none

def threadNext (phases : ℕ) (s : State W T) (t : T) : Option (State W T) :=
  match s.thread t with
  | .idle => if s.main = .joinThreads then some { s with thread := Function.update s.thread t (loop phases 1) } else none
  | .print p k => some { s with thread := Function.update s.thread t (said p (k + 1)), out := s.out ++ [.phase t p k] }
  | .arrive p =>
    if s.arrived + 1 < Fintype.card T then
      some { s with thread := Function.update s.thread t (.wait p), arrived := s.arrived + 1 }
    else some { s with thread := Function.update s.thread t (.complete p), arrived := 0 }
  | .complete p =>
    some { s with
      thread := Function.update s.thread t (loop phases (p + 1))
      phase := s.phase + 1
      out := s.out ++ [.complete] }
  | .wait p => if s.phase = p then none else some { s with thread := Function.update s.thread t (loop phases (p + 1)) }
  | .done => none

def latchBarrier (W T : Type) [DecidableEq W] [DecidableEq T] [Fintype W] [Fintype T] (phases : ℕ) :
    System (State W T) (Act W T) where
  start := {
    latch := Fintype.card W
    worker := fun _ => readied 0
    main := .wait
    phase := 1
    arrived := 0
    thread := fun _ => .idle
    out := [] }
  next s
    | .worker w => workerNext s w
    | .main => mainNext s
    | .thread t => threadNext phases s t

/-! ## What a step does -/

/-- The steps of `next`. -/
inductive Step (phases : ℕ) (s : State W T) : Act W T → State W T → Prop
  | ready {w : W} {k : Fin readyInsertions} : s.worker w = .print k →
    Step phases s (.worker w)
      { s with worker := Function.update s.worker w (readied (k + 1)), out := s.out ++ [.ready w k] }
  | countDown {w : W} : s.worker w = .countDown →
    Step phases s (.worker w) { s with worker := Function.update s.worker w .done, latch := s.latch - 1 }
  | waited : s.main = .wait → s.latch = 0 → Step phases s .main { s with main := .allReady }
  | allReady : s.main = .allReady → Step phases s .main { s with main := .joinWorkers, out := s.out ++ [.allReady] }
  | joinWorkers : s.main = .joinWorkers → (∀ w, s.worker w = .done) → Step phases s .main { s with main := .joinThreads }
  | joinThreads : s.main = .joinThreads → (∀ t, s.thread t = .done) → Step phases s .main { s with main := .returned }
  | begin {t : T} : s.thread t = .idle → s.main = .joinThreads →
    Step phases s (.thread t) { s with thread := Function.update s.thread t (loop phases 1) }
  | print {t : T} {p : ℕ} {k : Fin phaseInsertions} : s.thread t = .print p k →
    Step phases s (.thread t)
      { s with thread := Function.update s.thread t (said p (k + 1)), out := s.out ++ [.phase t p k] }
  | arrive {t : T} {p : ℕ} : s.thread t = .arrive p → s.arrived + 1 < Fintype.card T →
    Step phases s (.thread t) { s with thread := Function.update s.thread t (.wait p), arrived := s.arrived + 1 }
  | arriveLast {t : T} {p : ℕ} : s.thread t = .arrive p → Fintype.card T ≤ s.arrived + 1 →
    Step phases s (.thread t) { s with thread := Function.update s.thread t (.complete p), arrived := 0 }
  | complete {t : T} {p : ℕ} : s.thread t = .complete p →
    Step phases s (.thread t) { s with
      thread := Function.update s.thread t (loop phases (p + 1))
      phase := s.phase + 1
      out := s.out ++ [.complete] }
  | leave {t : T} {p : ℕ} : s.thread t = .wait p → s.phase ≠ p →
    Step phases s (.thread t) { s with thread := Function.update s.thread t (loop phases (p + 1)) }

theorem next_iff {phases : ℕ} {s s' : State W T} {a : Act W T} :
    (latchBarrier W T phases).next s a = some s' ↔ Step phases s a s' := by
  constructor
  · intro h
    cases a with
    | worker w =>
      simp only [latchBarrier, workerNext] at h
      split at h <;> cases h
      · exact .ready ‹_›
      · exact .countDown ‹_›
    | main =>
      simp only [latchBarrier, mainNext] at h
      split at h
      · split at h <;> cases h
        exact .waited ‹_› ‹_›
      · cases h; exact .allReady ‹_›
      · split at h <;> cases h
        exact .joinWorkers ‹_› ‹_›
      · split at h <;> cases h
        exact .joinThreads ‹_› ‹_›
      · cases h
    | thread t =>
      simp only [latchBarrier, threadNext] at h
      split at h
      · split at h <;> cases h
        exact .begin ‹_› ‹_›
      · cases h; exact .print ‹_›
      · split at h <;> cases h
        · exact .arrive ‹_› ‹_›
        · exact .arriveLast ‹_› (Nat.le_of_not_lt ‹_›)
      · cases h; exact .complete ‹_›
      · split at h <;> cases h
        exact .leave ‹_› ‹_›
      · cases h
  · intro h
    cases h with
    | ready hpc | countDown hpc => simp [latchBarrier, workerNext, hpc]
    | allReady hpc => simp [latchBarrier, mainNext, hpc]
    | waited hpc h | joinWorkers hpc h | joinThreads hpc h => simp [latchBarrier, mainNext, hpc, h]
    | print hpc | complete hpc => simp [latchBarrier, threadNext, hpc]
    | begin hpc h | arrive hpc h | leave hpc h => simp [latchBarrier, threadNext, hpc, h]
    | arriveLast hpc h => simp [latchBarrier, threadNext, hpc, Nat.not_lt.mpr h]

end TKH.LatchBarrier
