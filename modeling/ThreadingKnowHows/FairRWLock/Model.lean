import ThreadingKnowHows.Framework.SharedMutex
import ThreadingKnowHows.Framework.System
import ThreadingKnowHows.Framework.Total

/-!
# The fair readers-writer lock

`FairRWLock` of `04_pitfalls/04_starvation.cpp`, with any readers that repeat
`lock_shared` and `unlock_shared` and any writers that repeat `lock` and
`unlock`. Each atomic operation, and each acquisition and release of the
`shared_mutex`, is one step. `writer_pending_` is an integer: it never exceeds
the number of writers (`pending_le`).
-/

namespace TKH.FairRWLock

inductive Thread (R W : Type)
  | reader (r : R)
  | writer (w : W)
  deriving DecidableEq

inductive ReaderPc
  | outside
  /-- `while (writer_pending_.load() > 0)` -/
  | gate
  | lock
  /-- Between `lock_shared` and `unlock_shared`. -/
  | inside
  deriving DecidableEq

inductive WriterPc
  | outside
  | lock
  /-- Between `lock` and `unlock`. -/
  | inside
  | unlock
  deriving DecidableEq

structure State (R W : Type) where
  sm : SharedMutex (Thread R W)
  writerPending : ℤ
  reader : R → ReaderPc
  writer : W → WriterPc

variable {R W : Type} [DecidableEq R] [DecidableEq W]

def State.goR (s : State R W) (r : R) (k : ReaderPc) : State R W :=
  { s with reader := Function.update s.reader r k }

def State.goW (s : State R W) (w : W) (k : WriterPc) : State R W :=
  { s with writer := Function.update s.writer w k }

/-- `lock_shared` and `unlock_shared`. -/
def readerNext (s : State R W) (r : R) : Option (State R W) :=
  match s.reader r with
  | .outside => some (s.goR r .gate)
  | .gate => some (if s.writerPending > 0 then s else s.goR r .lock)
  | .lock => (s.sm.lockShared (.reader r)).map fun m => { s.goR r .inside with sm := m }
  | .inside => some { s.goR r .outside with sm := s.sm.unlockShared (.reader r) }

/-- `lock` and `unlock`. -/
def writerNext (s : State R W) (w : W) : Option (State R W) :=
  match s.writer w with
  | .outside => some { s.goW w .lock with writerPending := s.writerPending + 1 }
  | .lock => (s.sm.lock (.writer w)).map fun m => { s.goW w .inside with sm := m }
  | .inside => some { s.goW w .unlock with writerPending := s.writerPending - 1 }
  | .unlock => some { s.goW w .outside with sm := s.sm.unlock }

/-- An action is a step of a thread. -/
def system (R W : Type) [DecidableEq R] [DecidableEq W] : System (State R W) (Thread R W) where
  start := { sm := .free, writerPending := 0, reader := fun _ => .outside, writer := fun _ => .outside }
  next s
    | .reader r => readerNext s r
    | .writer w => writerNext s w

/-! ## What a step does -/

/-- The steps of `readerNext` and `writerNext`. -/
inductive Step (s : State R W) : Thread R W → State R W → Prop
  | call {r : R} : s.reader r = .outside → Step s (.reader r) (s.goR r .gate)
  | yield {r : R} : s.reader r = .gate → 0 < s.writerPending → Step s (.reader r) s
  | pass {r : R} : s.reader r = .gate → s.writerPending ≤ 0 → Step s (.reader r) (s.goR r .lock)
  | acquire {r : R} {m : SharedMutex (Thread R W)} : s.reader r = .lock → s.sm.lockShared (.reader r) = some m →
    Step s (.reader r) { s.goR r .inside with sm := m }
  | release {r : R} : s.reader r = .inside →
    Step s (.reader r) { s.goR r .outside with sm := s.sm.unlockShared (.reader r) }
  | announce {w : W} : s.writer w = .outside →
    Step s (.writer w) { s.goW w .lock with writerPending := s.writerPending + 1 }
  | lock {w : W} {m : SharedMutex (Thread R W)} : s.writer w = .lock → s.sm.lock (.writer w) = some m →
    Step s (.writer w) { s.goW w .inside with sm := m }
  | withdraw {w : W} : s.writer w = .inside →
    Step s (.writer w) { s.goW w .unlock with writerPending := s.writerPending - 1 }
  | unlock {w : W} : s.writer w = .unlock → Step s (.writer w) { s.goW w .outside with sm := s.sm.unlock }

theorem step_of_next {s s' : State R W} {t : Thread R W} (h : (system R W).next s t = some s') : Step s t s' := by
  cases t with
  | reader r =>
    simp only [system, readerNext] at h
    split at h
    · cases h; exact .call ‹_›
    · split at h
      · cases h; exact .yield ‹_› ‹_›
      · cases h; exact .pass ‹_› (by omega)
    · obtain ⟨m, hm, rfl⟩ := Option.map_eq_some_iff.mp h
      exact .acquire ‹_› hm
    · cases h; exact .release ‹_›
  | writer w =>
    simp only [system, writerNext] at h
    split at h
    · cases h; exact .announce ‹_›
    · obtain ⟨m, hm, rfl⟩ := Option.map_eq_some_iff.mp h
      exact .lock ‹_› hm
    · cases h; exact .withdraw ‹_›
    · cases h; exact .unlock ‹_›

end TKH.FairRWLock
