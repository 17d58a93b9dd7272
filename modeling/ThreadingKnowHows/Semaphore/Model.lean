import Mathlib.Logic.Function.Basic
import ThreadingKnowHows.Framework.System

/-!
# A pool behind a semaphore

`user` and `main` of `01_pthreads/06_semaphores/01_semaphore_basic.c`: any users `T` of
a pool for `slots` of them at a time. A call of `printf` is one step, since it locks
the stream.
-/

namespace TKH.Semaphore

inductive Line (T : Type)
  /-- `[Ut] waiting for a slot...` -/
  | waiting (t : T)
  | working (t : T)
  | leaving (t : T)
  deriving DecidableEq

inductive Pc
  | announce
  /-- `sem_wait` -/
  | wait
  | enter
  | leave
  /-- `sem_post` -/
  | post
  | done
  deriving DecidableEq

structure State (T : Type) where
  sem : ℕ
  pc : T → Pc
  out : List (Line T)

variable {T : Type} [DecidableEq T]

def State.goto (s : State T) (t : T) (k : Pc) : State T := { s with pc := Function.update s.pc t k }

def State.print (s : State T) (x : Line T) : State T := { s with out := s.out ++ [x] }

/-- A step of the user `t`. -/
def user (s : State T) (t : T) : Option (State T) :=
  match s.pc t with
  | .announce => some ((s.goto t .wait).print (.waiting t))
  | .wait => if 0 < s.sem then some { s.goto t .enter with sem := s.sem - 1 } else none
  | .enter => some ((s.goto t .leave).print (.working t))
  | .leave => some ((s.goto t .post).print (.leaving t))
  | .post => some { s.goto t .done with sem := s.sem + 1 }
  | .done => none

def pool (slots : ℕ) (T : Type) [DecidableEq T] : System (State T) T where
  start := { sem := slots, pc := fun _ => .announce, out := [] }
  next := user

/-- The steps of `user`. -/
inductive Step (s : State T) (t : T) : State T → Prop
  | announce : s.pc t = .announce → Step s t ((s.goto t .wait).print (.waiting t))
  | wait : s.pc t = .wait → 0 < s.sem → Step s t { s.goto t .enter with sem := s.sem - 1 }
  | enter : s.pc t = .enter → Step s t ((s.goto t .leave).print (.working t))
  | leave : s.pc t = .leave → Step s t ((s.goto t .post).print (.leaving t))
  | post : s.pc t = .post → Step s t { s.goto t .done with sem := s.sem + 1 }

theorem user_iff {s s' : State T} {t : T} : user s t = some s' ↔ Step s t s' := by
  constructor
  · intro h
    simp only [user] at h
    split at h
    · cases h; exact .announce ‹_›
    · split at h <;> cases h
      exact .wait ‹_› ‹_›
    · cases h; exact .enter ‹_›
    · cases h; exact .leave ‹_›
    · cases h; exact .post ‹_›
    · cases h
  · intro h
    cases h with
    | announce hpc | enter hpc | leave hpc | post hpc => simp [user, hpc]
    | wait hpc h => simp [user, hpc, h]

end TKH.Semaphore
