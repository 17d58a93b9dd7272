import ThreadingKnowHows.Framework.Mutexes

/-!
# Dining philosophers

`philosopher` of `03_patterns/04_dining_philosophers.cpp`, for any table of at
least two philosophers and forks, each of whom eats a number of `meals` of his
own. A philosopher takes his two forks with a `scoped_lock` and, holding them,
`io_mu` to print; at the end he takes `io_mu` alone. What is printed is the data
of the program.
-/

namespace TKH.Dining

variable {N : ℕ}

inductive Mutex (N : ℕ)
  | fork (i : Fin N)
  | io
  deriving DecidableEq

inductive Line
  | eating (meal : ℕ)
  | done
  deriving DecidableEq

abbrev Out (N : ℕ) := List (Fin N × Line)

inductive Pc
  /-- In the constructor or the destructor of the `scoped_lock`. -/
  | forks (meal : ℕ) (p : Mutexes.Scoped)
  | lockIo (meal : ℕ)
  | print (meal : ℕ)
  | unlockIo (meal : ℕ)
  /-- After the last meal. -/
  | lockDone
  | printDone
  | unlockDone
  | returned
  deriving DecidableEq

/-- `(id+1) % N`: the fork on the other side, and the neighbour who shares it. -/
def right (i : Fin N) : Fin N := ⟨(i + 1) % N, Nat.mod_lt _ i.pos⟩

/-- The head of the loop. -/
def loop (meals meal : ℕ) : Pc := if meal < meals then .forks meal .begin else .lockDone

def philosopher (meals : ℕ) (i : Fin N) : Pc → Mutexes.Cmd (Mutex N) (Out N) Pc
  | .forks meal p =>
    Mutexes.scopedLock (.fork i) (.fork (right i)) (.forks meal) (.lockIo meal) (loop meals (meal + 1)) p
  | .lockIo meal => .lock .io (.print meal)
  | .print meal => .act fun out => (out ++ [(i, .eating meal)], .unlockIo meal)
  | .unlockIo meal => .unlock .io (.forks meal .leave)
  | .lockDone => .lock .io .printDone
  | .printDone => .act fun out => (out ++ [(i, .done)], .unlockDone)
  | .unlockDone => .unlock .io .returned
  | .returned => .halt

def table (meals : Fin N → ℕ) : Mutexes.Program (Fin N) (Mutex N) (Out N) Pc where
  code i := philosopher (meals i) i
  entry i := loop (meals i) 0
  init := []

/-! ## The mutexes -/

theorem right_ne (hN : 2 ≤ N) (i : Fin N) : right i ≠ i := by
  intro h
  have hval := congrArg Fin.val h
  have hlt := i.isLt
  simp only [right] at hval
  rcases Nat.lt_or_ge (i + 1) N with hlt' | hge
  · rw [Nat.mod_eq_of_lt hlt'] at hval
    omega
  · rw [show (i : ℕ) + 1 = N by omega, Nat.mod_self] at hval
    omega

/-- What a philosopher holds. -/
def Holds (i : Fin N) : Pc → Mutex N → Prop
  | .forks _ p, m => p.Holds (.fork i) (.fork (right i)) m
  | .lockIo _, m => m = .fork i ∨ m = .fork (right i)
  | .print _, m | .unlockIo _, m => (m = .fork i ∨ m = .fork (right i)) ∨ m = .io
  | .printDone, m | .unlockDone, m => m = .io
  | .lockDone, _ | .returned, _ => False

/-- `io_mu` is taken after the forks. -/
def rank : Mutex N → ℕ
  | .fork _ => 0
  | .io => 1

theorem not_holds_loop (i : Fin N) (meals meal : ℕ) (m : Mutex N) : ¬ Holds i (loop meals meal) m := by
  simp only [loop]
  split <;> exact id

theorem table_discipline (hN : 2 ≤ N) (meals : Fin N → ℕ) : Mutexes.Discipline (table meals) Holds rank where
  entry i := not_holds_loop i (meals i) 0
  code i l := by
    cases l with
    | forks meal p =>
      have hne : (Mutex.fork i : Mutex N) ≠ .fork (right i) := fun h => right_ne hN i (Mutex.fork.inj h).symm
      refine Mutexes.scopedLock_keeps hne ?_ ?_ (not_holds_loop i _ _) rank p
      · exact fun _ _ => Iff.rfl
      · exact fun _ => Iff.rfl
    | lockIo meal =>
      refine ⟨fun m hm => ?_, fun m => Iff.rfl⟩
      rcases hm with rfl | rfl <;> exact Nat.one_pos
    | unlockIo meal =>
      refine ⟨.inr rfl, fun m => ?_⟩
      cases m <;> simp [Holds, Mutexes.Scoped.Holds]
    | print meal | printDone => exact fun d m => Iff.rfl
    | lockDone => exact ⟨fun m hm => hm.elim, fun m => by simp [Holds]⟩
    | unlockDone => exact ⟨rfl, fun m => by simp [Holds]⟩
    | returned => exact fun m => id

end TKH.Dining
