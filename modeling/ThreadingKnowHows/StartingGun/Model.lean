import Mathlib.Data.Fintype.Option
import ThreadingKnowHows.Framework.Local

/-!
# A starting gun

`main` of `01_pthreads/03_condition_variables/03_broadcast.c` and of
`04_pitfalls/07_lost_wakeup.cpp` sets a flag under the mutex, notifies all who
wait for it, and joins them. A waiter is a `worker` of the first or a
`good_consumer` of the second: they differ in whether they print with the mutex
held. There are any waiters of either kind, and each starts when it likes. The
flag, `go` in the one and `ready` in the other, is `ready` here, and `out` is
what the waiters have printed.
-/

namespace TKH.StartingGun

inductive Thread (W : Type)
  | main
  | waiter (w : W)
  deriving DecidableEq

instance {W : Type} [DecidableEq W] [Fintype W] : Fintype (Thread W) :=
  Fintype.ofSurjective (α := Option W)
    (fun
      | none => .main
      | some w => .waiter w)
    fun
      | .main => ⟨none, rfl⟩
      | .waiter w => ⟨some w, rfl⟩

inductive Cv
  | cv
  deriving DecidableEq

inductive Line
  /-- "good consumer woken", and the flag. -/
  | woken (ready : Bool)
  | running

structure Data (W : Type) where
  ready : Bool
  out : List (Thread W × Line)

inductive MainPc
  | lock
  | set
  | notify
  | unlock
  | join
  | returned
  deriving DecidableEq

inductive WaiterPc
  | lock
  | test
  | sleep
  | print
  | unlock
  | returned
  deriving DecidableEq

inductive Pc
  | main (p : MainPc)
  | goodConsumer (p : WaiterPc)
  | worker (p : WaiterPc)
  deriving DecidableEq

/-- Which of the two functions a waiter runs. -/
inductive Kind
  | goodConsumer
  | worker
  deriving DecidableEq

variable {W : Type}

def isWaiter : Thread W → Bool
  | .main => false
  | .waiter _ => true

def main : MainPc → Cmd (Thread W) Cv (Data W) Pc
  | .lock => .lock (.main .set)
  | .set => .act fun d => ({ d with ready := true }, .main .notify)
  | .notify => .notifyAll .cv (.main .unlock)
  | .unlock => .unlock (.main .join)
  | .join => .join isWaiter (.main .returned)
  | .returned => .halt

def goodConsumer (t : Thread W) : WaiterPc → Cmd (Thread W) Cv (Data W) Pc
  | .lock => .lock (.goodConsumer .test)
  | .test => .act fun d => (d, .goodConsumer (if d.ready then .print else .sleep))
  | .sleep => .wait .cv (.goodConsumer .test)
  | .print => .act fun d => ({ d with out := d.out ++ [(t, .woken d.ready)] }, .goodConsumer .unlock)
  | .unlock => .unlock (.goodConsumer .returned)
  | .returned => .halt

def worker (t : Thread W) : WaiterPc → Cmd (Thread W) Cv (Data W) Pc
  | .lock => .lock (.worker .test)
  | .test => .act fun d => (d, .worker (if d.ready then .unlock else .sleep))
  | .sleep => .wait .cv (.worker .test)
  | .unlock => .unlock (.worker .print)
  | .print => .act fun d => ({ d with out := d.out ++ [(t, .running)] }, .worker .returned)
  | .returned => .halt

def gun (kind : W → Kind) : Program (Thread W) Cv (Data W) Pc where
  code t
    | .main p => main p
    | .goodConsumer p => goodConsumer t p
    | .worker p => worker t p
  entry
    | .main => .main .lock
    | .waiter w => match kind w with
      | .goodConsumer => .goodConsumer .lock
      | .worker => .worker .lock
  init := { ready := false, out := [] }

/-! ## The mutex and the flag -/

/-- Where a thread holds the mutex. -/
def held : Pc → Bool
  | .main p => match p with
    | .set | .notify | .unlock => true
    | _ => false
  | .goodConsumer p => match p with
    | .test | .sleep | .print | .unlock => true
    | _ => false
  | .worker p => match p with
    | .test | .sleep | .unlock => true
    | _ => false

/-- A good consumer prints that the flag is set. -/
def Truthful (d : Data W) : Prop := ∀ t, (t, Line.woken false) ∉ d.out

/-- What a thread that holds the mutex knows. -/
def tested (l : Pc) (d : Data W) : Prop :=
  Truthful d ∧ match l with
    | .goodConsumer .sleep | .worker .sleep => d.ready = false
    | .goodConsumer .print => d.ready = true
    | _ => True

theorem truthful_print {d : Data W} (h : Truthful d) (t : Thread W) {l : Line} (hl : l ≠ .woken false) :
    Truthful { d with out := d.out ++ [(t, l)] } := by
  intro u hu
  rcases List.mem_append.mp hu with hu | hu
  · exact h u hu
  · rw [List.mem_singleton, Prod.mk.injEq] at hu
    exact hl hu.2.symm

variable {kind : W → Kind}

theorem gun_discipline : Discipline (gun kind) held where
  entry t := by
    cases t with
    | main => rfl
    | waiter w => simp only [gun]; cases kind w <;> rfl
  code t l := by
    cases l with
    | main p =>
      cases p with
      | lock | unlock | join => exact ⟨rfl, rfl⟩
      | set => exact fun d => rfl
      | notify | returned => rfl
    | goodConsumer p | worker p =>
      cases p with
      | lock | unlock | sleep => exact ⟨rfl, rfl⟩
      | test => intro d; dsimp only; split <;> rfl
      | print => exact fun d => rfl
      | returned => rfl

theorem gun_annotation : Annotation (gun kind) held Truthful tested where
  toDiscipline := gun_discipline
  init _ h := by cases h
  keeps t l := by
    cases l with
    | main p =>
      cases p with
      | lock => exact fun d h => ⟨h, trivial⟩
      | set => exact fun d => ⟨fun _ h => ⟨h.1, trivial⟩, fun h => by cases h⟩
      | notify => exact fun _ d h => ⟨h.1, trivial⟩
      | unlock => exact fun d h => h.1
      | join | returned => trivial
    | goodConsumer p =>
      cases p with
      | lock => exact fun d h => ⟨h, trivial⟩
      | test =>
        refine fun d => ⟨fun _ h => ?_, fun h => by cases h⟩
        cases hr : d.ready <;> exact ⟨h.1, by simp [hr]⟩
      | sleep => exact fun d => ⟨fun h => h.1, fun h => ⟨h, trivial⟩⟩
      | print =>
        refine fun d => ⟨fun _ h => ⟨truthful_print h.1 t (by simp [show d.ready = true from h.2]), trivial⟩, fun h => ?_⟩
        cases h
      | unlock => exact fun d h => h.1
      | returned => trivial
    | worker p =>
      cases p with
      | lock => exact fun d h => ⟨h, trivial⟩
      | test =>
        refine fun d => ⟨fun _ h => ?_, fun h => by cases h⟩
        cases hr : d.ready <;> exact ⟨h.1, by simp [hr]⟩
      | sleep => exact fun d => ⟨fun h => h.1, fun h => ⟨h, trivial⟩⟩
      | unlock => exact fun d h => h.1
      | print =>
        refine fun d => ⟨fun h => (by cases h), fun _ => ⟨fun h => truthful_print h t (by simp), fun l' _ h => ?_⟩⟩
        exact ⟨truthful_print h.1 t (by simp), h.2⟩
      | returned => trivial

end TKH.StartingGun
