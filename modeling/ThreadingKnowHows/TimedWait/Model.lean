import Mathlib.Data.Fintype.Option
import ThreadingKnowHows.Framework.Local

/-!
# Waiting with a deadline

`main` of `01_pthreads/03_condition_variables/04_timed_wait.c` waits in a loop,
and so does the algorithm in the comment at the top of that file. They differ in
when they give up, and `loop` and `documented` are both `waitLoop`, which takes
the outcomes of the waits one by one.

In `timedWait`, `main` shares `ready` with any threads that set it under the
mutex; the file has none. The waits return `results` one after the other,
whoever has woken `main`. What it sees is kept, to be compared with `loop`.
-/

namespace TKH.TimedWait

/-- What `pthread_cond_timedwait` returns: 0, when it was signalled or for no
reason, or `ETIMEDOUT`. -/
inductive Rc
  | zero
  | etimedout
  deriving DecidableEq

/-- What it returns, and what `ready` is when it has taken the mutex again. -/
structure Outcome where
  rc : Rc
  ready : Bool
  deriving DecidableEq

/-- How the loop is left. -/
structure Exit where
  waits : ℕ
  rc : Rc
  ready : Bool
  /-- It has reported giving up. -/
  gaveUp : Bool
  deriving DecidableEq

/-- `while (!ready)`, where `quits` makes it give up. It is still waiting when
the outcomes end before it is left. -/
def waitLoop (quits : Outcome → Bool) (waits : ℕ) (rc : Rc) : Bool → List Outcome → Option Exit
  | true, _ => some ⟨waits, rc, true, false⟩
  | false, [] => none
  | false, o :: os =>
    if quits o then some ⟨waits + 1, o.rc, o.ready, true⟩ else waitLoop quits (waits + 1) o.rc o.ready os

/-- The loop of `main`: `if (rc == ETIMEDOUT)` it gives up. -/
def loop (ready : Bool) (os : List Outcome) : Option Exit := waitLoop (fun o => o.rc = .etimedout) 0 .zero ready os

/-- The algorithm of the comment: `if rc == ETIMEDOUT and !predicate` it gives up. -/
def documented (ready : Bool) (os : List Outcome) : Option Exit :=
  waitLoop (fun o => o.rc = .etimedout ∧ o.ready = false) 0 .zero ready os

/-! ## The threads -/

inductive Thread (W : Type)
  | main
  | setter (w : W)
  deriving DecidableEq

instance {W : Type} [DecidableEq W] [Fintype W] : Fintype (Thread W) :=
  Fintype.ofSurjective (α := Option W)
    (fun
      | none => .main
      | some w => .setter w)
    fun
      | .main => ⟨none, rfl⟩
      | .setter w => ⟨some w, rfl⟩

inductive Cv
  | cv
  deriving DecidableEq

structure Data where
  ready : Bool
  rc : Rc
  gaveUp : Bool
  /-- What `ready` was when `main` first tested it. -/
  first : Option Bool
  /-- The outcomes of the waits. -/
  outcomes : List Outcome

inductive MainPc
  | lock
  /-- `ready` is tested, and was as given when the last wait returned. -/
  | test (woken : Option Bool)
  | timedwait
  | check
  | unlock
  | returned
  deriving DecidableEq

inductive SetterPc
  | lock
  | set
  | notify
  | unlock
  | returned
  deriving DecidableEq

inductive Pc
  | main (p : MainPc)
  | setter (p : SetterPc)
  deriving DecidableEq

variable {W : Type}

def main (results : ℕ → Rc) : MainPc → Cmd (Thread W) Cv Data Pc
  | .lock => .lock (.main (.test none))
  | .test _ => .act fun d =>
    ({ d with first := some (d.first.getD d.ready) }, .main (if d.ready then .unlock else .timedwait))
  | .timedwait => .wait .cv (.main .check)
  | .check => .act fun d =>
    let rc := results d.outcomes.length
    ({ d with rc := rc, gaveUp := d.gaveUp || rc = .etimedout, outcomes := d.outcomes ++ [⟨rc, d.ready⟩] },
      .main (if rc = .etimedout then .unlock else .test (some d.ready)))
  | .unlock => .unlock (.main .returned)
  | .returned => .halt

def setter : SetterPc → Cmd (Thread W) Cv Data Pc
  | .lock => .lock (.setter .set)
  | .set => .act fun d => ({ d with ready := true }, .setter .notify)
  | .notify => .notifyAll .cv (.setter .unlock)
  | .unlock => .unlock (.setter .returned)
  | .returned => .halt

variable (W) in
def timedWait (results : ℕ → Rc) : Program (Thread W) Cv Data Pc where
  code _
    | .main p => main results p
    | .setter p => setter p
  entry
    | .main => .main .lock
    | .setter _ => .setter .lock
  init := { ready := false, rc := .zero, gaveUp := false, first := none, outcomes := [] }

/-! ## The mutex -/

/-- Where a thread holds the mutex. -/
def held : Pc → Bool
  | .main p => match p with
    | .lock | .returned => false
    | _ => true
  | .setter p => match p with
    | .set | .notify | .unlock => true
    | _ => false

/-- `ready` is as it was when the wait returned. -/
def tested : Pc → Data → Prop
  | .main (.test (some r)), d => d.ready = r
  | _, _ => True

variable {results : ℕ → Rc}

theorem timedWait_discipline : Discipline (timedWait W results) held where
  entry t := by cases t <;> rfl
  code t l := by
    cases l with
    | main p =>
      cases p with
      | lock | timedwait | unlock => exact ⟨rfl, rfl⟩
      | test | check => intro d; dsimp only; split <;> rfl
      | returned => rfl
    | setter p =>
      cases p with
      | lock | unlock => exact ⟨rfl, rfl⟩
      | set => exact fun d => rfl
      | notify | returned => rfl

theorem timedWait_annotation : Annotation (timedWait W results) held (fun _ => True) tested where
  toDiscipline := timedWait_discipline
  init := trivial
  keeps t l := by
    cases l with
    | main p =>
      cases p with
      | lock | unlock => exact fun d _ => trivial
      | test =>
        refine fun d => ⟨fun _ _ => ?_, fun h => by cases h⟩
        dsimp only
        split <;> trivial
      | timedwait => exact fun d => ⟨fun _ => trivial, fun _ => trivial⟩
      | check =>
        refine fun d => ⟨fun _ _ => ?_, fun h => by cases h⟩
        dsimp only
        split
        · trivial
        · rfl
      | returned => trivial
    | setter p =>
      cases p with
      | lock | unlock => exact fun d _ => trivial
      | set => exact fun d => ⟨fun _ _ => trivial, fun h => by cases h⟩
      | notify => exact fun _ d _ => trivial
      | returned => trivial

end TKH.TimedWait
