import ThreadingKnowHows.ClosableQueue.Channel

/-!
# The pipeline

`main` of `03_patterns/06_pipeline.cpp`, for any input, stage functions and
capacities: a source, two stages and a sink, joined by three queues `BQ`. Each
queue is the whole machine of `ClosableQueue`, with its mutex and its
condition variables; a thread enters and leaves it by the calls and returns of
its own code, which `sourceNext`, `stageNext` and `sinkNext` follow.
-/

namespace TKH.Pipeline

open ClosableQueue

inductive Thread
  | source
  | stage1
  | stage2
  | sink
  deriving DecidableEq

instance : Fintype Thread where
  elems := {.source, .stage1, .stage2, .sink}
  complete t := by cases t <;> decide

/-- A queue `BQ` of the pipeline. -/
abbrev Q (α : Type) := State Thread Cv (Data Thread α) (Pc α)

variable {α β γ : Type}

/-- The thread `t` calls an operation of the queue, or returns from it. -/
def across (cap : ℕ) (q : Q α) (t : Thread) (k : Pc α) : Option (Q α) :=
  (queue Thread α BQ cap).next q (.ext t k)

/-- `source`, with the inputs that are left. -/
inductive Source (α : Type)
  | loop (xs : List α)
  | inPush (x : α) (xs : List α)
  | inClose
  | returned

def sourceNext (cap : ℕ) (q : Q α) : Source α → Option (Source α × Q α)
  | .loop (x :: xs) => (across cap q .source (.push x .lock)).map fun q => (.inPush x xs, q)
  | .loop [] => (across cap q .source (.close .lock)).map fun q => (.inClose, q)
  | .inPush _ xs => (across cap q .source .out).map fun q => (.loop xs, q)
  | .inClose => (across cap q .source .out).map fun q => (.returned, q)
  | .returned => none

/-- `stage1` and `stage2`: pop, transform, push, until nothing is left. -/
inductive Stage (β : Type)
  | loop
  | inPop
  | push (w : β)
  | inPush (w : β)
  | close
  | inClose
  | returned

def stageNext (f : α → β) (t : Thread) (capIn capOut : ℕ) (i : Q α) (o : Q β) :
    Stage β → Option (Stage β × Q α × Q β)
  | .loop => (across capIn i t (.pop .lock)).map fun i => (.inPop, i, o)
  | .inPop => match i.th t with
    | .run (.pop (.ret (some v))) => (across capIn i t .out).map fun i => (.push (f v), i, o)
    | .run (.pop (.ret none)) => (across capIn i t .out).map fun i => (.close, i, o)
    | _ => none
  | .push w => (across capOut o t (.push w .lock)).map fun o => (.inPush w, i, o)
  | .inPush _ => (across capOut o t .out).map fun o => (.loop, i, o)
  | .close => (across capOut o t (.close .lock)).map fun o => (.inClose, i, o)
  | .inClose => (across capOut o t .out).map fun o => (.returned, i, o)
  | .returned => none

/-- `sink`, with what it has written. -/
inductive Sink (γ : Type)
  | loop (out : List γ)
  | inPop (out : List γ)
  | returned (out : List γ)

def Sink.out : Sink γ → List γ
  | loop out | inPop out | returned out => out

def sinkNext (cap : ℕ) (q : Q γ) : Sink γ → Option (Sink γ × Q γ)
  | .loop out => (across cap q .sink (.pop .lock)).map fun q => (.inPop out, q)
  | .inPop out => match q.th .sink with
    | .run (.pop (.ret (some v))) => (across cap q .sink .out).map fun q => (.loop (out ++ [v]), q)
    | .run (.pop (.ret none)) => (across cap q .sink .out).map fun q => (.returned out, q)
    | _ => none
  | .returned _ => none

/-- The input, the stages, and queues that can hold a value. -/
structure Config (α β γ : Type) where
  input : List α
  f : α → β
  g : β → γ
  cap1 : ℕ
  cap2 : ℕ
  cap3 : ℕ
  cap1_pos : 0 < cap1
  cap2_pos : 0 < cap2
  cap3_pos : 0 < cap3

structure Net (α β γ : Type) where
  q1 : Q α
  q2 : Q β
  q3 : Q γ
  source : Source α
  stage1 : Stage β
  stage2 : Stage γ
  sink : Sink γ

/-- A thread goes on inside a queue, or in its own code. -/
inductive NetAct (α β γ : Type)
  | q1 (a : Act Thread (Pc α))
  | q2 (a : Act Thread (Pc β))
  | q3 (a : Act Thread (Pc γ))
  | source
  | stage1
  | stage2
  | sink

/-- A step inside a queue. -/
def within (cap : ℕ) (q : Q α) (a : Act Thread (Pc α)) : Option (Q α) :=
  if a.outer then none else (queue Thread α BQ cap).next q a

variable (P : Config α β γ)

def Config.next (s : Net α β γ) : NetAct α β γ → Option (Net α β γ)
  | .q1 a => (within P.cap1 s.q1 a).map fun q => { s with q1 := q }
  | .q2 a => (within P.cap2 s.q2 a).map fun q => { s with q2 := q }
  | .q3 a => (within P.cap3 s.q3 a).map fun q => { s with q3 := q }
  | .source => (sourceNext P.cap1 s.q1 s.source).map fun (c, q) => { s with source := c, q1 := q }
  | .stage1 => (stageNext P.f .stage1 P.cap1 P.cap2 s.q1 s.q2 s.stage1).map fun (c, i, o) =>
    { s with stage1 := c, q1 := i, q2 := o }
  | .stage2 => (stageNext P.g .stage2 P.cap2 P.cap3 s.q2 s.q3 s.stage2).map fun (c, i, o) =>
    { s with stage2 := c, q2 := i, q3 := o }
  | .sink => (sinkNext P.cap3 s.q3 s.sink).map fun (c, q) => { s with sink := c, q3 := q }

def Config.system : System (Net α β γ) (NetAct α β γ) where
  start := {
    q1 := (queue Thread α BQ P.cap1).system.start
    q2 := (queue Thread β BQ P.cap2).system.start
    q3 := (queue Thread γ BQ P.cap3).system.start
    source := .loop P.input
    stage1 := .loop
    stage2 := .loop
    sink := .loop [] }
  next := P.next

/-- Steps that are not spurious wakeups. -/
def NetAct.counts : NetAct α β γ → Prop
  | .q1 a => a.inner
  | .q2 a => a.inner
  | .q3 a => a.inner
  | _ => True

end TKH.Pipeline
