import Mathlib.Data.Fintype.Sum
import ThreadingKnowHows.ClosableQueue.Client

/-!
# Many producers, many consumers

`main` of `03_patterns/02_producer_consumer.cpp`, for any numbers of producers,
consumers and items and any capacity. The producers count themselves out in
`producers_done`, and the last one closes the queue, which is the whole machine
of `ClosableQueue`. The counters are `std::atomic<int>`s, which wrap.

`out` and `closes` are not in the source: what each consumer has written, and
how often `close` was called.
-/

namespace TKH.ManyToMany

open ClosableQueue

/-- `NP`, `NC`, `ITEMS_PER_P` and the capacity of the queue. The first of them is an `int`,
and so are the items. -/
structure Config where
  producers : ℕ
  consumers : ℕ
  items : ℕ
  cap : ℕ
  producers_pos : 0 < producers
  consumers_pos : 0 < consumers
  cap_pos : 0 < cap
  producers_int : producers < 2 ^ 31
  item_int : ∀ p < producers, ∀ i < items, p * 1000 + i < 2 ^ 31

/-- The threads that use the queue. -/
inductive Thread (M : Config)
  | producer (p : Fin M.producers)
  | consumer (c : Fin M.consumers)
  deriving DecidableEq

variable {M : Config}

def Thread.equiv (M : Config) : Fin M.producers ⊕ Fin M.consumers ≃ Thread M where
  toFun
    | .inl p => .producer p
    | .inr c => .consumer c
  invFun
    | .producer p => .inl p
    | .consumer c => .inr c
  left_inv := by rintro (_ | _) <;> rfl
  right_inv := by rintro (_ | _) <;> rfl

instance : Fintype (Thread M) := Fintype.ofEquiv _ (Thread.equiv M)

/-- The queue `q`. -/
abbrev Q (M : Config) := State (Thread M) Cv (Data (Thread M) ℤ) (Pc ℤ)

/-- The `i`-th item of a producer. -/
def item (p : Fin M.producers) (i : ℕ) : ℤ := p * 1000 + i

inductive Producer
  | loop (i : ℕ)
  | inPush (i : ℕ)
  /-- `produced.fetch_add(1)` -/
  | count (i : ℕ)
  | nap (i : ℕ)
  /-- `producers_done.fetch_add(1)` -/
  | finish
  | close
  | inClose
  | returned
  deriving DecidableEq

inductive Consumer
  | loop
  | inPop
  | print (v : ℤ)
  /-- `consumed.fetch_add(1)` -/
  | count
  | nap
  | returned
  deriving DecidableEq

inductive Main
  | joining
  /-- All threads are joined, and the counters written. -/
  | returned (produced consumed : BitVec 32)
  deriving DecidableEq

structure Net (M : Config) where
  q : Q M
  produced : BitVec 32
  consumed : BitVec 32
  producersDone : BitVec 32
  producer : Fin M.producers → Producer
  consumer : Fin M.consumers → Consumer
  main : Main
  out : Fin M.consumers → List ℤ
  closes : ℕ

def Net.goP (s : Net M) (p : Fin M.producers) (k : Producer) : Net M :=
  { s with producer := Function.update s.producer p k }

def Net.goC (s : Net M) (c : Fin M.consumers) (k : Consumer) : Net M :=
  { s with consumer := Function.update s.consumer c k }

def producerNext (s : Net M) (p : Fin M.producers) : Option (Net M) :=
  match s.producer p with
  | .loop i =>
    if i < M.items then
      (cross Queue M.cap s.q (.producer p) (.push (item p i) .lock)).map fun q => { s.goP p (.inPush i) with q := q }
    else some (s.goP p .finish)
  -- what `push` returns is not looked at
  | .inPush i => (cross Queue M.cap s.q (.producer p) .out).map fun q => { s.goP p (.count i) with q := q }
  | .count i => some { s.goP p (.nap i) with produced := s.produced + 1 }
  | .nap i => some (s.goP p (.loop (i + 1)))
  | .finish =>
    some { s.goP p (if s.producersDone + 1 = BitVec.ofNat 32 M.producers then .close else .returned) with
      producersDone := s.producersDone + 1 }
  | .close => (cross Queue M.cap s.q (.producer p) (.close .lock)).map fun q =>
    { s.goP p .inClose with q := q, closes := s.closes + 1 }
  | .inClose => (cross Queue M.cap s.q (.producer p) .out).map fun q => { s.goP p .returned with q := q }
  | .returned => none

def consumerNext (s : Net M) (c : Fin M.consumers) : Option (Net M) :=
  match s.consumer c with
  | .loop => (cross Queue M.cap s.q (.consumer c) (.pop .lock)).map fun q => { s.goC c .inPop with q := q }
  | .inPop => match s.q.th (.consumer c) with
    | .run (.pop (.ret (some v))) =>
      (cross Queue M.cap s.q (.consumer c) .out).map fun q => { s.goC c (.print v) with q := q }
    | .run (.pop (.ret none)) =>
      (cross Queue M.cap s.q (.consumer c) .out).map fun q => { s.goC c .returned with q := q }
    | _ => none
  | .print v => some { s.goC c .count with out := Function.update s.out c (s.out c ++ [v]) }
  | .count => some { s.goC c .nap with consumed := s.consumed + 1 }
  | .nap => some (s.goC c .loop)
  | .returned => none

/-- `main` joins all threads and writes the counters. -/
def mainNext (s : Net M) : Option (Net M) :=
  match s.main with
  | .joining =>
    if (∀ p, s.producer p = .returned) ∧ ∀ c, s.consumer c = .returned then
      some { s with main := .returned s.produced s.consumed }
    else none
  | .returned _ _ => none

/-- A thread goes on inside the queue, or in its own code. -/
inductive NetAct (M : Config)
  | queue (a : Act (Thread M) (Pc ℤ))
  | producer (p : Fin M.producers)
  | consumer (c : Fin M.consumers)
  | main

def Config.next (M : Config) (s : Net M) : NetAct M → Option (Net M)
  | .queue a => (inside Queue M.cap s.q a).map fun q => { s with q := q }
  | .producer p => producerNext s p
  | .consumer c => consumerNext s c
  | .main => mainNext s

def Config.system (M : Config) : System (Net M) (NetAct M) where
  start := {
    q := (queue (Thread M) ℤ Queue M.cap).system.start
    produced := 0
    consumed := 0
    producersDone := 0
    producer := fun _ => .loop 0
    consumer := fun _ => .loop
    main := .joining
    out := fun _ => []
    closes := 0 }
  next := M.next

/-- Steps that are not spurious wakeups. -/
def NetAct.counts : NetAct M → Prop
  | .queue a => a.inner
  | _ => True

end TKH.ManyToMany
