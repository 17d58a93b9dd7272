import Mathlib.Data.Finset.Image
import Mathlib.Data.Finset.Range
import ThreadingKnowHows.Framework.System
import ThreadingKnowHows.Framework.Views

/-!
# Publication

A writer builds snapshots with plain writes and publishes each by a store to an
atomic variable; any number of readers load the variable and read the snapshot
they find with plain reads. `Orders` are the memory orders and the fences of
the program: release and acquire in `02_acquire_release.cpp` and
`03_memory_orders.cpp`, release and consume in `04_release_consume.cpp`,
relaxed with two fences in `05_fences.cpp`, which publish one snapshot (`data`
or a `Cfg`); in `06_atomic_pointer.cpp` there are several, of which main has
published the first before it creates the other threads (`before`).

What a thread has synchronised with is its view. A store carries the view of
its thread if it is a release store, and otherwise the view at the last release
fence; a load gains the view of the message it returns if it is an acquire
load, and otherwise at the next acquire fence. A read of a snapshot whose
writes are not in the view of the reader is a data race: it may return
anything.
-/

namespace TKH.Publication

inductive MemoryOrder
  | relaxed
  /-- Compilers promote it to `acquire`. -/
  | consume
  | acquire
  | release
  /-- One atomic variable has its order anyway, so that this is release and acquire. -/
  | seqCst
  deriving DecidableEq

def MemoryOrder.releases : MemoryOrder → Bool
  | .release | .seqCst => true
  | _ => false

def MemoryOrder.acquires : MemoryOrder → Bool
  | .consume | .acquire | .seqCst => true
  | _ => false

structure Orders where
  store : MemoryOrder
  /-- `atomic_thread_fence(release)` before the store. -/
  releaseFence : Bool
  load : MemoryOrder
  /-- `atomic_thread_fence(acquire)` after the load. -/
  acquireFence : Bool

/-- The writes of the snapshot `k`, and the store that publishes it. -/
inductive Event
  | write (k : ℕ)
  | store (k : ℕ)
  deriving DecidableEq

inductive WriterPc
  | build (k : ℕ)
  | fence (k : ℕ)
  | store (k : ℕ)

inductive ReaderPc
  | load
  | fence (k : ℕ)
  | read (k : ℕ)
  | done

variable {R V : Type*}

structure State (R : Type*) where
  mo : List (Message ℕ Event)
  writer : WriterPc
  /-- The view of the writer, and the one at its last release fence. -/
  view : Finset Event
  fenced : Finset Event
  reader : R → ReaderPc
  /-- The views of the readers, and what they gain at an acquire fence. -/
  seen : R → Finset Event
  pending : R → Finset Event

inductive Act (R V : Type*)
  | build
  | releaseFence
  | store
  /-- The load returns the message `i`, or null. -/
  | load (t : R) (i : Option ℕ)
  | acquireFence (t : R)
  /-- The read of the snapshot returns `v`. -/
  | read (t : R) (v : V)
  | leave (t : R)

/-- The events of the first `k` snapshots. -/
def prior (k : ℕ) : Finset Event := (Finset.range k).image .write ∪ (Finset.range k).image .store

variable [DecidableEq R]

def State.goto (s : State R) (t : R) (k : ReaderPc) : State R := { s with reader := Function.update s.reader t k }

/-- `t` has loaded the message `m`. Whatever the order is, it does not go back
behind `m` from then on. -/
def State.loaded (O : Orders) (s : State R) (t : R) (m : Message ℕ Event) : State R :=
  { s.goto t (if O.acquireFence then .fence m.value else .read m.value) with
    seen := gain s.seen t (if O.load.acquires then m.view else {m.event})
    pending := if O.load.acquires then s.pending else gain s.pending t m.view }

variable [DecidableEq V]

/-- The first `before` of the snapshots are published when the threads start. -/
def publish (R : Type*) [DecidableEq R] (O : Orders) (snapshots : List V) (before : ℕ) : System (State R) (Act R V) where
  start := {
    mo := (List.range before).map fun k => ⟨k, prior (k + 1), .store k⟩
    writer := .build before
    view := prior before
    fenced := ∅
    reader := fun _ => .load
    seen := fun _ => prior before
    pending := fun _ => ∅ }
  next s
    | .build => match s.writer with
      | .build k =>
        if k < snapshots.length then
          some { s with writer := if O.releaseFence then .fence k else .store k, view := insert (.write k) s.view }
        else none
      | _ => none
    | .releaseFence => match s.writer with
      | .fence k => some { s with writer := .store k, fenced := s.view }
      | _ => none
    | .store => match s.writer with
      | .store k => some { s with
          mo := s.mo ++ [⟨k, insert (.store k) (if O.store.releases then s.view else s.fenced), .store k⟩]
          writer := .build (k + 1)
          view := insert (.store k) s.view }
      | _ => none
    | .load t i => match s.reader t with
      | .load => (mayLoad s.mo (s.seen t) i).map fun
        | none => s
        | some m => s.loaded O t m
      | _ => none
    | .acquireFence t => match s.reader t with
      | .fence k => some { s.goto t (.read k) with seen := gain s.seen t (s.pending t) }
      | _ => none
    | .read t v => match s.reader t with
      | .read k => if .write k ∈ s.seen t → snapshots[k]? = some v then some (s.goto t .load) else none
      | _ => none
    | .leave t => match s.reader t with
      | .load => some (s.goto t .done)
      | _ => none

/-- What the readers read: the snapshot that `t` has loaded, and what it finds there. -/
def output (s : State R) : Act R V → List (R × ℕ × V)
  | .read t v => match s.reader t with
    | .read k => [(t, k, v)]
    | _ => []
  | _ => []

/-- The store and the load synchronise. -/
def Orders.Synchronizes (O : Orders) : Prop :=
  (O.store.releases = true ∨ O.releaseFence = true) ∧ (O.load.acquires = true ∨ O.acquireFence = true)

end TKH.Publication
