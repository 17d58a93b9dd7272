import Mathlib.Data.Fintype.Sum
import ThreadingKnowHows.Framework.Cancel

/-!
# The producers and consumers in C

The program `01_pthreads/03_condition_variables/02_producer_consumer.c`:
producers and consumers that share a circular buffer, and `main`, which joins
the producers, cancels the consumers, joins them and destroys the queue. The
macros of the program are a `Config`.

All threads run from the start: until `main` has created them it does nothing
else. `usleep` and `printf` have no effect on the data, but they are points at
which a cancelled consumer may end (`nap`); the other one is
`pthread_cond_wait` (`canceled`).
-/

namespace TKH.ProducerConsumer

/-- `CAP`, `N_PRODUCERS`, `N_CONSUMERS` and `ITEMS_PER_PRODUCER`. -/
structure Config where
  cap : ℕ
  producers : ℕ
  consumers : ℕ
  items : ℕ

/-- How many items a consumer takes. The macros are such that the product does not overflow
an `int`. -/
def Config.total (M : Config) : ℕ := M.producers * M.items / M.consumers + 1

/-- `queue_t`, less its mutex and its condition variables. -/
structure Queue where
  buf : ℕ → ℤ
  head : ℕ
  tail : ℕ
  count : ℤ

namespace Queue

def init : Queue := { buf := fun _ => 0, head := 0, tail := 0, count := 0 }

def put (q : Queue) (cap : ℕ) (v : ℤ) : Queue :=
  { q with buf := Function.update q.buf q.head v, head := (q.head + 1) % cap, count := q.count + 1 }

/-- The item that `q_get` returns. -/
def next (q : Queue) : ℤ := q.buf q.tail

def get (q : Queue) (cap : ℕ) : Queue :=
  { q with tail := (q.tail + 1) % cap, count := q.count - 1 }

end Queue

inductive Thread (M : Config)
  | producer (i : Fin M.producers)
  | consumer (j : Fin M.consumers)
  | main
  deriving DecidableEq

instance {M : Config} : Fintype (Thread M) :=
  Fintype.ofSurjective (α := Fin M.producers ⊕ Fin M.consumers ⊕ Unit)
    (fun
      | .inl i => .producer i
      | .inr (.inl j) => .consumer j
      | .inr (.inr ()) => .main)
    fun
      | .producer i => ⟨.inl i, rfl⟩
      | .consumer j => ⟨.inr (.inl j), rfl⟩
      | .main => ⟨.inr (.inr ()), rfl⟩

inductive Cv
  | notFull
  | notEmpty
  deriving DecidableEq

/-- The queue, and the consumers that `main` has cancelled. -/
structure Data (M : Config) where
  q : Queue
  canceled : Fin M.consumers → Bool

inductive PutPc
  | lock
  | test
  | wait
  | store
  | signal
  | unlock
  deriving DecidableEq

inductive GetPc
  | lock
  | test
  | wait
  | load
  | signal (v : ℤ)
  | unlock (v : ℤ)
  deriving DecidableEq

/-- `i` counts the items. -/
inductive ProducerPc
  | loop (i : ℕ)
  | put (i : ℕ) (p : PutPc)
  | nap (i : ℕ)
  | returned
  deriving DecidableEq

inductive ConsumerPc
  | loop (i : ℕ)
  | get (i : ℕ) (p : GetPc)
  | nap (i : ℕ) (item : ℤ)
  | returned
  | killed
  deriving DecidableEq

inductive MainPc
  | joinProducer (i : ℕ)
  | nap
  | cancel (j : ℕ)
  | joinConsumer (j : ℕ)
  | destroy
  | returned
  deriving DecidableEq

inductive Pc (M : Config)
  | producer (id : Fin M.producers) (p : ProducerPc)
  | consumer (id : Fin M.consumers) (p : ConsumerPc)
  | main (p : MainPc)
  deriving DecidableEq

variable {M : Config}

abbrev Code (M : Config) := Cmd (Thread M) Cv (Data M) (Pc M)

/-- `q_put(q, v)`, at the control points `at'`, which returns to `ret`. -/
def qPut (at' : PutPc → Pc M) (ret : Pc M) (v : ℤ) : PutPc → Code M
  | .lock => .lock (at' .test)
  | .test => .act fun d => (d, at' (if d.q.count = M.cap then .wait else .store))
  | .wait => .wait .notFull (at' .test)
  | .store => .act fun d => ({ d with q := d.q.put M.cap v }, at' .signal)
  | .signal => .notifyOne .notEmpty (at' .unlock)
  | .unlock => .unlock ret

/-- `q_get(q)`, which returns an item to `ret`. -/
def qGet (at' : GetPc → Pc M) (ret : ℤ → Pc M) : GetPc → Code M
  | .lock => .lock (at' .test)
  | .test => .act fun d => (d, at' (if d.q.count = 0 then .wait else .load))
  | .wait => .wait .notEmpty (at' .test)
  | .load => .act fun d => ({ d with q := d.q.get M.cap }, at' (.signal d.q.next))
  | .signal v => .notifyOne .notFull (at' (.unlock v))
  | .unlock v => .unlock (ret v)

def producer (id : Fin M.producers) : ProducerPc → Code M
  | .loop i => .act fun d => (d, .producer id (if i < M.items then .put i .lock else .returned))
  | .put i p => qPut (fun p => .producer id (.put i p)) (.producer id (.nap i)) (id * 1000 + i) p
  | .nap i => .act fun d => (d, .producer id (.loop (i + 1)))
  | .returned => .halt

def consumer (id : Fin M.consumers) : ConsumerPc → Code M
  | .loop i => .act fun d => (d, .consumer id (if i < M.total then .get i .lock else .returned))
  | .get i p => qGet (fun p => .consumer id (.get i p)) (fun v => .consumer id (.nap i v)) p
  | .nap i _ => .pick fun d k => match k with
    | .consumer j (.loop n) => j = id ∧ n = i + 1
    | .consumer j .killed => j = id ∧ d.canceled id
    | _ => false
  | .returned | .killed => .halt

def main : MainPc → Code M
  | .joinProducer i =>
    if h : i < M.producers then .join (fun u => u = .producer ⟨i, h⟩) (.main (.joinProducer (i + 1)))
    else .act fun d => (d, .main .nap)
  | .nap => .act fun d => (d, .main (.cancel 0))
  | .cancel j =>
    if h : j < M.consumers then .act fun d =>
      ({ d with canceled := Function.update d.canceled ⟨j, h⟩ true }, .main (.cancel (j + 1)))
    else .act fun d => (d, .main (.joinConsumer 0))
  | .joinConsumer j =>
    if h : j < M.consumers then .join (fun u => u = .consumer ⟨j, h⟩) (.main (.joinConsumer (j + 1)))
    else .act fun d => (d, .main .destroy)
  | .destroy => .act fun d => (d, .main .returned)
  | .returned => .halt

def program (M : Config) : Program (Thread M) Cv (Data M) (Pc M) where
  code _
    | .producer id p => producer id p
    | .consumer id p => consumer id p
    | .main p => main p
  entry
    | .producer id => .producer id (.loop 0)
    | .consumer id => .consumer id (.loop 0)
    | .main => .main (.joinProducer 0)
  init := { q := .init, canceled := fun _ => false }

/-- `main` cancels the consumers. -/
def canceled : Cancellation (Thread M) (Data M) (Pc M) where
  pending d
    | .consumer j => d.canceled j
    | _ => false
  killed
    | .producer id => .producer id .returned
    | .consumer id => .consumer id .killed
    | .main => .main .returned

/-- The program under cancellation. -/
abbrev system (M : Config) : System (State (Thread M) Cv (Data M) (Pc M)) (CancelAct (Thread M) (Pc M)) :=
  (program M).cancellable canceled

/-! ## The mutex -/

def PutPc.held : PutPc → Bool
  | lock => false
  | _ => true

def GetPc.held : GetPc → Bool
  | lock => false
  | _ => true

/-- Where a thread holds `q->m`. -/
def held : Pc M → Bool
  | .producer _ (.put _ p) => p.held
  | .consumer _ (.get _ p) => p.held
  | _ => false

theorem nap_iff {id : Fin M.consumers} {i : ℕ} {d : Data M} {k : Pc M} :
    (match k with
      | .consumer j (.loop n) => decide (j = id ∧ n = i + 1)
      | .consumer j .killed => decide (j = id ∧ d.canceled id)
      | _ => false) = true ↔
    k = .consumer id (.loop (i + 1)) ∨ (k = .consumer id .killed ∧ d.canceled id = true) := by
  rcases k with _ | ⟨j, _ | _ | _ | _ | _⟩ | _ <;> simp

theorem qPut_holds (at' : PutPc → Pc M) (ret : Pc M) (hat : ∀ p, held (at' p) = p.held) (hret : held ret = false)
    (v : ℤ) (p : PutPc) : (qPut at' ret v p).Holds held (at' p) := by
  cases p with
  | lock | wait => exact ⟨hat _, hat _⟩
  | test =>
    intro d
    simp only [hat]
    split <;> rfl
  | store => exact fun d => (hat .signal).trans (hat .store).symm
  | signal => exact (hat .unlock).trans (hat .signal).symm
  | unlock => exact ⟨hat _, hret⟩

theorem qGet_holds (at' : GetPc → Pc M) (ret : ℤ → Pc M) (hat : ∀ p, held (at' p) = p.held)
    (hret : ∀ v, held (ret v) = false) (p : GetPc) : (qGet at' ret p).Holds held (at' p) := by
  cases p with
  | lock | wait => exact ⟨hat _, hat _⟩
  | test =>
    intro d
    simp only [hat]
    split <;> rfl
  | load => exact fun d => (hat (.signal _)).trans (hat .load).symm
  | signal v => exact (hat (.unlock v)).trans (hat (.signal v)).symm
  | unlock v => exact ⟨hat _, hret v⟩

theorem program_discipline : Discipline (program M) held where
  entry t := by cases t <;> rfl
  code t l := by
    cases l with
    | producer id p =>
      cases p with
      | loop i => intro d; dsimp only; split <;> rfl
      | put i p => exact qPut_holds (fun p => .producer id (.put i p)) _ (fun _ => rfl) rfl _ p
      | nap i => exact fun d => rfl
      | returned => rfl
    | consumer id p =>
      cases p with
      | loop i => intro d; dsimp only; split <;> rfl
      | get i p => exact qGet_holds (fun p => .consumer id (.get i p)) _ (fun _ => rfl) (fun _ => rfl) p
      | nap i v => exact ⟨rfl, fun d k hk => by rcases nap_iff.mp hk with rfl | ⟨rfl, -⟩ <;> rfl⟩
      | returned | killed => rfl
    | main p =>
      cases p with
      | joinProducer i | joinConsumer i | cancel i =>
        simp only [program, main]
        split <;> simp [Cmd.Holds, held]
      | nap | destroy => exact fun d => rfl
      | returned => rfl

end TKH.ProducerConsumer
